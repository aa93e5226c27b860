import RevForest.Proofs.Store.Interrupted
import RevForest.Proofs.Store.Vouched

/-! Backends of which any call may fail, and which keep what they stored. A sequence that is
given is larger than all before it, a revision is stored exactly when its call succeeds, and
what is loaded is what is stored. A chain is committed up to the first call that fails,
and as long as what is stored of a document links up, loading it fails by a call only. -/
namespace RevForest

theorem bornOrdered {rs stored : List Revision}
    (rising : stored.Pairwise fun a b => a.sequence < b.sequence) (perm : rs.Perm stored) :
    Revision.sortBySequence rs = stored := by
  have whole := (sortPerm rs).trans perm
  have once : (stored.map (·.sequence)).Nodup := List.pairwise_map.mpr (rising.imp ne_of_lt)
  refine List.Perm.eq_of_pairwise ?_ (sortPairwise rs) (rising.imp le_of_lt) whole
  intro a b first second before after
  exact List.inj_on_of_nodup_map once (whole.subset first) second (le_antisymm before after)

namespace RevisionTree
variable {t u grown : RevisionTree} {r : Revision} {chain : List Revision}

structure SameIds (t u : RevisionTree) : Prop where
  document : t.document = u.document
  index : ∀ id, t.sequenceOf? id = u.sequenceOf? id
  nodes : ∀ s, (t.get? s).map (·.id) = (u.get? s).map (·.id)

namespace SameIds

theorem fits (same : t.SameIds u) (fits : t.Fits r) : u.Fits r where
  document := fits.document.trans same.document
  positive := fits.positive
  freeSequence := by
    have none := same.nodes r.sequence
    rw [fits.freeSequence] at none
    exact Option.map_eq_none_iff.mp none.symm
  freeId := (same.index _).symm.trans fits.freeId
  parent child := by
    obtain ⟨p, found, next⟩ := fits.parent child
    have there := same.nodes r.parent
    rw [found] at there
    obtain ⟨q, here, id⟩ := Option.map_eq_some_iff.mp there.symm
    refine ⟨q, here, ?_⟩
    unfold Revision.generation at next ⊢
    rw [id, next]

theorem link (same : t.SameIds u) (r : Revision) : (t.link r).SameIds (u.link r) where
  document := same.document
  index id := by rw [sequenceLink, sequenceLink, same.index]
  nodes s := by
    rw [getLink, getLink]
    split
    · rfl
    · exact same.nodes s

theorem grows (same : t.SameIds u) (grows : Grows t chain grown) :
    ∃ other, Grows u chain other := by
  induction grows generalizing u with
  | nil => exact ⟨u, .nil u⟩
  | cons fits next ih =>
    obtain ⟨other, grows⟩ := ih (same.link _)
    exact ⟨other, .cons (same.fits fits) grows⟩

end SameIds

end RevisionTree

inductive Backend.Questioned {β : Type} [Backend β] (b : β) : β → Prop where
  | now : Questioned b b
  | asked {α : Type} {act : β → Except StoreError α × β} {b' : β} (before : Questioned b b')
      (asks : Asks act) : Questioned b (act b').2

def Backend.Silent {β : Type} [Backend β] (b : β) : Prop :=
  ∃ b', Questioned b b' ∧ ∃ (α : Type) (act : β → Except StoreError α × β) (cause : StoreError),
    Asks act ∧ (act b').1 = .error cause

theorem Backend.Questioned.trans {β : Type} [Backend β] {b b' b'' : β} (first : Questioned b b')
    (later : Questioned b' b'') : Questioned b b'' := by
  induction later with
  | now => exact first
  | asked _ asks ih => exact .asked ih asks

theorem Backend.Questioned.silent {β : Type} [Backend β] {b b' : β} (asked : Questioned b b')
    (silent : Silent b') : Silent b := by
  obtain ⟨b'', more, unanswered⟩ := silent
  exact ⟨b'', asked.trans more, unanswered⟩

/-- What is to be told of a backend: whether its calls behave, what is stored of each document in
the order of storing, and a bound on the sequences that were given. -/
structure Backend.View (β : Type) where
  usable : β → Prop
  stored : β → DocumentId → List Revision
  highest : β → Int

namespace Backend.View
variable {β α : Type} {v : View β} {b b' b'' : β} {rs rs' : List Revision} {d : DocumentId}

structure Adds (v : View β) (b : β) (rs : List Revision) (b' : β) : Prop where
  usable : v.usable b'
  stored : ∀ d, v.stored b' d = v.stored b d ++ rs.filter (·.document = d)
  highest : v.highest b ≤ v.highest b'

theorem Adds.refl (usable : v.usable b) : v.Adds b [] b := ⟨usable, by simp, le_rfl⟩

theorem Adds.trans (first : v.Adds b rs b') (later : v.Adds b' rs' b'') :
    v.Adds b (rs ++ rs') b'' where
  usable := later.usable
  stored d := by rw [later.stored, first.stored, List.filter_append, List.append_assoc]
  highest := first.highest.trans later.highest

theorem Adds.same (adds : v.Adds b [] b') (d : DocumentId) : v.stored b' d = v.stored b d := by
  simpa using adds.stored d

theorem Adds.others (adds : v.Adds b rs b') (own : ∀ r ∈ rs, r.document = d) {e : DocumentId}
    (other : e ≠ d) : v.stored b' e = v.stored b e := by
  rw [adds.stored, List.filter_eq_nil_iff.mpr, List.append_nil]
  intro r member
  rw [own r member]
  simpa using other.symm

theorem Adds.own (adds : v.Adds b rs b') (own : ∀ r ∈ rs, r.document = d) :
    v.stored b' d = v.stored b d ++ rs := by
  rw [adds.stored, List.filter_eq_self.mpr]
  exact fun r member => decide_eq_true (own r member)

def Below (v : View β) (b : β) : Prop := ∀ d, ∀ r ∈ v.stored b d, r.sequence ≤ v.highest b

theorem Below.adds (below : v.Below b) (adds : v.Adds b rs b')
    (new : ∀ r ∈ rs, r.sequence ≤ v.highest b') : v.Below b' := by
  intro d r member
  rw [adds.stored] at member
  rcases List.mem_append.mp member with old | more
  · exact (below d r old).trans adds.highest
  · exact new r (List.mem_filter.mp more).1

structure Ladder (v : View β) (b : β) (qs : List Int) (b' : β) : Prop where
  above : ∀ q ∈ qs, 0 < q ∧ v.highest b < q ∧ q ≤ v.highest b'
  rising : qs.Pairwise (· < ·)

theorem Ladder.nil (v : View β) (b b' : β) : v.Ladder b [] b' := ⟨by simp, .nil⟩

theorem Ladder.cons {q : Int} {qs : List Int} (positive : 0 < q) (above : v.highest b < q)
    (reached : q ≤ v.highest b') (later : v.Ladder b' qs b'')
    (highest : v.highest b' ≤ v.highest b'') : v.Ladder b (q :: qs) b'' where
  above := by
    refine List.forall_mem_cons.mpr ⟨⟨positive, above, reached.trans highest⟩, ?_⟩
    intro x member
    obtain ⟨low, high, upto⟩ := later.above x member
    exact ⟨low, by omega, upto⟩
  rising := by
    refine List.pairwise_cons.mpr ⟨?_, later.rising⟩
    intro x member
    have high := (later.above x member).2.1
    omega

/-- The sequences that are given only rise, the revisions of successful calls are stored and no
others, and what is loaded is what is stored. Any call may fail. -/
structure Durable [Backend β] (v : View β) : Prop where
  asks : ∀ {α : Type} {act : β → Except StoreError α × β} {b : β}, Asks act → v.usable b →
    v.Adds b [] (act b).2
  lists : ∀ {b b' : β} {d : DocumentId} {entries : List TreeEntry}, v.usable b →
    Backend.loadTree d b = (.ok entries, b') →
      entries.Perm ((v.stored b d).map TreeEntry.ofRevision)
  finds : ∀ {b b' : β} {d : DocumentId} {id : RevisionId} {found : Option Revision}, v.usable b →
    Backend.loadRevision d id b = (.ok found, b') →
      (∀ r, found = some r → r ∈ v.stored b d ∧ r.id = id) ∧
        (found = none → ∀ r ∈ v.stored b d, r.id ≠ id)
  allocates : ∀ {b : β}, v.usable b → v.Adds b [] (Backend.nextSequence b).2
  rises : ∀ {b b' : β} {q : Int}, v.usable b → Backend.nextSequence b = (.ok q, b') →
    0 < q ∧ v.highest b < q ∧ q ≤ v.highest b'
  refuses : ∀ {b b' : β} {r : Revision} {cause : StoreError}, v.usable b →
    Backend.persist r b = (.error cause, b') → v.Adds b [] b'
  persists : ∀ {b b' : β} {r : Revision}, v.usable b → r.projection = none → 0 < r.sequence →
    (∀ d, ∀ x ∈ v.stored b d, x.sequence ≠ r.sequence) →
      Backend.persist r b = (.ok (), b') → v.Adds b [r] b'

variable [Backend β]

inductive Commits (v : View β) (b : β) (r : Revision) : Answer × β → Prop where
  | fails {cause : StoreError} {b' : β} (adds : v.Adds b [] b') :
      Commits v b r (.error (.storage cause), b')
  | stores {q : Int} {b' : β} (positive : 0 < q) (above : v.highest b < q)
      (reached : q ≤ v.highest b') (adds : v.Adds b [{ r with sequence := q }] b') :
      Commits v b r (.ok (some q), b')

theorem Durable.commit (laws : v.Durable) (usable : v.usable b) (below : v.Below b) {r : Revision}
    (asked : r.Uncommitted) : v.Commits b r (Backend.commit r b) := by
  have idle := laws.allocates usable
  unfold Backend.commit
  cases given : Backend.nextSequence b with
  | mk answer after =>
    rw [given] at idle
    cases answer with
    | error cause => exact .fails idle
    | ok q =>
      obtain ⟨positive, above, reached⟩ := laws.rises usable given
      have assigned : (r.initializeSequence q).1 = { r with sequence := q } :=
        congrArg Prod.fst (if_pos asked.1)
      have free : ∀ d, ∀ x ∈ v.stored after d, x.sequence ≠ q := by
        intro d x member
        rw [idle.same] at member
        exact (lt_of_le_of_lt (below d x member) above).ne
      dsimp only
      rw [assigned]
      cases done : Backend.persist { r with sequence := q } after with
      | mk answer last =>
        cases answer with
        | error cause => exact .fails (idle.trans (laws.refuses idle.usable done))
        | ok _ =>
          have adds := laws.persists idle.usable (r := { r with sequence := q }) asked.2 positive
            free done
          exact .stores positive above (reached.trans adds.highest) (idle.trans adds)

inductive ChainCommits (v : View β) (b : β) (parent : Int) (chain : List Revision) :
    Except DocumentError (List Revision) × β → Prop where
  | fails (qs : List Int) {cause : StoreError} {b' : β} (short : qs.length < chain.length)
      (ladder : v.Ladder b qs b') (adds : v.Adds b (RevisionTree.placed parent chain qs) b') :
      ChainCommits v b parent chain (.error (.storage cause), b')
  | stores (qs : List Int) {b' : β} (length : qs.length = chain.length) (ladder : v.Ladder b qs b')
      (adds : v.Adds b (RevisionTree.placed parent chain qs) b') :
      ChainCommits v b parent chain (.ok (RevisionTree.placed parent chain qs), b')

theorem Durable.commitChain (laws : v.Durable) (t : RevisionTree) {chain : List Revision}
    (parent : Int) (usable : v.usable b) (below : v.Below b)
    (asked : ∀ x ∈ chain, ∀ parent, { x with parent }.Uncommitted) :
    v.ChainCommits b parent chain (t.commitChain Backend.commit parent chain b) := by
  induction chain generalizing b parent with
  | nil => exact .stores [] rfl (.nil v b b) (.refl usable)
  | cons r rest ih =>
    obtain ⟨here, others⟩ := List.forall_mem_cons.mp asked
    have committed := laws.commit usable below (here parent)
    unfold RevisionTree.commitChain
    rw [Commit.runNew _ (here parent).1]
    generalize Backend.commit { r with parent } b = ran at committed
    cases committed with
    | @fails cause b' adds =>
      exact .fails [] (Nat.succ_pos _) (.nil v b b') adds
    | @stores q b' positive above reached adds =>
      have sequenced : ({ r with parent, sequence := q } : Revision).isSequenced = true :=
        decide_eq_true positive
      have low : v.Below b' := by
        refine below.adds adds ?_
        intro x member
        rw [List.mem_singleton.mp member]
        exact reached
      have later := ih q adds.usable low others
      simp only [Except.map, Option.getD_some]
      rw [if_pos sequenced]
      generalize t.commitChain Backend.commit q rest b' = ran at later
      cases later with
      | @fails qs _ _ short ladder more =>
        exact .fails (q :: qs) (Nat.succ_lt_succ short)
          (ladder.cons positive above reached more.highest) (adds.trans more)
      | @stores qs _ length ladder more =>
        exact .stores (q :: qs) (congrArg Nat.succ length)
          (ladder.cons positive above reached more.highest) (adds.trans more)

omit [Backend β]

def Current (v : View β) (b : β) (d : DocumentId) (t : RevisionTree) : Prop :=
  RevisionTree.ofRevisions d t.key (v.stored b d) = .ok t

structure Intact (v : View β) (b : β) : Prop where
  usable : v.usable b
  below : v.Below b
  rising : ∀ d, (v.stored b d).Pairwise fun x y => x.sequence < y.sequence
  linked : ∀ d, ∃ t, v.Current b d t

variable {t grown : RevisionTree} {chain : List Revision}

theorem Current.reachable (current : v.Current b d t) : RevisionTree.Reachable d t.key t :=
  .built current

theorem Current.document (current : v.Current b d t) : t.document = d :=
  current.reachable.identity.1

theorem Intact.grows (intact : v.Intact b) (current : v.Current b d t) :
    ∃ g, RevisionTree.Grows (.empty d t.key) (v.stored b d) g ∧ t = g.chooseWinner := by
  have built := RevisionTree.ofRevisionsIff.mp current
  rwa [bornOrdered (intact.rising d) (.refl _)] at built

theorem growsKey (grows : RevisionTree.Grows t chain grown) : grown.key = t.key :=
  RevisionTree.growsKeeps (P := fun u => u.key = t.key) (fun _ => id) grows rfl

theorem Intact.currentOf (intact : v.Intact b) {key : Int} {g : RevisionTree}
    (grows : RevisionTree.Grows (.empty d key) (v.stored b d) g) :
    v.Current b d g.chooseWinner := by
  have same : g.chooseWinner.key = key := growsKey grows
  unfold Current
  rw [same, RevisionTree.ofRevisionsIff, bornOrdered (intact.rising d) (.refl _)]
  exact ⟨g, grows, rfl⟩

theorem Intact.keyed (intact : v.Intact b) (d : DocumentId) (key : Int) :
    ∃ t, t.key = key ∧ v.Current b d t := by
  obtain ⟨t, current⟩ := intact.linked d
  obtain ⟨g, grows, _⟩ := intact.grows current
  have same : (RevisionTree.empty d t.key).SameIds (.empty d key) :=
    ⟨rfl, fun _ => rfl, fun _ => rfl⟩
  obtain ⟨other, again⟩ := same.grows grows
  exact ⟨other.chooseWinner, growsKey again, intact.currentOf again⟩

theorem Intact.apart (intact : v.Intact b) (d : DocumentId) :
    ((v.stored b d).map (·.id)).Nodup := by
  obtain ⟨t, current⟩ := intact.linked d
  obtain ⟨g, grows, _⟩ := intact.grows current
  exact List.pairwise_map.mpr ((RevisionTree.growsApart grows).2.imp And.left)

theorem Current.same (current : v.Current b d t) (same : v.stored b' d = v.stored b d) :
    v.Current b' d t := by
  unfold Current
  rw [same]
  exact current

theorem Intact.adds (intact : v.Intact b) (adds : v.Adds b [] b') : v.Intact b' where
  usable := adds.usable
  below := intact.below.adds adds (by simp)
  rising d := adds.same d ▸ intact.rising d
  linked d := by
    obtain ⟨t, current⟩ := intact.linked d
    exact ⟨t, current.same (adds.same d)⟩

theorem Current.bare (nothing : v.stored b d = []) (key : Int) : v.Current b d (.empty d key) := by
  unfold Current RevisionTree.ofRevisions
  rw [nothing, sortSorted .nil]
  rfl

theorem Intact.blank (usable : v.usable b) (nothing : ∀ d, v.stored b d = []) : v.Intact b where
  usable := usable
  below d r member := by
    rw [nothing] at member
    cases member
  rising d := by
    rw [nothing]
    exact .nil
  linked d := ⟨.empty d 0, .bare (nothing d) 0⟩

theorem Intact.free (intact : v.Intact b) (current : v.Current b d t) {q : Int}
    (above : v.highest b < q) : t.get? q = none := by
  obtain ⟨g, grows, rfl⟩ := intact.grows current
  refine (RevisionTree.sameForestChosen g).absent ?_
  exact RevisionTree.growsAbove grows (fun r member => intact.below d r member) above

theorem Intact.extend (intact : v.Intact b) (current : v.Current b d t)
    (grows : RevisionTree.Grows t chain grown) (adds : v.Adds b chain b')
    (ladder : v.Ladder b (chain.map (·.sequence)) b') :
    v.Intact b' ∧ v.Current b' d grown.chooseWinner ∧
      ∀ e, e ≠ d → v.stored b' e = v.stored b e := by
  have own : ∀ r ∈ chain, r.document = d := fun r member =>
    (RevisionTree.growsChecked grows r member).1.trans current.document
  have stored := adds.own own
  have others : ∀ e, e ≠ d → v.stored b' e = v.stored b e := fun e => adds.others own
  have span : ∀ r ∈ chain, v.highest b < r.sequence ∧ r.sequence ≤ v.highest b' := fun r member =>
    (ladder.above r.sequence (List.mem_map_of_mem member)).2
  have rising (e : DocumentId) :
      (v.stored b' e).Pairwise fun x y => x.sequence < y.sequence := by
    by_cases same : e = d
    · subst same
      rw [stored]
      refine List.pairwise_append.mpr ⟨intact.rising e, List.pairwise_map.mp ladder.rising, ?_⟩
      intro x old y new
      exact lt_of_le_of_lt (intact.below e x old) (span y new).1
    · rw [others e same]
      exact intact.rising e
  -- The tree has its flags set, and what is built again from the stored revisions gets them last.
  -- So the chain is put on the tree as it was before its winner was chosen.
  obtain ⟨g, before, rfl⟩ := intact.grows current
  obtain ⟨other, more, _⟩ := (RevisionTree.sameForestChosen g).symm.grows grows
  obtain ⟨after, again, same⟩ := RevisionTree.growsRebuilt before more
  have whole := RevisionTree.growsAppend.mpr ⟨g, before, more⟩
  rw [← stored] at whole
  have now : v.Current b' d other.chooseWinner := by
    unfold Current
    have same : other.chooseWinner.key = g.chooseWinner.key :=
      (growsKey more : other.key = g.key)
    rw [same, RevisionTree.ofRevisionsIff, bornOrdered (rising d) (.refl _)]
    exact ⟨other, whole, rfl⟩
  refine ⟨⟨adds.usable, intact.below.adds adds fun r member => (span r member).2, rising, ?_⟩,
    ?_, others⟩
  · intro e
    by_cases own : e = d
    · subst own
      exact ⟨_, now⟩
    · obtain ⟨u, known⟩ := intact.linked e
      exact ⟨u, known.same (others e own)⟩
  · rw [RevisionTree.growsFold grows, ← RevisionTree.growsFold again, ← same]
    exact now

end Backend.View

theorem RevisionTree.placedTake (parent : Int) (chain : List Revision) (qs : List Int) :
    placed parent chain qs = placed parent (chain.take qs.length) qs := by
  induction chain generalizing parent qs with
  | nil => rw [List.take_nil]
  | cons r rest ih =>
    cases qs with
    | nil => rfl
    | cons q qs => exact congrArg (List.cons _) (ih q qs)

namespace Backend.View
variable {β ρ : Type} {v : View β} {b b' : β} {d : DocumentId} {t : RevisionTree}

inductive Grown (v : View β) (b : β) (t : RevisionTree) (parts : List Revision → Prop) :
    Except DocumentError (RevisionTree × ρ) × β → Prop where
  | refused {e : DocumentError} (plain : e.Recoverable) : Grown v b t parts (.error e, b)
  | present (told : ρ) : Grown v b t parts (.ok (t, told), b)
  | stops {part : List Revision} {grown : RevisionTree} {cause : StoreError} {b' : β}
      (told : parts part) (grows : RevisionTree.Grows t part grown) (adds : v.Adds b part b')
      (ladder : v.Ladder b (part.map (·.sequence)) b') :
      Grown v b t parts (.error (.storage cause), b')
  | stores {chain : List Revision} {grown : RevisionTree} {report : ρ} {b' : β}
      (grows : RevisionTree.Grows t chain grown) (adds : v.Adds b chain b')
      (ladder : v.Ladder b (chain.map (·.sequence)) b') :
      Grown v b t parts (.ok (grown.chooseWinner, report), b')

theorem Intact.freeFor (intact : v.Intact b) (current : v.Current b d t) {qs : List Int}
    {chain : List Revision} (ladder : v.Ladder b qs b') (length : qs.length = chain.length) :
    t.FreeFor chain qs where
  length := length
  positive q member := (ladder.above q member).1
  free q member := intact.free current (ladder.above q member).2.1
  once := ladder.rising.imp ne_of_lt

variable [Backend β]

theorem Durable.insertChild (laws : v.Durable) (intact : v.Intact b) (current : v.Current b d t)
    {parent : Option Int} (holds : t.Holds parent) (digest : ContentDigest) (body : DocumentBody)
    (attachments : AttachmentMap) (deleted : Bool) :
    v.Grown b t (· = [])
      (t.insertChild digest Backend.commit parent body attachments deleted b) := by
  unfold RevisionTree.insertChild
  cases drafted : t.draft digest parent body attachments deleted with
  | error e => exact .refused (RevisionTree.draftRecoverable drafted)
  | ok r =>
    have asked := RevisionTree.draftUncommitted drafted
    have committed := laws.commit intact.usable intact.below asked
    dsimp only
    rw [Commit.runNew _ asked.1]
    generalize Backend.commit r b = ran at committed
    cases committed with
    | fails adds => exact .stops rfl (.nil t) adds (.nil v b _)
    | @stores q b' positive above reached adds =>
      have fits := RevisionTree.draftFits drafted holds positive (intact.free current above)
      simp only [Except.map, Option.getD_some]
      rw [RevisionTree.placeFits fits]
      exact .stores (.cons fits (.nil _)) adds (.cons positive above reached (.nil v b' b') le_rfl)

theorem Durable.insertForeign (laws : v.Durable) (intact : v.Intact b) (current : v.Current b d t)
    (r : Revision) (history : List RevisionId) :
    v.Grown b t (fun part => ∀ x ∈ part, x.id ∈ history.tail)
      (t.insertForeign Backend.commit r history b) := by
  unfold RevisionTree.insertForeign
  cases plan : t.planForeign r history with
  | error e => exact .refused (FaultyBackend.planForeignRecoverable plan)
  | ok wanted =>
    cases wanted with
    | present q => exact .present _
    | missing known chain =>
      obtain ⟨_, _, descends, shape⟩ := RevisionTree.planForeignIff.mp plan
      have wf := current.reachable.wellFormed
      have staged := RevisionTree.planStaged wf descends shape.symm
      have committed := laws.commitChain t (known.getD noParent) intact.usable intact.below
        fun x member => RevisionTree.planUncommitted plan member
      dsimp only
      generalize t.commitChain Backend.commit (known.getD noParent) chain b = ran at committed
      cases committed with
      | @fails qs cause b' short ladder adds =>
        have length : qs.length = (chain.take qs.length).length :=
          (List.length_take_of_le short.le).symm
        obtain ⟨grown, grows⟩ := (staged.take qs.length).grows
          (intact.freeFor current ladder length)
        rw [RevisionTree.placedTake] at adds
        refine .stops ?_ grows adds ?_
        · intro x member
          obtain ⟨missing, rest, cut⟩ := RevisionTree.planCut descends.1 shape.symm
          obtain ⟨y, inside, _, _, rfl⟩ := RevisionTree.memPlaced member
          obtain ⟨id, ancestor, rfl⟩ := cut.placeholder short inside
          have tail := congrArg List.tail cut.whole
          have inside : id ∈ (RevisionTree.pathOf r.id history).tail := by
            rw [tail]
            exact List.mem_append_left _ ancestor
          unfold RevisionTree.pathOf at inside
          split at inside
          · cases inside
          · exact inside
        · rwa [RevisionTree.placedSequences length]
      | @stores qs b' length ladder adds =>
        obtain ⟨grown, grows⟩ := staged.grows (intact.freeFor current ladder length)
        simp only [RevisionTree.placeChainGrows known grows, Except.map]
        refine .stores grows adds ?_
        rwa [RevisionTree.placedSequences length]

end Backend.View

end RevForest
