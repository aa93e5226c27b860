import RevForest.Proofs.Tree.SameForest
import RevForest.Store.Backend

/-! What is stored of a document is the chain of its revisions in the order of their
sequences, and its tree is that chain linked to an empty one. While sequences are
stored behind all earlier ones and each revision fits the tree of its document, the
tree can be built again, and a document is not touched by what is stored of others. -/
namespace RevForest

theorem Revision.findId {rs : List Revision} {r : Revision}
    (apart : rs.Pairwise fun a b => a.id ≠ b.id) (member : r ∈ rs) :
    rs.find? (fun x => x.id = r.id) = some r := by
  induction rs with
  | nil => cases member
  | cons head rest ih =>
    obtain ⟨first, tail⟩ := List.pairwise_cons.mp apart
    rcases List.mem_cons.mp member with rfl | later
    · simp
    · rw [List.find?_cons_of_neg (by simpa using first r later)]
      exact ih tail later

structure Revision.Plain (r : Revision) (key : Int) : Prop where
  key : r.key = key
  current : r.current = false
  dirty : r.dirty = false
  full : r.projection = none

namespace MemoryBackend
variable {m m' : MemoryBackend} {d e : DocumentId}

def sequencesOf (m : MemoryBackend) (d : DocumentId) : List Int := (m.byDocument.find? d).getD []

def keyOf (m : MemoryBackend) (d : DocumentId) : Int := (m.keys.find? d).getD 0

def Knows (m : MemoryBackend) (d : DocumentId) : Prop := m.keys.find? d = some (m.keyOf d)

def grown (m : MemoryBackend) (d : DocumentId) : RevisionTree :=
  (m.revisionsOf d).foldl RevisionTree.link (.empty d (m.keyOf d))

def tree (m : MemoryBackend) (d : DocumentId) : RevisionTree := (m.grown d).chooseWinner

structure Held (m : MemoryBackend) : Prop where
  counted : 0 ≤ m.counter.highest
  inside : ∀ q r, m.revisions.find? q = some r →
    q ≤ m.counter.highest ∧ q ∈ m.sequencesOf r.document
  listed : ∀ d, ∀ q ∈ m.sequencesOf d,
    ∃ r, m.revisions.find? q = some r ∧ r.sequence = q ∧ r.document = d

structure Kept (m : MemoryBackend) : Prop where
  counted : 0 ≤ m.counter.highest
  inside : ∀ q r, m.revisions.find? q = some r →
    q ≤ m.counter.highest ∧ q ∈ m.sequencesOf r.document
  listed : ∀ d, ∀ q ∈ m.sequencesOf d,
    ∃ r, m.revisions.find? q = some r ∧ r.sequence = q ∧ r.document = d
  ordered : ∀ d, (m.sequencesOf d).Pairwise (· < ·)
  keyed : ∀ d, m.sequencesOf d ≠ [] → m.Knows d
  forest : ∀ d, RevisionTree.Grows (.empty d (m.keyOf d)) (m.revisionsOf d) (m.grown d)
  plain : ∀ d, ∀ r ∈ m.revisionsOf d, r.Plain (m.keyOf d)

theorem lastCounted (m : MemoryBackend) : m.lastSequence = m.counter.highest := by
  unfold lastSequence SequenceCounter.highest?
  split
  · rename_i none
    exact none.symm
  · rfl

theorem Kept.held (kept : m.Kept) : m.Held := ⟨kept.counted, kept.inside, kept.listed⟩

structure Blank (m : MemoryBackend) : Prop where
  counted : 0 ≤ m.counter.highest
  revisions : m.revisions = Dict.empty
  byDocument : m.byDocument = Dict.empty

theorem Blank.sequences (blank : m.Blank) (d : DocumentId) : m.sequencesOf d = [] := by
  unfold sequencesOf
  rw [blank.byDocument]
  rfl

theorem Blank.bare (blank : m.Blank) (d : DocumentId) : m.revisionsOf d = [] :=
  congrArg (·.filterMap m.revisions.find?) (blank.sequences d)

theorem Blank.kept (blank : m.Blank) : m.Kept where
  counted := blank.counted
  inside q r found := by
    rw [blank.revisions] at found
    cases found
  listed d q member := by
    rw [blank.sequences d] at member
    cases member
  ordered d := by
    rw [blank.sequences d]
    exact .nil
  keyed d some := absurd (blank.sequences d) some
  forest d := by
    unfold grown
    rw [blank.bare d]
    exact .nil _
  plain d r member := by
    rw [blank.bare d] at member
    cases member

theorem treeBare (bare : m.revisionsOf d = []) : m.tree d = .empty d (m.keyOf d) := by
  unfold tree grown
  rw [bare]
  rfl

theorem Kept.grownWellFormed (kept : m.Kept) (d : DocumentId) : (m.grown d).WellFormed :=
  RevisionTree.wellFormedGrows (kept.forest d) (RevisionTree.emptyWellFormed d (m.keyOf d))

theorem Kept.grownFlagged (kept : m.Kept) (d : DocumentId) : (m.grown d).Flagged :=
  RevisionTree.growsKeeps RevisionTree.flaggedLink (kept.forest d)
    (RevisionTree.emptyCrowned d (m.keyOf d)).flagged

theorem Kept.wellFormed (kept : m.Kept) (d : DocumentId) : (m.tree d).WellFormed :=
  RevisionTree.wellFormedChosen (kept.grownWellFormed d)

theorem Kept.crowned (kept : m.Kept) (d : DocumentId) : (m.tree d).Crowned :=
  RevisionTree.crownedChosen (kept.grownWellFormed d) (kept.grownFlagged d)

theorem Kept.identity (kept : m.Kept) (d : DocumentId) :
    (m.grown d).document = d ∧ (m.grown d).key = m.keyOf d :=
  RevisionTree.growsKeeps (P := fun t => t.document = d ∧ t.key = m.keyOf d) (fun _ => id)
    (kept.forest d) ⟨rfl, rfl⟩

theorem Kept.document (kept : m.Kept) (d : DocumentId) : (m.tree d).document = d :=
  (kept.identity d).1

theorem Kept.key (kept : m.Kept) (d : DocumentId) : (m.tree d).key = m.keyOf d :=
  (kept.identity d).2

theorem Kept.node (kept : m.Kept) {s : Int} {x : Revision} :
    (m.grown d).get? s = some x ↔
      ∃ r ∈ m.revisionsOf d, r.sequence = s ∧ (m.grown d).settled r = x := by
  have key : (RevisionTree.empty d (m.keyOf d)).key = (m.grown d).key := (kept.identity d).2.symm
  rw [RevisionTree.getGrows (kept.forest d)]
  unfold RevisionTree.settled
  rw [key]
  simp [RevisionTree.get?, RevisionTree.empty]

theorem Held.sequences (held : m.Held) (d : DocumentId) :
    (m.revisionsOf d).map (·.sequence) = m.sequencesOf d := by
  have each (qs : List Int) (inside : ∀ q ∈ qs, q ∈ m.sequencesOf d) :
      (qs.filterMap m.revisions.find?).map (·.sequence) = qs := by
    induction qs with
    | nil => rfl
    | cons q qs ih =>
      obtain ⟨r, found, own, _⟩ := held.listed d q (inside q List.mem_cons_self)
      rw [List.filterMap_cons_some found, List.map_cons, own,
        ih fun x later => inside x (List.mem_cons_of_mem _ later)]
  exact each _ fun _ => id

theorem Kept.sequences (kept : m.Kept) (d : DocumentId) :
    (m.revisionsOf d).map (·.sequence) = m.sequencesOf d :=
  kept.held.sequences d

theorem Held.stored (held : m.Held) {r : Revision} (member : r ∈ m.revisionsOf d) :
    m.revisions.find? r.sequence = some r ∧ r.document = d ∧
      r.sequence ≤ m.counter.highest := by
  obtain ⟨q, listed, found⟩ := List.mem_filterMap.mp member
  obtain ⟨x, there, own, document⟩ := held.listed d q listed
  cases there.symm.trans found
  rw [← own] at found
  exact ⟨found, document, (held.inside _ _ found).1⟩

theorem Held.belongs (held : m.Held) {q : Int} {r : Revision}
    (found : m.revisions.find? q = some r) : r ∈ m.revisionsOf r.document ∧ r.sequence = q := by
  have listed := (held.inside q r found).2
  obtain ⟨x, there, own, _⟩ := held.listed _ q listed
  cases there.symm.trans found
  exact ⟨List.mem_filterMap.mpr ⟨q, listed, found⟩, own⟩

theorem Held.foundIff (held : m.Held) {q : Int} {r : Revision} :
    m.revisions.find? q = some r ↔ r ∈ m.revisionsOf r.document ∧ r.sequence = q := by
  constructor
  · exact held.belongs
  · rintro ⟨member, rfl⟩
    exact (held.stored member).1

theorem Kept.stored (kept : m.Kept) {r : Revision} (member : r ∈ m.revisionsOf d) :
    m.revisions.find? r.sequence = some r ∧ r.document = d ∧
      r.sequence ≤ m.counter.highest :=
  kept.held.stored member

theorem Kept.belongs (kept : m.Kept) {q : Int} {r : Revision}
    (found : m.revisions.find? q = some r) : r ∈ m.revisionsOf r.document :=
  (kept.held.belongs found).1

theorem Kept.noneAbove (kept : m.Kept) {q : Int} (above : m.counter.highest < q) :
    (m.grown d).get? q = none :=
  RevisionTree.growsAbove (kept.forest d) (fun _ member => (kept.stored member).2.2) above

theorem Kept.bareIff (kept : m.Kept) : m.sequencesOf d = [] ↔ m.revisionsOf d = [] := by
  rw [← kept.sequences d, List.map_eq_nil_iff]

theorem Kept.known (kept : m.Kept) (some : m.revisionsOf d ≠ []) : m.Knows d :=
  kept.keyed d fun bare => some (kept.bareIff.mp bare)

theorem Kept.rising (kept : m.Kept) (d : DocumentId) :
    (m.revisionsOf d).Pairwise fun a b => a.sequence < b.sequence := by
  have order := kept.ordered d
  rw [← kept.sequences d] at order
  exact List.pairwise_map.mp order

def know (m : MemoryBackend) (d : DocumentId) : MemoryBackend := (m.documentKey d).2

theorem Knows.asked (known : m.Knows d) : m.documentKey d = (m.keyOf d, m) := by
  unfold documentKey
  rw [known]

theorem Knows.same (known : m.Knows d) : m.know d = m := congrArg Prod.snd known.asked

theorem knowShape (m : MemoryBackend) (d : DocumentId) :
    m.know d = { m with keys := (m.know d).keys } := by
  unfold know documentKey
  split <;> rfl

theorem knowKeys (m : MemoryBackend) (d : DocumentId) : (m.know d).keys.find? e =
    if e = d then some (m.documentKey d).1 else m.keys.find? e := by
  unfold know documentKey
  cases found : m.keys.find? d with
  | some key =>
    dsimp only
    split
    · rename_i same
      rw [same, found]
    · rfl
  | none => exact Dict.findInsert _ _ _ _

theorem knowKnows (m : MemoryBackend) (d : DocumentId) :
    (m.know d).Knows d ∧ (m.documentKey d).1 = (m.know d).keyOf d := by
  have found := (m.knowKeys d (e := d)).trans (if_pos rfl)
  unfold Knows keyOf
  rw [found]
  exact ⟨rfl, rfl⟩

theorem Knows.know (known : m.Knows e) (d : DocumentId) : (m.know d).Knows e ∧
    (m.know d).keyOf e = m.keyOf e := by
  by_cases same : e = d
  · subst same
    rw [known.same]
    exact ⟨known, rfl⟩
  · have found := (m.knowKeys d (e := e)).trans (if_neg same)
    unfold Knows keyOf at *
    rw [found]
    exact ⟨known, rfl⟩

@[simp] theorem revisionsKnow (m : MemoryBackend) (d e : DocumentId) :
    (m.know d).revisionsOf e = m.revisionsOf e := by
  rw [knowShape]
  rfl

@[simp] theorem sequencesKnow (m : MemoryBackend) (d e : DocumentId) :
    (m.know d).sequencesOf e = m.sequencesOf e := by
  rw [knowShape]
  rfl

theorem Kept.know (kept : m.Kept) (d : DocumentId) : (m.know d).Kept where
  counted := by
    rw [knowShape]
    exact kept.counted
  inside q r found := by
    rw [knowShape] at found ⊢
    exact kept.inside q r found
  listed e q member := by
    rw [knowShape] at member ⊢
    exact kept.listed e q member
  ordered e := by
    rw [sequencesKnow]
    exact kept.ordered e
  keyed e some := by
    rw [sequencesKnow] at some
    exact ((kept.keyed e some).know d).1
  forest e := by
    unfold grown
    rw [revisionsKnow]
    by_cases bare : m.revisionsOf e = []
    · rw [bare]
      exact .nil _
    · rw [((kept.known bare).know d).2]
      exact kept.forest e
  plain e r member := by
    rw [revisionsKnow] at member
    rw [((kept.known (List.ne_nil_of_mem member)).know d).2]
    exact kept.plain e r member

theorem Kept.treeKnow (kept : m.Kept) (d : DocumentId) (some : m.revisionsOf e ≠ []) :
    (m.know d).tree e = m.tree e := by
  unfold tree grown
  rw [revisionsKnow, ((kept.known some).know d).2]

structure Built (m : MemoryBackend) (d : DocumentId) (t : RevisionTree) : Prop where
  apart : (m.revisionsOf d).Pairwise fun a b => a.id ≠ b.id
  linked : RevisionTree.ofRevisions d (m.documentKey d).1 (m.revisionsOf d) = .ok t

theorem entriesSorted (m : MemoryBackend) (d : DocumentId) :
    m.loadTree d = (Revision.sortBySequence (m.revisionsOf d)).map TreeEntry.ofRevision := by
  unfold loadTree Revision.sortBySequence
  refine (List.map_mergeSort ?_).symm
  intro a _ b _
  rfl

theorem ofSorted (d : DocumentId) (key : Int) (rs : List Revision) :
    RevisionTree.ofRevisions d key (Revision.sortBySequence rs) =
      RevisionTree.ofRevisions d key rs := by
  unfold RevisionTree.ofRevisions
  rw [sortSorted (sortPairwise rs)]

theorem Built.ofGrows {grown : RevisionTree} (grows : RevisionTree.Grows
    (.empty d (m.documentKey d).1) (Revision.sortBySequence (m.revisionsOf d)) grown) :
    m.Built d grown.chooseWinner where
  apart := List.pairwise_map.mp (apartSorted ((RevisionTree.growsApart grows).2.imp And.left))
  linked := RevisionTree.ofRevisionsIff.mpr ⟨grown, grows, rfl⟩

theorem Kept.built (kept : m.Kept) (some : m.revisionsOf d ≠ []) : m.Built d (m.tree d) := by
  refine .ofGrows ?_
  rw [(kept.known some).asked, sortSorted ((kept.rising d).imp le_of_lt)]
  exact kept.forest d

def append (m : MemoryBackend) (r : Revision) : MemoryBackend :=
  { m with
    counter := ⟨r.sequence⟩
    revisions := m.revisions.insert r.sequence r
    byDocument := m.byDocument.insert r.document (m.sequencesOf r.document ++ [r.sequence]) }

variable {r : Revision}

theorem sequencesAppend (m : MemoryBackend) (r : Revision) (d : DocumentId) :
    (m.append r).sequencesOf d =
      if d = r.document then m.sequencesOf d ++ [r.sequence] else m.sequencesOf d := by
  unfold append sequencesOf
  rw [Dict.findInsert]
  split
  · rename_i same
    rw [same]
    rfl
  · rfl

theorem Held.below (held : m.Held) (later : m.counter.highest < r.sequence) {q : Int}
    (listed : q ∈ m.sequencesOf d) : q < r.sequence := by
  obtain ⟨x, found, _⟩ := held.listed d q listed
  exact lt_of_le_of_lt (held.inside q x found).1 later

theorem Held.free (held : m.Held) {q : Int} (later : m.counter.highest < q) :
    m.revisions.find? q = none := by
  refine Option.eq_none_iff_forall_ne_some.mpr ?_
  intro x found
  exact absurd (held.inside q x found).1 (not_le.mpr later)

theorem Held.revisionsAppend (held : m.Held) (free : m.revisions.find? r.sequence = none)
    (d : DocumentId) : (m.append r).revisionsOf d =
      if d = r.document then m.revisionsOf d ++ [r] else m.revisionsOf d := by
  have old : (m.sequencesOf d).filterMap (m.append r).revisions.find? = m.revisionsOf d := by
    refine List.filterMap_congr ?_
    intro q listed
    obtain ⟨x, found, _⟩ := held.listed d q listed
    refine (Dict.findInsert _ _ _ _).trans (if_neg ?_)
    rintro rfl
    cases free.symm.trans found
  have new : [r.sequence].filterMap (m.append r).revisions.find? = [r] := by
    have found : (m.append r).revisions.find? r.sequence = some r :=
      (Dict.findInsert _ _ _ _).trans (if_pos rfl)
    rw [List.filterMap_cons_some found]
    rfl
  have shape : (m.append r).revisionsOf d =
      ((m.append r).sequencesOf d).filterMap (m.append r).revisions.find? := rfl
  rw [shape, sequencesAppend]
  split
  · rw [List.filterMap_append, old, new]
  · exact old

theorem Held.file (held : m.Held) (free : m.revisions.find? r.sequence = none)
    (revisions : m'.revisions = (m.append r).revisions)
    (byDocument : m'.byDocument = (m.append r).byDocument)
    (counted : m.counter.highest ≤ m'.counter.highest)
    (reached : r.sequence ≤ m'.counter.highest) : m'.Held := by
  have sequences (d : DocumentId) : m'.sequencesOf d =
      if d = r.document then m.sequencesOf d ++ [r.sequence] else m.sequencesOf d := by
    rw [← sequencesAppend]
    unfold sequencesOf
    rw [byDocument]
  have finds (q : Int) : m'.revisions.find? q =
      if q = r.sequence then some r else m.revisions.find? q := by
    rw [revisions]
    exact Dict.findInsert _ _ _ _
  refine ⟨held.counted.trans counted, ?_, ?_⟩
  · intro q x found
    rw [finds] at found
    rw [sequences]
    split at found
    · rename_i same
      cases found
      rw [same, if_pos rfl]
      exact ⟨reached, List.mem_append_right _ (List.mem_singleton_self _)⟩
    · obtain ⟨old, listed⟩ := held.inside q x found
      refine ⟨old.trans counted, ?_⟩
      split
      · exact List.mem_append_left _ listed
      · exact listed
  · intro d q member
    have before (listed : q ∈ m.sequencesOf d) :
        ∃ x, m'.revisions.find? q = some x ∧ x.sequence = q ∧ x.document = d := by
      obtain ⟨x, found, own⟩ := held.listed d q listed
      have other : q ≠ r.sequence := by
        rintro rfl
        cases free.symm.trans found
      exact ⟨x, by rw [finds, if_neg other, found], own⟩
    rw [sequences] at member
    split at member
    · rename_i same
      rcases List.mem_append.mp member with old | new
      · exact before old
      · cases List.mem_singleton.mp new
        exact ⟨r, by rw [finds, if_pos rfl], rfl, same.symm⟩
    · exact before member

theorem Held.append (held : m.Held) (later : m.counter.highest < r.sequence) :
    (m.append r).Held :=
  held.file (held.free later) rfl rfl later.le le_rfl

theorem Kept.grownAppend (kept : m.Kept) (later : m.counter.highest < r.sequence)
    (d : DocumentId) :
    (m.append r).grown d = if d = r.document then (m.grown d).link r else m.grown d := by
  unfold grown
  rw [kept.held.revisionsAppend (kept.held.free later)]
  split
  · rw [List.foldl_append]
    rfl
  · rfl

theorem Kept.append (kept : m.Kept) (later : m.counter.highest < r.sequence)
    (known : m.Knows r.document) (fits : (m.grown r.document).Fits r)
    (plain : r.Plain (m.keyOf r.document)) : (m.append r).Kept where
  counted := fits.positive.le
  inside := (kept.held.append later).inside
  listed := (kept.held.append later).listed
  ordered d := by
    rw [sequencesAppend]
    split
    · refine List.pairwise_append.mpr ⟨kept.ordered d, List.pairwise_singleton _ _, ?_⟩
      intro q listed x last
      rw [List.mem_singleton.mp last]
      exact kept.held.below later listed
    · exact kept.ordered d
  keyed d some := by
    rw [sequencesAppend] at some
    split at some
    · rename_i same
      exact same ▸ known
    · exact kept.keyed d some
  forest d := by
    rw [kept.held.revisionsAppend (kept.held.free later), kept.grownAppend later]
    split
    · rename_i same
      exact RevisionTree.growsAppend.mpr
        ⟨_, kept.forest d, .cons (same ▸ fits) (.nil _)⟩
    · exact kept.forest d
  plain d x member := by
    rw [kept.held.revisionsAppend (kept.held.free later)] at member
    split at member
    · rename_i same
      rcases List.mem_append.mp member with old | new
      · exact kept.plain d x old
      · rw [List.mem_singleton.mp new, same]
        exact plain
    · exact kept.plain d x member

structure Extends (m m' : MemoryBackend) (d : DocumentId) (chain : List Revision) : Prop where
  kept : m'.Kept
  own : m'.revisionsOf d = m.revisionsOf d ++ chain
  others : ∀ e, e ≠ d → m'.revisionsOf e = m.revisionsOf e
  keys : m'.keys = m.keys
  counter : m'.counter.highest = m.counter.highest + chain.length

def Idle (m m' : MemoryBackend) : Prop := ∃ failNext, m' = { m with failNext }

theorem Kept.extendsIdle (kept : m.Kept) (idle : m.Idle m') (d : DocumentId) :
    m.Extends m' d [] := by
  obtain ⟨failNext, rfl⟩ := idle
  exact {
    kept := ⟨kept.counted, kept.inside, kept.listed, kept.ordered, kept.keyed, kept.forest,
      kept.plain⟩
    own := (List.append_nil _).symm
    others := fun _ _ => rfl
    keys := rfl
    counter := by simp }

theorem Kept.extendsNothing (kept : m.Kept) (d : DocumentId) : m.Extends m d [] :=
  kept.extendsIdle ⟨_, rfl⟩ d

theorem Kept.extendsAppend (kept : m.Kept) (next : r.sequence = m.counter.highest + 1)
    (known : m.Knows r.document) (fits : (m.grown r.document).Fits r)
    (plain : r.Plain (m.keyOf r.document)) : m.Extends (m.append r) r.document [r] := by
  have later : m.counter.highest < r.sequence := by omega
  refine ⟨kept.append later known fits plain, ?_, ?_, rfl, next⟩
  · exact (kept.held.revisionsAppend (kept.held.free later) _).trans (if_pos rfl)
  · intro e other
    exact (kept.held.revisionsAppend (kept.held.free later) e).trans (if_neg other)

namespace Extends
variable {chain rest : List Revision}

theorem trans {last : MemoryBackend} (first : m.Extends m' d chain)
    (second : m'.Extends last d rest) : m.Extends last d (chain ++ rest) where
  kept := second.kept
  own := by
    rw [second.own, first.own, List.append_assoc]
  others e other := (second.others e other).trans (first.others e other)
  keys := second.keys.trans first.keys
  counter := by
    rw [second.counter, first.counter, List.length_append]
    omega

theorem keyOf (extended : m.Extends m' d chain) (e : DocumentId) : m'.keyOf e = m.keyOf e := by
  unfold MemoryBackend.keyOf
  rw [extended.keys]

theorem knows (extended : m.Extends m' d chain) {e : DocumentId} (known : m.Knows e) :
    m'.Knows e := by
  unfold Knows at *
  rw [extended.keys, extended.keyOf, known]

theorem grown (extended : m.Extends m' d chain) :
    m'.grown d = chain.foldl RevisionTree.link (m.grown d) := by
  unfold MemoryBackend.grown
  rw [extended.own, extended.keyOf, List.foldl_append]

theorem grows (extended : m.Extends m' d chain) :
    RevisionTree.Grows (m.grown d) chain (m'.grown d) := by
  have whole := extended.kept.forest d
  rw [extended.own, extended.keyOf] at whole
  obtain ⟨u, first, later⟩ := RevisionTree.growsAppend.mp whole
  rw [RevisionTree.growsFold first] at later
  exact later

theorem stored (extended : m.Extends m' d chain) (e : DocumentId) :
    m.revisionsOf e <+: m'.revisionsOf e := by
  by_cases own : e = d
  · subst own
    rw [extended.own]
    exact List.prefix_append _ _
  · exact (extended.others e own).symm ▸ List.prefix_rfl

theorem otherTree (extended : m.Extends m' d chain) {e : DocumentId} (other : e ≠ d) :
    m'.tree e = m.tree e := by
  unfold MemoryBackend.tree MemoryBackend.grown
  rw [extended.others e other, extended.keyOf]

theorem sameRevisions (extended : m.Extends m' d []) (e : DocumentId) :
    m'.revisionsOf e = m.revisionsOf e := by
  by_cases own : e = d
  · rw [own, extended.own, List.append_nil]
  · exact extended.others e own

theorem sameTree (extended : m.Extends m' d []) (e : DocumentId) : m'.tree e = m.tree e := by
  unfold MemoryBackend.tree MemoryBackend.grown
  rw [extended.sameRevisions, extended.keyOf]

end Extends

end MemoryBackend
end RevForest
