import RevForest.Proofs.Store.Journal
import RevForest.Proofs.Tree.Child
import RevForest.Store.Faults
import RevForest.Store.Write

/-! Writes of a tree to a memory of which allocations may fail and nothing else. What was
allocated is stored, so a write is refused before its first commit, or it is stopped by
an allocation with the first part of its chain stored, or it is done. The tree that it
gives then is the one that is built from what is stored. -/
namespace RevForest

def Backend.commit {β : Type} [Backend β] : Commit β := fun r b =>
  match Backend.nextSequence b with
  | (.error cause, b) => (.error (.storage cause), b)
  | (.ok sequence, b) =>
    match Backend.persist (r.initializeSequence sequence).1 b with
    | (.error cause, b) => (.error (.storage cause), b)
    | (.ok (), b) => (.ok (some sequence), b)

theorem Datastore.commitFollows {β : Type} [Backend β] :
    (Datastore.commit (β := β)).Follows Backend.commit Datastore.backend := by
  intro r s
  unfold Datastore.commit Backend.commit Datastore.call Datastore.Outcome.andThen
  cases Backend.nextSequence s.backend with
  | mk given b =>
    cases given with
    | error cause => rfl
    | ok q =>
      simp only [Datastore.count]
      cases Backend.persist (r.initializeSequence q).1 b with
      | mk stored b => cases stored <;> rfl

theorem Datastore.commitBackend {β : Type} [Backend β] (r : Revision) (s : Datastore β) :
    (Datastore.commit r s).2.backend = (Backend.commit r s.backend).2 :=
  congrArg Prod.snd (commitFollows r s)

def Revision.Uncommitted (r : Revision) : Prop := r.sequence = unassigned ∧ r.projection = none

namespace RevisionTree
variable {t : RevisionTree}

theorem draftUncommitted {digest : ContentDigest} {parent : Option Int} {body : DocumentBody}
    {attachments : AttachmentMap} {deleted : Bool} {r : Revision}
    (drafted : t.draft digest parent body attachments deleted = .ok r) : r.Uncommitted := by
  obtain ⟨shape, _, _⟩ := draftOk drafted
  rw [shape]
  exact ⟨rfl, rfl⟩

theorem planUncommitted {r x : Revision} {history : List RevisionId} {known : Option Int}
    {chain : List Revision} (plan : t.planForeign r history = .ok (.missing known chain))
    (member : x ∈ chain) (parent : Int) : { x with parent }.Uncommitted := by
  obtain ⟨_, _, descends, shape⟩ := planForeignIff.mp plan
  obtain ⟨missing, rest, cut⟩ := planCut descends.1 shape.symm
  rw [cut.chain] at member
  rcases memStaged.mp member with ⟨id, _, rfl⟩ | rfl <;> exact ⟨rfl, rfl⟩

theorem draftPlain {digest : ContentDigest} {parent : Option Int} {body : DocumentBody}
    {attachments : AttachmentMap} {deleted : Bool} {r : Revision}
    (drafted : t.draft digest parent body attachments deleted = .ok r) : r.Plain t.key := by
  obtain ⟨shape, _, _⟩ := draftOk drafted
  rw [shape]
  exact ⟨rfl, rfl, rfl, rfl⟩

theorem planPlain {r x : Revision} {history : List RevisionId} {known : Option Int}
    {chain : List Revision} (plan : t.planForeign r history = .ok (.missing known chain))
    (member : x ∈ chain) : x.Plain t.key := by
  obtain ⟨_, _, descends, shape⟩ := planForeignIff.mp plan
  obtain ⟨missing, rest, cut⟩ := planCut descends.1 shape.symm
  rw [cut.chain] at member
  rcases memStaged.mp member with ⟨id, _, rfl⟩ | rfl <;> exact ⟨rfl, rfl, rfl, rfl⟩

end RevisionTree

def MemoryBackend.numbered (m : MemoryBackend) (r : Revision) : Revision :=
  { r with sequence := m.counter.highest + 1 }

namespace FaultyBackend
variable {b b' : FaultyBackend}

structure Steady (b : FaultyBackend) : Prop where
  others : ∀ op, op ≠ .nextSequence → b.queues op = []
  allocations : ∀ q, .answer q ∉ b.queues .nextSequence

def know (b : FaultyBackend) (d : DocumentId) : FaultyBackend :=
  { b with memory := b.memory.know d }

namespace Steady

theorem memory (steady : b.Steady) (memory : MemoryBackend) : { b with memory }.Steady :=
  ⟨steady.others, steady.allocations⟩

theorem passes (steady : b.Steady) (op : BackendOperation) (other : op ≠ .nextSequence) :
    b.take op = (.pass, b) := by
  unfold take
  rw [steady.others op other]

theorem lastSequence (steady : b.Steady) :
    Backend.lastSequence b = (.ok b.memory.lastSequence, b) := by
  have passes := steady.passes .lastSequence (by decide)
  simp only [Backend.lastSequence, passes, run]

theorem documentKey (steady : b.Steady) (d : DocumentId) :
    Backend.documentKey d b = (.ok (b.memory.documentKey d).1, b.know d) := by
  have passes := steady.passes .documentKey (by decide)
  simp only [Backend.documentKey, passes, run]
  rfl

theorem loadRevision (steady : b.Steady) (d : DocumentId) (id : RevisionId) :
    Backend.loadRevision d id b = (.ok (b.memory.loadRevision? d id), b) := by
  have passes := steady.passes .loadRevision (by decide)
  simp only [Backend.loadRevision, passes, run]

theorem loadTree (steady : b.Steady) (d : DocumentId) :
    Backend.loadTree d b = (.ok (b.memory.loadTree d), b) := by
  have passes := steady.passes .loadTree (by decide)
  simp only [Backend.loadTree, passes, run]

theorem documentIds (steady : b.Steady) :
    Backend.documentIds b = (.ok b.memory.documentIds, b) := by
  have passes := steady.passes .documentIds (by decide)
  simp only [Backend.documentIds, passes, run]

theorem persist (steady : b.Steady) {r : Revision} {m : MemoryBackend}
    (ok : b.memory.persist r = .ok m) :
    Backend.persist r b = (.ok (), { b with memory := m }) := by
  have passes := steady.passes .persist (by decide)
  simp only [Backend.persist, passes, run, ok]

end Steady

inductive Allocates (b : FaultyBackend) : Except StoreError Int × FaultyBackend → Prop where
  | fails {cause : StoreError} {b' : FaultyBackend} (steady : b'.Steady)
      (idle : b.memory.Idle b'.memory) : Allocates b (.error cause, b')
  | gives {b' : FaultyBackend} (steady : b'.Steady)
      (memory : b'.memory = { b.memory with counter := ⟨b.memory.counter.highest + 1⟩ }) :
      Allocates b (.ok (b.memory.counter.highest + 1), b')

theorem Steady.memoryAllocates (steady : b.Steady) : Allocates b (b.run Backend.nextSequence) := by
  simp only [run, Backend.nextSequence, MemoryBackend.nextSequence, SequenceCounter.allocate]
  split
  · exact .fails (steady.memory _) ⟨_, rfl⟩
  · split
    · rename_i full
      split at full
      · cases full
      · exact .fails (steady.memory _) ⟨_, rfl⟩
    · rename_i given
      split at given
      · cases given
        exact .gives (steady.memory _) rfl
      · cases given

theorem Steady.taken (steady : b.Steady) :
    (b.take .nextSequence).2.Steady ∧ (b.take .nextSequence).2.memory = b.memory ∧
      ∀ q, (b.take .nextSequence).1 ≠ .answer q := by
  unfold take
  cases queue : b.queues .nextSequence with
  | nil => exact ⟨steady, rfl, fun q same => by cases same⟩
  | cons f rest =>
    have answers := steady.allocations
    rw [queue] at answers
    refine ⟨⟨?_, ?_⟩, rfl, ?_⟩
    · intro op other
      exact (if_neg other).trans (steady.others op other)
    · intro q member
      exact answers q (List.mem_cons_of_mem _ member)
    · intro q same
      exact answers q (same ▸ List.mem_cons_self)

theorem Steady.allocates (steady : b.Steady) : Allocates b (Backend.nextSequence b) := by
  obtain ⟨after, memory, others⟩ := steady.taken
  have asked : Allocates b ((b.take .nextSequence).2.run Backend.nextSequence) := by
    have given := after.memoryAllocates
    generalize (b.take .nextSequence).2.run Backend.nextSequence = result at given ⊢
    cases given with
    | fails steady idle => exact .fails steady (memory ▸ idle)
    | gives steady shape =>
      rw [memory] at shape ⊢
      exact .gives steady shape
  simp only [Backend.nextSequence]
  generalize b.take .nextSequence = taken at after memory others asked
  obtain ⟨fault, b'⟩ := taken
  cases fault with
  | fail error => exact .fails after ⟨_, memory⟩
  | answer q => exact absurd rfl (others q)
  | _ => exact asked

inductive Commits (b : FaultyBackend) (r : Revision) : Answer × FaultyBackend → Prop where
  | stalled {cause : StoreError} {b' : FaultyBackend} (steady : b'.Steady)
      (idle : b.memory.Idle b'.memory) :
      Commits b r (.error (.storage cause), b')
  | stored {b' : FaultyBackend} (steady : b'.Steady)
      (memory : b'.memory = b.memory.append (b.memory.numbered r)) :
      Commits b r (.ok (some (b.memory.counter.highest + 1)), b')

theorem persistNumbered {m : MemoryBackend} {r : Revision} (held : m.Held)
    (full : r.projection = none) :
    { m with counter := ⟨m.counter.highest + 1⟩ }.persist (m.numbered r) =
      .ok (m.append (m.numbered r)) := by
  have positive : ¬ (m.numbered r).sequence ≤ 0 := by
    have counted := held.counted
    simp only [MemoryBackend.numbered]
    omega
  have unprojected : ¬ (m.numbered r).isProjected = true := by
    simp [MemoryBackend.numbered, Revision.isProjected, full]
  have free : ¬ m.revisions.contains (m.numbered r).sequence = true := by
    have nothing : m.revisions.find? (m.numbered r).sequence = none := held.free (lt_add_one _)
    simp [Dict.contains, nothing]
  have seen : ¬ m.counter.highest + 1 < (m.numbered r).sequence := lt_irrefl _
  unfold MemoryBackend.persist
  rw [if_neg positive, if_neg unprojected, if_neg free, if_neg seen]
  rfl

theorem Steady.stores (after : b'.Steady) (held : b.memory.Held)
    (memory : b'.memory = { b.memory with counter := ⟨b.memory.counter.highest + 1⟩ })
    {r : Revision} (new : r.sequence = unassigned) (full : r.projection = none) :
    Backend.persist (r.initializeSequence (b.memory.counter.highest + 1)).1 b' =
      (.ok (), { b' with memory := b.memory.append (b.memory.numbered r) }) := by
  have assigned : (r.initializeSequence (b.memory.counter.highest + 1)).1 = b.memory.numbered r :=
    congrArg Prod.fst (if_pos new)
  have ok : b'.memory.persist (b.memory.numbered r) =
      .ok (b.memory.append (b.memory.numbered r)) := by
    rw [memory]
    exact persistNumbered held full
  rw [assigned, after.persist ok]

theorem Steady.commits (steady : b.Steady) (held : b.memory.Held) {r : Revision}
    (new : r.sequence = unassigned) (full : r.projection = none) :
    Commits b r (Backend.commit r b) := by
  unfold Backend.commit
  have given := steady.allocates
  generalize Backend.nextSequence b = asked at given
  cases given with
  | fails steady idle => exact .stalled steady idle
  | gives after memory =>
    dsimp only
    rw [after.stores held memory new full]
    exact .stored (after.memory _) rfl

variable {d : DocumentId}

theorem growsTree {m m' : MemoryBackend} {chain : List Revision} (kept : m.Kept)
    (extended : m.Extends m' d chain) :
    ∃ grown, RevisionTree.Grows (m.tree d) chain grown ∧ m'.tree d = grown.chooseWinner :=
  RevisionTree.growsRebuilt (kept.forest d) extended.grows

theorem freeAbove {m : MemoryBackend} (kept : m.Kept) {q : Int} (above : m.counter.highest < q) :
    (m.tree d).get? q = none :=
  (RevisionTree.sameForestChosen (m.grown d)).absent (kept.noneAbove above)

theorem grownFits {m : MemoryBackend} {r : Revision} (fits : (m.tree d).Fits r) :
    (m.grown d).Fits r :=
  (RevisionTree.sameForestChosen (m.grown d)).symm.fits fits

inductive ChildInsert (b : FaultyBackend) (d : DocumentId) (draft : Except DocumentError Revision)
    (isRoot : Bool) :
    Except DocumentError (RevisionTree × InsertReport) × FaultyBackend → Prop where
  | refused {e : DocumentError} (bad : draft = .error e) :
      ChildInsert b d draft isRoot (.error e, b)
  | stalled {r : Revision} {cause : StoreError} {b' : FaultyBackend} (drafted : draft = .ok r)
      (steady : b'.Steady) (idle : b.memory.Idle b'.memory) :
      ChildInsert b d draft isRoot (.error (.storage cause), b')
  | stored {r : Revision} {b' : FaultyBackend} (drafted : draft = .ok r) (steady : b'.Steady)
      (extended : b.memory.Extends b'.memory d [b.memory.numbered r])
      (tree : b'.memory.tree d =
        ((b.memory.tree d).link (b.memory.numbered r)).chooseWinner)
      (fits : (b.memory.tree d).Fits (b.memory.numbered r)) :
      ChildInsert b d draft isRoot
        (.ok (b'.memory.tree d, (b.memory.tree d).childReport isRoot (b.memory.numbered r)), b')

theorem Steady.insertChild (steady : b.Steady) (kept : b.memory.Kept) (known : b.memory.Knows d)
    {parent : Option Int} (holds : (b.memory.tree d).Holds parent) (digest : ContentDigest)
    (body : DocumentBody) (attachments : AttachmentMap) (deleted : Bool) :
    ChildInsert b d ((b.memory.tree d).draft digest parent body attachments deleted)
      parent.isNone
      ((b.memory.tree d).insertChild digest Backend.commit parent body attachments deleted b) := by
  unfold RevisionTree.insertChild
  cases drafted : (b.memory.tree d).draft digest parent body attachments deleted with
  | error e => exact .refused rfl
  | ok r =>
    obtain ⟨shape, _, _⟩ := RevisionTree.draftOk drafted
    obtain ⟨new, full⟩ := RevisionTree.draftUncommitted drafted
    have own : (b.memory.numbered r).document = d :=
      (congrArg Revision.document shape).trans (kept.document d)
    have plain : (b.memory.numbered r).Plain (b.memory.keyOf d) := by
      obtain ⟨key, current, dirty, full⟩ := RevisionTree.draftPlain drafted
      exact ⟨key.trans (kept.key d), current, dirty, full⟩
    have next : b.memory.counter.highest < b.memory.counter.highest + 1 := lt_add_one _
    have fits : (b.memory.tree d).Fits (b.memory.numbered r) :=
      RevisionTree.draftFits drafted holds (by have := kept.counted; omega)
        (freeAbove kept next)
    have committed := steady.commits kept.held new full
    dsimp only
    rw [Commit.runNew _ new]
    generalize Backend.commit r b = asked at committed
    cases committed with
    | stalled steady idle => exact .stalled rfl steady idle
    | @stored b' steady memory =>
      have extended : b.memory.Extends b'.memory d [b.memory.numbered r] := by
        rw [memory]
        exact own ▸ kept.extendsAppend rfl (own.symm ▸ known) (own.symm ▸ grownFits fits)
          (own.symm ▸ plain)
      obtain ⟨grown, grows, tree⟩ := growsTree kept extended
      rw [RevisionTree.growsFold grows, List.foldl_cons, List.foldl_nil] at tree
      have placed := RevisionTree.placeFits fits parent.isNone
      simp only [Except.map, Option.getD_some]
      have numbered : ({ r with sequence := b.memory.counter.highest + 1 } : Revision) =
        b.memory.numbered r := rfl
      rw [numbered, placed, ← tree]
      exact .stored rfl steady extended tree fits

theorem planForeignRecoverable {t : RevisionTree} {r : Revision} {history : List RevisionId}
    {e : DocumentError} (refused : t.planForeign r history = .error e) : e.Recoverable := by
  unfold RevisionTree.planForeign at refused
  split at refused
  · cases refused
    exact fun cause same => by cases same
  · split at refused
    · cases refused
      exact fun cause same => by cases same
    · cases checked : t.validateHistory r.id history with
      | error bad =>
        rw [checked] at refused
        cases refused
        unfold RevisionTree.validateHistory at checked
        intro cause same
        subst same
        split at checked
        · cases checked
        · split at checked
          · cases checked
          · split at checked <;> cases checked
      | ok path =>
        simp only [checked, bind, Except.bind] at refused
        split at refused <;> cases refused

theorem placedLength {parent : Int} {chain : List Revision} {qs : List Int}
    (length : qs.length = chain.length) :
    (RevisionTree.placed parent chain qs).length = chain.length := by
  have ids : (RevisionTree.placed parent chain qs).map (·.id) = chain.map (·.id) :=
    RevisionTree.placedIds length
  simpa using congrArg List.length ids

def firstOf (b : FaultyBackend) (parent : Int) (chain : List Revision) (n : Nat) :
    List Revision :=
  RevisionTree.placed parent (chain.take n) (following b.memory.counter.highest n)

theorem memFirst {x : Revision} {parent : Int} {chain : List Revision} {n : Nat}
    (member : x ∈ b.firstOf parent chain n) :
    ∃ r ∈ chain.take n, ∃ above q, x = { r with parent := above, sequence := q } :=
  RevisionTree.memPlaced member

theorem lengthFirst (b : FaultyBackend) (parent : Int) {chain : List Revision} {n : Nat}
    (short : n ≤ chain.length) : (b.firstOf parent chain n).length = n := by
  have length : (following b.memory.counter.highest n).length = (chain.take n).length := by
    rw [lengthFollowing, List.length_take, min_eq_left short]
  unfold firstOf
  rw [placedLength length, List.length_take, min_eq_left short]

theorem firstWhole (b : FaultyBackend) (parent : Int) (chain : List Revision) :
    b.firstOf parent chain chain.length =
      RevisionTree.placed parent chain (following b.memory.counter.highest chain.length) := by
  unfold firstOf
  rw [List.take_length]

theorem firstNext (next : b'.memory.counter.highest = b.memory.counter.highest + 1) (parent : Int)
    (r : Revision) (rest : List Revision) (n : Nat) :
    b.firstOf parent (r :: rest) (n + 1) = b.memory.numbered { r with parent } ::
      b'.firstOf (b.memory.counter.highest + 1) rest n := by
  unfold firstOf
  rw [List.take_succ_cons, following, next]
  rfl

theorem storedNext {r : Revision} (memory : b'.memory = b.memory.append (b.memory.numbered r)) :
    b.memory.Files [b.memory.numbered r] b'.memory ∧
      b'.memory.counter.highest = b.memory.counter.highest + 1 ∧
      b'.memory.keys = b.memory.keys := by
  rw [memory]
  exact ⟨.single rfl, rfl, rfl⟩

inductive ChainFiled (b : FaultyBackend) (parent : Int) (chain : List Revision) :
    Except DocumentError (List Revision) × FaultyBackend → Prop where
  | stalled {n : Nat} {cause : StoreError} {b' : FaultyBackend} (short : n < chain.length)
      (steady : b'.Steady) (keys : b'.memory.keys = b.memory.keys)
      (files : b.memory.Files (b.firstOf parent chain n) b'.memory) :
      ChainFiled b parent chain (.error (.storage cause), b')
  | stored {b' : FaultyBackend} (steady : b'.Steady) (keys : b'.memory.keys = b.memory.keys)
      (files : b.memory.Files (b.firstOf parent chain chain.length) b'.memory) :
      ChainFiled b parent chain (.ok (b.firstOf parent chain chain.length), b')

theorem Steady.filesChain (t : RevisionTree) (parent : Int) {chain : List Revision}
    (steady : b.Steady) (held : b.memory.Held)
    (asked : ∀ x ∈ chain, ∀ parent, { x with parent }.Uncommitted) :
    ChainFiled b parent chain (t.commitChain Backend.commit parent chain b) := by
  induction chain generalizing b parent with
  | nil => exact .stored steady rfl (.refl _)
  | cons r rest ih =>
    obtain ⟨here, others⟩ := List.forall_mem_cons.mp asked
    obtain ⟨new, full⟩ := here parent
    have committed := steady.commits held new full
    unfold RevisionTree.commitChain
    rw [Commit.runNew _ new]
    generalize Backend.commit { r with parent } b = ran at committed
    cases committed with
    | stalled steady idle =>
      obtain ⟨failNext, same⟩ := idle
      have keys := congrArg MemoryBackend.keys same
      exact .stalled (n := 0) (Nat.succ_pos _) steady keys (.idle ⟨failNext, same⟩)
    | @stored b' after memory =>
      obtain ⟨single, next, keys⟩ := storedNext memory
      have positive : 0 < b.memory.counter.highest + 1 := Int.lt_add_one_of_le held.counted
      have sequenced : (b.memory.numbered { r with parent }).isSequenced = true :=
        decide_eq_true positive
      have same : ({ r with parent, sequence := b.memory.counter.highest + 1 } : Revision) =
        b.memory.numbered { r with parent } := rfl
      have committed := ih (b.memory.counter.highest + 1) after (single.held held) others
      simp only [Except.map, Option.getD_some]
      rw [same, if_pos sequenced]
      generalize t.commitChain Backend.commit (b.memory.counter.highest + 1) rest b' = ran
        at committed
      cases committed with
      | stalled short steady keys' files =>
        refine .stalled (Nat.succ_lt_succ short) steady (keys'.trans keys) ?_
        rw [firstNext next]
        exact single.trans files
      | stored steady keys' files =>
        dsimp only
        rw [← firstNext next]
        refine .stored steady (keys'.trans keys) ?_
        rw [List.length_cons, firstNext next]
        exact single.trans files

inductive ChainCommit (b : FaultyBackend) (d : DocumentId) (parent : Int) (chain : List Revision) :
    Except DocumentError (List Revision) × FaultyBackend → Prop where
  | stalled {cause : StoreError} {b' : FaultyBackend} {front : List Revision} (steady : b'.Steady)
      (extended : b.memory.Extends b'.memory d front) :
      ChainCommit b d parent chain (.error (.storage cause), b')
  | stored {b' : FaultyBackend} (qs : List Int) (steady : b'.Steady)
      (length : qs.length = chain.length)
      (extended : b.memory.Extends b'.memory d (RevisionTree.placed parent chain qs)) :
      ChainCommit b d parent chain (.ok (RevisionTree.placed parent chain qs), b')

theorem Steady.commitChain (t : RevisionTree) {parent : Int} {chain : List Revision}
    (steady : b.Steady) (kept : b.memory.Kept) (known : b.memory.Knows d)
    (staged : (b.memory.grown d).Staged parent chain)
    (asked : ∀ x ∈ chain, ∀ parent, { x with parent }.Uncommitted)
    (plain : ∀ x ∈ chain, x.Plain (b.memory.keyOf d)) :
    ChainCommit b d parent chain (t.commitChain Backend.commit parent chain b) := by
  have stored (n : Nat) : ∀ x ∈ b.firstOf parent chain n, x.Plain (b.memory.keyOf d) := by
    intro x member
    obtain ⟨r, inside, _, _, rfl⟩ := memFirst member
    obtain ⟨key, current, dirty, full⟩ := plain r (List.mem_of_mem_take inside)
    exact ⟨key, current, dirty, full⟩
  have filed := steady.filesChain t parent kept.held asked
  generalize t.commitChain Backend.commit parent chain b = ran at filed
  cases filed with
  | @stalled n _ _ short steady keys files =>
    obtain ⟨grown, grows⟩ := kept.stagedGrows (staged.take n) (List.length_take_of_le short.le)
    exact .stalled steady (files.extends keys kept known grows (stored n))
  | stored steady keys files =>
    obtain ⟨grown, grows⟩ := kept.stagedGrows staged rfl
    have plain := stored chain.length
    rw [firstWhole] at files plain ⊢
    exact .stored _ steady (lengthFollowing _ _) (files.extends keys kept known grows plain)

theorem Steady.commitPlan (steady : b.Steady) (kept : b.memory.Kept) (known : b.memory.Knows d)
    {r : Revision} {history : List RevisionId} {parent : Option Int} {chain : List Revision}
    (plan : (b.memory.tree d).planForeign r history = .ok (.missing parent chain)) :
    ChainCommit b d (parent.getD noParent) chain
      ((b.memory.tree d).commitChain Backend.commit (parent.getD noParent) chain b) := by
  obtain ⟨_, _, descends, shape⟩ := RevisionTree.planForeignIff.mp plan
  have staged : (b.memory.grown d).Staged (parent.getD noParent) chain :=
    (RevisionTree.planStaged (kept.wellFormed d) descends shape.symm).unchosen
  exact steady.commitChain (b.memory.tree d) kept known staged
    (fun x member => RevisionTree.planUncommitted plan member)
    fun x member => kept.key d ▸ RevisionTree.planPlain plan member

inductive ForeignCommit (b : FaultyBackend) (d : DocumentId)
    (plan : Except DocumentError RevisionTree.ForeignPlan) :
    Except DocumentError (RevisionTree × ForeignInsert) × FaultyBackend → Prop where
  | refused {e : DocumentError} (bad : plan = .error e) : ForeignCommit b d plan (.error e, b)
  | present {q : Int} (known : plan = .ok (.present q)) :
      ForeignCommit b d plan (.ok (b.memory.tree d, .alreadyPresent q), b)
  | stalled {cause : StoreError} {b' : FaultyBackend} {front : List Revision} (steady : b'.Steady)
      (extended : b.memory.Extends b'.memory d front) :
      ForeignCommit b d plan (.error (.storage cause), b')
  | stored {known : Option Int} {chain done : List Revision} {report : InsertReport}
      {b' : FaultyBackend} (missing : plan = .ok (.missing known chain)) (steady : b'.Steady)
      (length : done.length = chain.length) (extended : b.memory.Extends b'.memory d done) :
      ForeignCommit b d plan (.ok (b'.memory.tree d, .inserted report), b')

theorem Steady.insertForeign (steady : b.Steady) (kept : b.memory.Kept) (known : b.memory.Knows d)
    (r : Revision) (history : List RevisionId) :
    ForeignCommit b d ((b.memory.tree d).planForeign r history)
      ((b.memory.tree d).insertForeign Backend.commit r history b) := by
  unfold RevisionTree.insertForeign
  cases plan : (b.memory.tree d).planForeign r history with
  | error e => exact .refused rfl
  | ok wanted =>
    cases wanted with
    | present q => exact .present rfl
    | missing parent chain =>
      have committed := steady.commitPlan kept known plan
      dsimp only
      generalize (b.memory.tree d).commitChain Backend.commit (parent.getD noParent) chain b = asked
        at committed
      cases committed with
      | stalled steady extended => exact .stalled steady extended
      | stored qs steady length extended =>
        obtain ⟨grown, grows, tree⟩ := growsTree kept extended
        simp only [RevisionTree.placeChainGrows parent grows, Except.map]
        rw [← tree]
        exact .stored rfl steady (placedLength length) extended

end FaultyBackend
end RevForest
