import RevForest.Proofs.Store.Ledger
import RevForest.Proofs.Store.Rebuild

/-! Foreign inserts that an allocation stops. The chain is committed one revision at a time,
the oldest first, and nothing takes back what was committed before the failure: that part
of the ancestors stays stored, and the tree that is built again has its last one as a
leaf. Only where the first allocation failed is the document as it was. -/
namespace RevForest

theorem DocumentError.recoverableOrStorage (e : DocumentError) :
    e.Recoverable ∨ ∃ cause, e = .storage cause := by
  cases e with
  | storage cause => exact .inr ⟨cause, rfl⟩
  | _ => exact .inl fun cause same => by cases same

namespace RevisionTree
variable {t : RevisionTree}

theorem checkChainRecoverable {known : Dict Int Nat} {chain : List Revision} {e : DocumentError}
    (refused : t.checkChain known chain = .error e) : e.Recoverable := by
  induction chain generalizing known with
  | nil => cases refused
  | cons r rest ih =>
    rcases bindError refused with bad | ⟨_, later⟩
    · exact checkLinkRecoverable bad
    · exact ih later

theorem placeChainRecoverable {isRoot : Bool} {chain : List Revision} {e : DocumentError}
    (refused : t.placeChain isRoot chain = .error e) : e.Recoverable := by
  rcases bindError refused with bad | ⟨_, ⟨⟩⟩
  exact checkChainRecoverable bad

theorem Cut.placeholder {r x : Revision} {path missing rest : List RevisionId}
    {known : Option Int} {chain : List Revision} (cut : t.Cut r path missing rest known chain)
    {n : Nat} (short : n < chain.length) (member : x ∈ chain.take n) :
    ∃ id ∈ missing, x = t.stub id := by
  rw [cut.chain] at member short
  have front : n ≤ (missing.reverse.map t.stub).length := by
    rw [List.length_append] at short
    exact Nat.lt_succ_iff.mp short
  rw [List.take_append_of_le_length front] at member
  obtain ⟨id, inside, rfl⟩ := List.mem_map.mp (List.mem_of_mem_take member)
  exact ⟨id, List.mem_reverse.mp inside, rfl⟩

theorem Cut.ancestor {r : Revision} {path missing rest : List RevisionId} {known : Option Int}
    {chain : List Revision} (cut : t.Cut r path missing rest known chain)
    (descends : Descends r.id path) {id : RevisionId} (member : id ∈ missing) : id ≠ r.id := by
  have steps := descends.2
  rw [cut.whole, List.cons_append] at steps
  have falling : (r.id :: (missing ++ rest)).IsChain fun a b => b.generation < a.generation :=
    steps.imp fun a b next => by omega
  have below := (List.pairwise_cons.mp falling.pairwise).1 id (List.mem_append_left _ member)
  rintro rfl
  exact lt_irrefl _ below

theorem lastLeaf {grown : RevisionTree} {chain : List Revision} {x : Revision}
    (grows : Grows t chain grown) (last : chain.getLast? = some x) :
    ∃ y, grown.chooseWinner.LeafAt x.sequence y ∧ y.id = x.id := by
  obtain ⟨front, rfl⟩ := List.getLast?_eq_some_iff.mp last
  obtain ⟨u, _, later⟩ := growsAppend.mp grows
  cases later with
  | cons fits next =>
    cases next
    exact ⟨_, leafChosen.mpr ⟨_, (leafLink fits).mpr (.inl ⟨rfl, rfl⟩), rfl⟩, rfl⟩

end RevisionTree

namespace FaultyBackend
variable {b : FaultyBackend}

inductive ForeignFiled (b : FaultyBackend) (plan : Except DocumentError RevisionTree.ForeignPlan) :
    Except DocumentError (RevisionTree × ForeignInsert) × FaultyBackend → Prop where
  | nothing {result : Except DocumentError (RevisionTree × ForeignInsert)}
      (plain : ∀ cause, result ≠ .error (.storage cause)) : ForeignFiled b plan (result, b)
  | stalled {known : Option Int} {chain : List Revision} {n : Nat} {cause : StoreError}
      {b' : FaultyBackend} (missing : plan = .ok (.missing known chain)) (short : n < chain.length)
      (steady : b'.Steady) (keys : b'.memory.keys = b.memory.keys)
      (files : b.memory.Files (b.firstOf (known.getD noParent) chain n) b'.memory) :
      ForeignFiled b plan (.error (.storage cause), b')
  | stored {known : Option Int} {chain : List Revision} {b' : FaultyBackend}
      {result : Except DocumentError (RevisionTree × ForeignInsert)}
      (missing : plan = .ok (.missing known chain))
      (plain : ∀ cause, result ≠ .error (.storage cause))
      (files : b.memory.Files (b.firstOf (known.getD noParent) chain chain.length) b'.memory) :
      ForeignFiled b plan (result, b')

theorem Steady.filesForeign (t : RevisionTree) (steady : b.Steady) (held : b.memory.Held)
    (r : Revision) (history : List RevisionId) :
    ForeignFiled b (t.planForeign r history) (t.insertForeign Backend.commit r history b) := by
  unfold RevisionTree.insertForeign
  cases plan : t.planForeign r history with
  | error e =>
    have plain := planForeignRecoverable plan
    exact .nothing fun cause same => plain cause (Except.error.inj same)
  | ok wanted =>
    cases wanted with
    | present q => exact .nothing fun cause same => by cases same
    | missing known chain =>
      have committed := steady.filesChain t (known.getD noParent) held
        fun x member => RevisionTree.planUncommitted plan member
      dsimp only
      generalize t.commitChain Backend.commit (known.getD noParent) chain b = ran at committed
      cases committed with
      | stalled short steady keys files => exact .stalled rfl short steady keys files
      | stored steady keys files =>
        refine .stored rfl ?_ files
        intro cause same
        generalize b.firstOf (known.getD noParent) chain chain.length = done at same
        cases placed : t.placeChain known.isNone done with
        | ok whole =>
          rw [placed] at same
          cases same
        | error e =>
          rw [placed] at same
          exact RevisionTree.placeChainRecoverable placed cause (Except.error.inj same)

end FaultyBackend

namespace Datastore
variable {s s' : Datastore FaultyBackend} {r : Revision} {history : List RevisionId}

inductive Forced (s : Datastore FaultyBackend) (r : Revision) (history : List RevisionId) :
    Outcome FaultyBackend ForeignInsert → Prop where
  | nothing {o : Outcome FaultyBackend ForeignInsert}
      (files : s.backend.memory.Files [] o.2.backend.memory)
      (plain : ∀ cause, o.1 ≠ .error (.storage cause)) : Forced s r history o
  | stalled {t : RevisionTree} {u after : Datastore FaultyBackend} {known : Option Int}
      {chain : List Revision} {n : Nat} {cause : StoreError} {b : FaultyBackend}
      (had : s.treeOf r.document true = (.ok t, u))
      (missing : t.planForeign r history = .ok (.missing known chain)) (short : n < chain.length)
      (wrote : u.Wrote after b) (steady : b.Steady)
      (keys : b.memory.keys = u.backend.memory.keys)
      (files : u.backend.memory.Files (u.backend.firstOf (known.getD noParent) chain n) b.memory) :
      Forced s r history (.error (.storage cause), after.settle t (.storage cause))
  | stored {t : RevisionTree} {u : Datastore FaultyBackend} {known : Option Int}
      {chain : List Revision} {o : Outcome FaultyBackend ForeignInsert}
      (had : s.treeOf r.document true = (.ok t, u))
      (missing : t.planForeign r history = .ok (.missing known chain))
      (plain : ∀ cause, o.1 ≠ .error (.storage cause))
      (files : u.backend.memory.Files
        (u.backend.firstOf (known.getD noParent) chain chain.length) o.2.backend.memory) :
      Forced s r history o

theorem filedHad {t : RevisionTree} {u : Datastore FaultyBackend} {d : DocumentId} {create : Bool}
    (steady : s.backend.Steady) (held : s.backend.memory.Held)
    (had : s.treeOf d create = (.ok t, u)) : s.Filed [] u := by
  have filed := (Filed.refl steady held).treeOf d create
  rwa [had] at filed

theorem Filed.stalled {u after : Datastore FaultyBackend} {b : FaultyBackend}
    {front : List Revision} (filed : s.Filed [] u) (wrote : u.Wrote after b) (steady : b.Steady)
    (files : u.backend.memory.Files front b.memory) (t : RevisionTree) (cause : StoreError) :
    s.backend.memory.Files front (after.settle t (.storage cause)).backend.memory := by
  have settled := (Filed.refl (wrote.backend ▸ steady)
    (wrote.backend ▸ files.held filed.held)).settle t (.storage cause)
  have both := (filed.files.trans files).trans (wrote.backend ▸ settled.files)
  rwa [List.nil_append, List.append_nil] at both

theorem forcedPlain {t : RevisionTree} {u : Datastore FaultyBackend} {b' : FaultyBackend}
    {result : Except DocumentError (RevisionTree × ForeignInsert)}
    (had : s.treeOf r.document true = (.ok t, u))
    (files : s.backend.memory.Files [] u.backend.memory)
    (foreign : FaultyBackend.ForeignFiled u.backend (t.planForeign r history) (result, b'))
    (unstopped : ∀ cause, result ≠ .error (.storage cause))
    {o : Outcome FaultyBackend ForeignInsert} (backend : o.2.backend = b')
    (plain : ∀ cause, o.1 ≠ .error (.storage cause)) : Forced s r history o := by
  cases foreign with
  | nothing => exact .nothing (backend ▸ files) plain
  | stalled => exact absurd rfl (unstopped _)
  | stored missing _ more => exact .stored had missing plain (backend ▸ more)

theorem forcedStopped {t : RevisionTree} {u after : Datastore FaultyBackend} {b : FaultyBackend}
    {cause : StoreError} (had : s.treeOf r.document true = (.ok t, u)) (wrote : u.Wrote after b)
    (foreign : FaultyBackend.ForeignFiled u.backend (t.planForeign r history)
      (.error (.storage cause), b)) :
    Forced s r history (.error (.storage cause), after.settle t (.storage cause)) := by
  cases foreign with
  | nothing plain => exact absurd rfl (plain cause)
  | stalled missing short steady keys files =>
    exact .stalled had missing short wrote steady keys files
  | stored missing plain files => exact absurd rfl (plain cause)

theorem forced (steady : s.backend.Steady) (held : s.backend.memory.Held) (r : Revision)
    (history : List RevisionId) : Forced s r history (s.forceInsert r history) := by
  have filed := (Filed.refl steady held).treeOf r.document true
  have had := hadTree steady r.document
  unfold Datastore.forceInsert
  dsimp only
  split
  · exact .nothing (.refl _) fun cause same => by cases same
  · generalize got : s.treeOf r.document true = o at filed had
    obtain ⟨answer, u⟩ := o
    cases answer with
    | error e =>
      cases had with
      | failed plain =>
        exact .nothing filed.files fun cause same => plain cause (Except.error.inj same)
    | ok t =>
      rw [okThen]
      have foreign := filed.steady.filesForeign t filed.held r history
      rw [← commitFollows.insertForeign t r history u] at foreign
      have spared := commitSpares.insertForeign t r history u
      generalize t.insertForeign commit r history u = ran at foreign spared
      obtain ⟨result, after⟩ := ran
      have wrote : u.Wrote after after.backend := Datastore.wrote spared rfl
      have foreign : FaultyBackend.ForeignFiled u.backend (t.planForeign r history)
        (result, after.backend) := foreign
      match result, foreign with
      | .ok (grown, .alreadyPresent q), foreign =>
        exact forcedPlain got filed.files foreign (fun cause same => by cases same) rfl
          fun cause same => by cases same
      | .ok (grown, .inserted report), foreign =>
        refine forcedPlain got filed.files foreign (fun cause same => by cases same) ?_
          fun cause same => by cases same
        refine Eq.trans ?_ (keepTreeBackend after grown)
        exact (Quiet.changed _ (by decide) _ _ _ _ _).backend
      | .error e, foreign =>
        rcases e.recoverableOrStorage with plain | ⟨cause, rfl⟩
        · refine forcedPlain got filed.files foreign ?_ (settleRecoverable after t plain).backend ?_
          · exact fun cause same => plain cause (Except.error.inj same)
          · exact fun cause same => plain cause (Except.error.inj same)
        · exact forcedStopped got wrote foreign

def UpToDate (s : Datastore FaultyBackend) (d : DocumentId) : Prop :=
  ∀ t, s.cache.find? d = some t → s.backend.memory.Built d t

/-- What a foreign insert leaves that a failed allocation stopped: the document has some of the
missing ancestors, the oldest first, and the last of these is a leaf. -/
structure Interrupted (s s' : Datastore FaultyBackend) (r : Revision) (t : RevisionTree)
    (known : Option Int) (chain front : List Revision) : Prop where
  short : front.length < chain.length
  placed : front = s.backend.firstOf (known.getD noParent) chain front.length
  placeholders : ∀ x ∈ front, x.id ≠ r.id ∧ t.sequenceOf? x.id.text = none ∧
    x.content = (false, .empty, .empty)
  stored : s'.backend.memory.revisionsOf r.document =
    s.backend.memory.revisionsOf r.document ++ front
  others : ∀ e, e ≠ r.document →
    s'.backend.memory.revisionsOf e = s.backend.memory.revisionsOf e
  before : ∀ {α : Type} document (read : DocumentId → RevisionTree → Except DocumentError α),
    DocumentId.parse document = .ok r.document → Blind read →
      (s.readTree document read).1 = read r.document t
  after : s.UpToDate r.document → ∃ after,
    (∀ {α : Type} document (read : DocumentId → RevisionTree → Except DocumentError α),
      DocumentId.parse document = .ok r.document →
        (s'.readTree document read).1 = read r.document after) ∧
      (front = [] → after = t) ∧
      ∀ x, front.getLast? = some x → ∃ y, after.LeafAt x.sequence y ∧ y.id = x.id

theorem firstDocument {t : RevisionTree} {known : Option Int} {chain : List Revision} {n : Nat}
    {parent : Int} {b : FaultyBackend} {x : Revision}
    (missing : t.planForeign r history = .ok (.missing known chain))
    (member : x ∈ b.firstOf parent chain n) : x.document = r.document := by
  obtain ⟨_, own, descends, shape⟩ := RevisionTree.planForeignIff.mp missing
  obtain ⟨_, _, cut⟩ := RevisionTree.planCut descends.1 shape.symm
  obtain ⟨y, inside, _, _, rfl⟩ := FaultyBackend.memFirst member
  have staged : y ∈ chain := List.mem_of_mem_take inside
  rw [cut.chain] at staged
  rw [own]
  rcases RevisionTree.memStaged.mp staged with ⟨id, _, rfl⟩ | rfl <;> rfl

theorem firstPlaceholder {t : RevisionTree} {known : Option Int} {chain : List Revision} {n : Nat}
    {parent : Int} {b : FaultyBackend} {x : Revision}
    (missing : t.planForeign r history = .ok (.missing known chain)) (short : n < chain.length)
    (member : x ∈ b.firstOf parent chain n) : x.id ≠ r.id ∧ t.sequenceOf? x.id.text = none ∧
      x.content = (false, .empty, .empty) := by
  obtain ⟨_, _, descends, shape⟩ := RevisionTree.planForeignIff.mp missing
  obtain ⟨_, _, cut⟩ := RevisionTree.planCut descends.1 shape.symm
  obtain ⟨y, inside, _, _, rfl⟩ := FaultyBackend.memFirst member
  obtain ⟨id, ancestor, rfl⟩ := cut.placeholder short inside
  exact ⟨cut.ancestor descends ancestor, cut.unknown id (List.mem_cons_of_mem _ ancestor), rfl⟩

theorem UpToDate.had {t : RevisionTree} {u : Datastore FaultyBackend} {d : DocumentId}
    (upToDate : s.UpToDate d) (steady : s.backend.Steady) (had : s.treeOf d true = (.ok t, u)) :
    u.backend.memory.Built d t ∧ u.cache.find? d = some t := by
  have fetched := hadTree steady d
  rw [had] at fetched
  cases fetched with
  | cached found => exact ⟨upToDate t found, found⟩
  | built absent built backend cached =>
    refine ⟨?_, cached⟩
    rw [backend]
    exact built.know

theorem stalledTree {t : RevisionTree} {u after : Datastore FaultyBackend} {known : Option Int}
    {chain : List Revision} {n : Nat} {b : FaultyBackend}
    (built : u.backend.memory.Built r.document t) (held : u.backend.memory.Held)
    (cached : u.cache.find? r.document = some t)
    (missing : t.planForeign r history = .ok (.missing known chain)) (short : n < chain.length)
    (wrote : u.Wrote after b) (steady : b.Steady) (keys : b.memory.keys = u.backend.memory.keys)
    (files : u.backend.memory.Files (u.backend.firstOf (known.getD noParent) chain n) b.memory)
    (cause : StoreError) :
    ∃ grown, RevisionTree.Grows t (u.backend.firstOf (known.getD noParent) chain n) grown ∧
      (after.settle t (.storage cause)).cache.find? r.document = some grown.chooseWinner := by
  obtain ⟨wf, document, key⟩ := built.wellFormed
  obtain ⟨_, _, descends, shape⟩ := RevisionTree.planForeignIff.mp missing
  have staged := (RevisionTree.planStaged wf descends shape.symm).take n
  have own : b.memory.revisionsOf r.document = u.backend.memory.revisionsOf r.document ++
      u.backend.firstOf (known.getD noParent) chain n := by
    rw [files.revisionsOf held, List.filter_eq_self.mpr]
    intro x member
    exact decide_eq_true (firstDocument missing member)
  have sameKey : (b.memory.documentKey r.document).1 =
      (u.backend.memory.documentKey r.document).1 := by
    unfold MemoryBackend.documentKey
    rw [keys]
    split <;> rfl
  obtain ⟨grown, grows, builds⟩ :=
    built.append held files own sameKey staged (List.length_take_of_le short.le)
  obtain ⟨_, _, sameGrown⟩ := builds.wellFormed
  have there : after.cache.find? t.document = some t := by rw [wrote.cache, document, cached]
  have builds : after.backend.memory.Built t.document grown.chooseWinner := by
    rwa [wrote.backend, document]
  have settled := settleBuilt (wrote.backend ▸ steady) builds (by rw [sameGrown, sameKey, key])
    there cause
  exact ⟨grown, grows, document ▸ settled⟩

/-- A foreign insert that fails in the storage leaves the ancestors that were committed before, and
the document is as it was only where there are none. -/
theorem forceInsertInterrupted (steady : s.backend.Steady) (written : s.backend.memory.Written)
    {cause : StoreError} (failed : s.forceInsert r history = (.error (.storage cause), s')) :
    ∃ t known chain front, t.planForeign r history = .ok (.missing known chain) ∧
      s.Interrupted s' r t known chain front := by
  have held := written.held
  have forced := forced steady held r history
  rw [failed] at forced
  cases forced with
  | nothing files plain => exact absurd rfl (plain cause)
  | stored had missing plain files => exact absurd rfl (plain cause)
  | @stalled t u after known chain n _ b had missing short wrote steady' keys files =>
    have filed := filedHad steady held had
    have counted : u.backend.memory.counter.highest = s.backend.memory.counter.highest := by
      simpa using filed.files.counter
    have whole := filed.stalled wrote steady' files t cause
    have length := u.backend.lengthFirst (known.getD noParent) short.le
    refine ⟨t, known, chain, u.backend.firstOf (known.getD noParent) chain n, missing, ?_⟩
    constructor
    case short => rwa [length]
    case placed =>
      rw [length]
      unfold FaultyBackend.firstOf
      rw [counted]
    case placeholders => exact fun x member => firstPlaceholder missing short member
    case stored =>
      rw [whole.revisionsOf held, List.filter_eq_self.mpr]
      exact fun x member => decide_eq_true (firstDocument missing member)
    case others =>
      intro e other
      rw [whole.revisionsOf held, List.filter_eq_nil_iff.mpr, List.append_nil]
      intro x member
      rw [firstDocument missing member]
      simpa using other.symm
    case before => exact fun document read parsed blind => readHad parsed blind steady had
    case after =>
      intro upToDate
      obtain ⟨built, cached⟩ := upToDate.had steady had
      obtain ⟨grown, grows, kept⟩ :=
        stalledTree built filed.held cached missing short wrote steady' keys files cause
      refine ⟨grown.chooseWinner, fun document read parsed => readCached parsed read kept, ?_, ?_⟩
      · intro nothing
        rw [nothing] at grows
        cases grows
        exact built.chosen
      · exact fun x last => RevisionTree.lastLeaf grows last

namespace Sample

def elsewhere : Revision := { root with document := ⟨"e", by decide⟩, sequence := maxSequence - 1 }

def nearlyFull : MemoryBackend := (MemoryBackend.empty.persist elsewhere).toOption.getD .empty

theorem nearlyFullWritten : nearlyFull.Written := .persist .empty (r := elsewhere) rfl

-- A store that has one sequence left.
def ending : Datastore FaultyBackend := { store 2 with backend := .ofMemory nearlyFull }

theorem endingSteady : ending.backend.Steady := ⟨fun _ _ => rfl, fun q member => by cases member⟩

-- A child that comes with its root needs two.
def stopped : Outcome FaultyBackend ForeignInsert :=
  ending.forceInsert (RevisionTree.Sample.delivered RevisionTree.Sample.child)
    [RevisionTree.Sample.child, RevisionTree.Sample.root]

def exhausted : StoreError := .sequenceAllocation "sequence space exhausted"

end Sample

/-- The root of a chain that was not taken over is stored, and it is what the document shows. -/
theorem interruptedRootServed :
    Sample.ending.backend.memory.Written ∧ Sample.stopped.1 = .error (.storage Sample.exhausted) ∧
      Sample.ending.backend.memory.revisionsOf Sample.tracked = [] ∧
      (Sample.ending.leaves "d").1.toOption.map List.length = some 0 ∧
      (Sample.ending.getDocument "d").1.isOk = false ∧
      (Sample.stopped.2.backend.memory.revisionsOf Sample.tracked).map
        (fun x => (x.id.text, x.sequence)) = [("1-a", maxSequence)] ∧
      (Sample.stopped.2.leaves "d").1.toOption.map (List.map (·.id.text)) = some ["1-a"] ∧
      (Sample.stopped.2.getDocument "d").1.toOption.map (·.id.text) = some "1-a" :=
  ⟨Sample.nearlyFullWritten, by decide +kernel, by decide +kernel, by decide +kernel,
    by decide +kernel, by decide +kernel, by decide +kernel, by decide +kernel⟩

theorem childInterrupted :
    ∃ t known chain front, front ≠ [] ∧ Sample.ending.Interrupted Sample.stopped.2
      (RevisionTree.Sample.delivered RevisionTree.Sample.child) t known chain front := by
  have failed : Sample.stopped.1 = .error (.storage Sample.exhausted) := by decide +kernel
  obtain ⟨t, known, chain, front, _, interrupted⟩ := forceInsertInterrupted Sample.endingSteady
    Sample.nearlyFullWritten (Prod.ext failed rfl)
  refine ⟨t, known, chain, front, ?_, interrupted⟩
  rintro rfl
  have more : (Sample.stopped.2.backend.memory.revisionsOf Sample.tracked).length ≠
      (Sample.ending.backend.memory.revisionsOf Sample.tracked).length := by decide +kernel
  exact more (congrArg List.length (interrupted.stored.trans (List.append_nil _)))

end Datastore
end RevForest
