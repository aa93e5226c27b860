import RevForest.Proofs.Copies
import RevForest.Proofs.Store.Ledger
import RevForest.Proofs.Store.Rebuild
import RevForest.Proofs.Store.Vouched

/-! Partial bodies do not get into a store. A write refuses a projection, and so does a memory, also
one that others write to; what is stored stays, so a projection is completed at any time from
what was stored when it was made. Edits of a projection and copies of it are projections. -/
namespace RevForest

namespace MemoryBackend
variable {m m' m'' : MemoryBackend} {d : DocumentId} {id : RevisionId} {y : Revision}

inductive Call (m : MemoryBackend) : MemoryBackend → Prop where
  | persist {r : Revision} {m' : MemoryBackend} (ok : m.persist r = .ok m') : Call m m'
  | nextSequence : Call m m.nextSequence.2
  | documentKey (d : DocumentId) : Call m (m.documentKey d).2
  | failNext : Call m m.failNextSequence

theorem Call.turn (call : m.Call m') : m.Turn m' := by
  cases call with
  | persist ok => exact persistTurn ok
  | nextSequence => exact m.nextTurn
  | documentKey d => exact m.knowTurn d
  | failNext => exact .idle rfl rfl le_rfl

structure Whole (m : MemoryBackend) : Prop where
  held : m.Held
  full : ∀ q r, m.revisions.find? q = some r → r.projection = none

theorem Blank.whole (blank : m.Blank) : m.Whole := by
  refine ⟨blank.kept.held, fun q r found => ?_⟩
  rw [blank.revisions] at found
  cases found

theorem Whole.turn (whole : m.Whole) (turn : m.Turn m') : m'.Whole := by
  refine ⟨whole.held.turn turn, fun q x found => ?_⟩
  cases turn with
  | idle revisions _ _ =>
    rw [revisions] at found
    exact whole.full q x found
  | filed r _ full revisions _ _ _ =>
    rw [revisions] at found
    replace found := (Dict.findInsert _ _ _ _).symm.trans found
    split at found
    · cases found
      exact full
    · exact whole.full q x found

theorem Blank.wholeAfter (blank : m.Blank) (calls : Relation.ReflTransGen Call m m') :
    m'.Whole := by
  induction calls with
  | refl => exact blank.whole
  | tail before call ih => exact ih.turn call.turn

structure Onward (m m' : MemoryBackend) : Prop where
  found : ∀ q r, m.revisions.find? q = some r → m'.revisions.find? q = some r
  listed : ∀ d, m.sequencesOf d <+: m'.sequencesOf d

theorem Onward.refl (m : MemoryBackend) : m.Onward m := ⟨fun _ _ => id, fun _ => List.prefix_rfl⟩

theorem Onward.trans (first : m.Onward m') (later : m'.Onward m'') : m.Onward m'' :=
  ⟨fun q r there => later.found q r (first.found q r there),
    fun d => (first.listed d).trans (later.listed d)⟩

theorem Turn.onward (turn : m.Turn m') : m.Onward m' := by
  cases turn with
  | idle revisions byDocument _ =>
    refine ⟨fun q r there => revisions ▸ there, fun d => ?_⟩
    have sequences : m'.sequencesOf d = m.sequencesOf d := by
      unfold sequencesOf
      rw [byDocument]
    exact sequences ▸ List.prefix_rfl
  | filed r free _ revisions byDocument _ _ =>
    constructor
    · intro q x there
      rw [revisions]
      refine (Dict.findInsert _ _ _ _).trans ?_
      rw [if_neg, there]
      rintro rfl
      cases free.symm.trans there
    · intro d
      have sequences : m'.sequencesOf d = (m.append r).sequencesOf d := by
        unfold sequencesOf
        rw [byDocument]
      rw [sequences, sequencesAppend]
      split
      · exact List.prefix_append _ _
      · exact List.prefix_rfl

theorem Onward.loads (onward : m.Onward m') (held : m.Held)
    (found : m.loadRevision? d id = some y) : m'.loadRevision? d id = some y := by
  have stored : m.revisionsOf d <+: m'.revisionsOf d := by
    obtain ⟨more, same⟩ := onward.listed d
    have old : m.revisionsOf d = (m.sequencesOf d).filterMap m'.revisions.find? := by
      refine List.filterMap_congr fun q listed => ?_
      obtain ⟨r, there, _⟩ := held.listed d q listed
      rw [there, onward.found q r there]
    refine ⟨more.filterMap m'.revisions.find?, ?_⟩
    rw [old, ← List.filterMap_append, same]
    rfl
  obtain ⟨more, same⟩ := stored
  unfold loadRevision? at found ⊢
  rw [← same, List.find?_append, found]
  rfl

end MemoryBackend

namespace FaultyBackend
variable {b b' : FaultyBackend} {m : MemoryBackend} {op : BackendOperation} {fault : BackendFault}

theorem takenMemory (taken : b.take op = (fault, b')) : b'.memory = b.memory := by
  unfold take at taken
  split at taken <;> cases taken <;> rfl

theorem asksTurned {α : Type} {act : FaultyBackend → Except StoreError α × FaultyBackend}
    (asks : Backend.Asks act) : b.memory.Turn (act b).2.memory := by
  have idle {op : BackendOperation} {fault : BackendFault} {b' : FaultyBackend}
      (taken : b.take op = (fault, b')) : b.memory.Turn b'.memory :=
    takenMemory taken ▸ .idle rfl rfl le_rfl
  cases asks with
  | lastSequence =>
    simp only [Backend.lastSequence]
    split <;> exact idle ‹_›
  | documentKey d =>
    simp only [Backend.documentKey]
    split
    · exact idle ‹_›
    · rename_i taken
      rw [← takenMemory taken]
      exact MemoryBackend.knowTurn _ d
  | loadRevision d id =>
    simp only [Backend.loadRevision]
    split <;> exact idle ‹_›
  | loadTree d =>
    simp only [Backend.loadTree]
    split <;> exact idle ‹_›
  | documentIds =>
    simp only [Backend.documentIds]
    split <;> exact idle ‹_›

theorem allocatesTurned (b : FaultyBackend) :
    b.memory.Turn (Backend.nextSequence b).2.memory := by
  simp only [Backend.nextSequence]
  split
  · rename_i taken
    exact takenMemory taken ▸ .idle rfl rfl le_rfl
  · rename_i taken
    exact takenMemory taken ▸ .idle rfl rfl le_rfl
  · rename_i taken
    rw [← takenMemory taken]
    exact MemoryBackend.nextTurn _

theorem persistTurned (b : FaultyBackend) (r : Revision) :
    b.memory.Turn (Backend.persist r b).2.memory := by
  have stores (b : FaultyBackend) : b.memory.Turn (b.run (Backend.persist r)).2.memory := by
    simp only [run, Backend.persist]
    cases stored : b.memory.persist r with
    | error cause => exact .idle rfl rfl le_rfl
    | ok memory => exact MemoryBackend.persistTurn stored
  simp only [Backend.persist]
  split
  · rename_i taken
    exact takenMemory taken ▸ .idle rfl rfl le_rfl
  · rename_i taken
    exact takenMemory taken ▸ .idle rfl rfl le_rfl
  · rename_i after taken
    rw [← takenMemory taken]
    have turn := stores after
    split
    · rename_i ran
      replace ran : after.run (Backend.persist r) = _ := ran
      rwa [ran] at turn
    · exact turn
  · rename_i taken
    rw [← takenMemory taken]
    exact stores _

inductive Touched (b : FaultyBackend) : FaultyBackend → Prop where
  | memory {memory : MemoryBackend} (call : b.memory.Call memory) : Touched b { b with memory }
  | allocations (outcomes : List (Option StoreError)) :
      Touched b (b.setQueue .nextSequence (outcomes.map BackendFault.ofOutcome))

structure Carries (m : MemoryBackend) (b : FaultyBackend) : Prop where
  steady : b.Steady
  whole : b.memory.Whole
  onward : m.Onward b.memory

theorem Carries.turn (carries : b.Carries m) (steady : b'.Steady)
    (turn : b.memory.Turn b'.memory) : b'.Carries m :=
  ⟨steady, carries.whole.turn turn, carries.onward.trans turn.onward⟩

theorem Touched.turn (touched : b.Touched b') (steady : b.Steady) :
    b'.Steady ∧ b.memory.Turn b'.memory := by
  cases touched with
  | memory call => exact ⟨steady.memory _, call.turn⟩
  | allocations outcomes =>
    exact ⟨Datastore.steadyAllocations steady outcomes, .idle rfl rfl le_rfl⟩

theorem Steady.asksTurn {α : Type} {act : FaultyBackend → Except StoreError α × FaultyBackend}
    (steady : b.Steady) (asks : Backend.Asks act) :
    (act b).2.Steady ∧ b.memory.Turn (act b).2.memory := by
  refine ⟨?_, asksTurned asks⟩
  rcases steady.asked asks with same | ⟨d, same⟩ <;> rw [same]
  · exact steady
  · exact steady.memory _

theorem Commits.turn {r : Revision} {answer : Answer} (commits : b.Commits r (answer, b'))
    (held : b.memory.Held) (full : r.projection = none) :
    b'.Steady ∧ b.memory.Turn b'.memory := by
  cases commits with
  | stalled steady idle =>
    obtain ⟨_, same⟩ := idle
    rw [same]
    exact ⟨steady, .idle rfl rfl le_rfl⟩
  | stored steady memory =>
    rw [memory]
    refine ⟨steady, .filed (b.memory.numbered r) (held.free (lt_add_one _)) full rfl rfl
      (le_of_lt (lt_add_one _)) le_rfl⟩

def Stored (b : FaultyBackend) (y : Revision) : Prop :=
  b.memory.revisions.find? y.sequence = some y

theorem carriesVouches (m : MemoryBackend) : Backend.Vouches (Carries m) Stored where
  asks asks carries := by
    obtain ⟨steady, turn⟩ := carries.steady.asksTurn asks
    exact carries.turn steady turn
  remains asks carries here := (carries.steady.asksTurn asks).2.onward.found _ _ here
  loaded {b b' d id y} carries ran := by
    rw [carries.steady.loadRevision] at ran
    obtain ⟨answer, rfl⟩ := Prod.mk.inj ran
    exact (carries.whole.held.stored (List.mem_of_find?_eq_some (Except.ok.inj answer))).1
  commits {b r} asked carries := by
    have committed := carries.steady.commits carries.whole.held asked.1 asked.2
    obtain ⟨steady, turn⟩ := committed.turn carries.whole.held asked.2
    exact carries.turn steady turn
  outlasts {b r y} asked carries here := by
    have committed := carries.steady.commits carries.whole.held asked.1 asked.2
    exact (committed.turn carries.whole.held asked.2).2.onward.found _ _ here
  committed {b b' r y} asked carries ran := by
    have committed := carries.steady.commits carries.whole.held asked.1 asked.2
    rw [Commit.runNew _ asked.1] at ran
    generalize Backend.commit r b = o at committed ran
    cases committed with
    | stalled steady idle => cases ran
    | stored steady memory =>
      cases ran
      unfold Stored
      rw [memory]
      exact (Dict.findInsert _ _ _ _).trans (if_pos rfl)

end FaultyBackend

namespace Datastore
variable {s s' : Datastore FaultyBackend} {m : MemoryBackend} {d : DocumentId}

def Launched (s : Datastore FaultyBackend) : Prop :=
  ∃ config digest b log b' log' m, b.Steady ∧ m.Blank ∧
    Relation.ReflTransGen MemoryBackend.Call m b.memory ∧
    connect config digest b log = (.ok s, b', log')

abbrev Carries (s : Datastore FaultyBackend) (m : MemoryBackend) : Prop :=
  s.Upholds (fun b _ => b.Carries m) fun b d t => t.Vouched b.Stored d

theorem Carries.later (carries : s.Carries m) (later : s.Later FaultyBackend.Touched s') :
    s'.Carries m := by
  refine Upholds.later carries (FaultyBackend.carriesVouches m).writes id ?_ ?_ later
  · intro b b' _ touched carries
    obtain ⟨steady, turn⟩ := touched.turn carries.steady
    exact carries.turn steady turn
  · intro b b' _ d t touched carries vouched
    exact vouched.mono fun y here => (touched.turn carries.steady).2.onward.found _ _ here

theorem Launched.carries (launched : s.Launched) : ∃ m, s.Carries m := by
  obtain ⟨config, digest, b, log, b', log', m, steady, blank, calls, opens⟩ := launched
  have laws := (FaultyBackend.carriesVouches b.memory).writes
  exact ⟨b.memory, .opened (n := 0) laws.toReads id ⟨steady, blank.wholeAfter calls, .refl _⟩ opens⟩

theorem Carries.here (carries : s.Carries m) : s.Carries s.backend.memory := by
  obtain ⟨⟨steady, whole, _⟩, cached⟩ := carries
  exact ⟨⟨steady, whole, .refl _⟩, cached⟩

structure Unmoved (s : Datastore FaultyBackend) (b : FaultyBackend) (allocated : Nat) : Prop where
  steady : b.Steady
  counter : b.memory.counter = s.backend.memory.counter
  revisions : b.memory.revisions = s.backend.memory.revisions
  byDocument : b.memory.byDocument = s.backend.memory.byDocument
  allocated : allocated = s.metrics.sequencesAllocated

theorem Unmoved.know {b : FaultyBackend} {n : Nat} (unmoved : s.Unmoved b n) (d : DocumentId) :
    s.Unmoved (b.know d) n := by
  have shape := b.memory.knowShape d
  unfold FaultyBackend.know
  rw [shape]
  exact ⟨unmoved.steady.memory _, unmoved.counter, unmoved.revisions, unmoved.byDocument,
    unmoved.allocated⟩

theorem unmovedReads (s : Datastore FaultyBackend) : Reads s.Unmoved fun _ _ _ => True := by
  refine .ofAsks fun asks unmoved => ?_
  rcases unmoved.steady.asked asks with same | ⟨d, same⟩ <;> rw [same]
  · exact unmoved
  · exact unmoved.know d

theorem forceProjected (steady : s.backend.Steady) {p : Revision} (part : p.isProjected = true)
    (history : List RevisionId) :
    ∃ e s', s.forceInsert p history = (.error e, s') ∧
      s.Unmoved s'.backend s'.metrics.sequencesAllocated := by
  have here : s.Unmoved s.backend s.metrics.sequencesAllocated := ⟨steady, rfl, rfl, rfl, rfl⟩
  unfold forceInsert
  dsimp only
  split
  · exact ⟨_, s, rfl, here⟩
  · have start : s.Upholds s.Unmoved fun _ _ _ => True := ⟨here, fun _ _ => trivial⟩
    have unmoved := (start.treeOf s.unmovedReads p.document true).store.backend
    generalize s.treeOf p.document true = o at unmoved
    obtain ⟨answer, after⟩ := o
    cases answer with
    | error e => exact ⟨e, after, rfl, unmoved⟩
    | ok t =>
      have refused : t.planForeign p history =
          .error (.projectedWrite p.document.text p.id.text) := if_pos part
      have ran : t.insertForeign commit p history after =
          (.error (.projectedWrite p.document.text p.id.text), after) := by
        unfold RevisionTree.insertForeign
        rw [refused]
      refine ⟨.projectedWrite p.document.text p.id.text, after, ?_, unmoved⟩
      unfold Outcome.andThen
      dsimp only
      rw [ran]
      rfl

structure Behind (s : Datastore FaultyBackend) (x y : Revision) : Prop where
  found : s.backend.memory.loadRevision? x.document x.id = some y
  full : y.projection = none
  document : y.document = x.document
  id : y.id = x.id
  whole : (∀ z ∈ s.backend.memory.revisionsOf x.document, z.id = x.id → z = y) →
    y.body = x.body ∧ y.attachments = x.attachments

theorem Carries.behind (carries : s.Carries m) {x z : Revision}
    (stored : z ∈ s.backend.memory.revisionsOf x.document) (id : z.id = x.id)
    (same : z.body = x.body ∧ z.attachments = x.attachments) : ∃ y, s.Behind x y := by
  have whole := carries.backend.whole
  have some : (s.backend.memory.loadRevision? x.document x.id).isSome = true :=
    List.find?_isSome.mpr ⟨z, stored, decide_eq_true id⟩
  obtain ⟨y, found⟩ := Option.isSome_iff_exists.mp some
  obtain ⟨there, document, _⟩ := whole.held.stored (List.mem_of_find?_eq_some found)
  have own : y.id = x.id := by simpa using List.find?_some found
  -- The first revision with the id is loaded; it has this content if no other has the id.
  refine ⟨y, found, whole.full _ _ there, document, own, fun only => ?_⟩
  obtain rfl := only z stored id
  exact same

theorem Carries.node (carries : s.Carries m) {create : Bool} {t : RevisionTree}
    (got : s.treeOf d create = (.ok t, s')) {q : Int} {x : Revision} (found : t.get? q = some x) :
    x.projection = none ∧ ∃ y, s.Behind x y := by
  have laws := (FaultyBackend.carriesVouches m).writes.toReads
  have tree := (Upholds.treeOf carries laws d create).answer t (congrArg Prod.fst got)
  have start : s.Upholds s.Unmoved fun _ _ _ => True :=
    ⟨⟨carries.backend.steady, rfl, rfl, rfl, rfl⟩, fun _ _ => trivial⟩
  have unmoved := (start.treeOf s.unmovedReads d create).store.backend
  rw [got] at tree unmoved
  obtain ⟨_, _, _, y, there, same⟩ := tree.nodes q x found
  replace there : s.backend.memory.revisions.find? y.sequence = some y :=
    unmoved.revisions ▸ there
  obtain ⟨key, current, rfl⟩ := same
  have full : y.projection = none := carries.backend.whole.full _ _ there
  exact ⟨full, carries.behind (carries.backend.whole.held.belongs there).1 rfl ⟨rfl, rfl⟩⟩

theorem Carries.completes (carries : s.Carries m) {x y p : Revision} (behind : s.Behind x y)
    (part : p.isProjected = true) (document : p.document = x.document) (id : p.id = x.id)
    (later : s.Later FaultyBackend.Touched s') : ∃ u, s'.materialize p = (.ok y, u) := by
  obtain ⟨⟨steady, _, onward⟩, _⟩ := carries.here.later later
  obtain ⟨u, ran, _⟩ := materializesSteady steady p
  have found := onward.loads carries.backend.whole.held behind.found
  have copied : (p.mutableCopy fun _ _ =>
      .ok (s'.backend.memory.loadRevision? p.document p.id)) = .ok y := by
    unfold Revision.mutableCopy
    rw [if_pos part, document, id, found]
    simp [bind, Except.bind, Revision.isProjected, behind.full]
  exact ⟨u, ran.trans (by rw [copied])⟩

/-- No projection is in the store, none gets in, and each can be completed from it. -/
structure NeverPartial (s : Datastore FaultyBackend) : Prop where
  stored : ∀ q x, s.backend.memory.revisions.find? q = some x →
    x.projection = none ∧ ∃ y, s.Behind x y
  nodes : ∀ d create t u, s.treeOf d create = (.ok t, u) → ∀ q x, t.get? q = some x →
    x.projection = none ∧ ∃ y, s.Behind x y
  once : Reachable s → ∀ d, (s.backend.memory.revisionsOf d).Pairwise fun a b => a.id ≠ b.id
  saved : ∀ p : Revision, p.isProjected = true →
    s.saveRevision p = (.error (.projectedWrite p.document.text p.id.text), s)
  forced : ∀ (p : Revision) (history : List RevisionId), p.isProjected = true →
    ∃ e u, s.forceInsert p history = (.error e, u) ∧
      s.Unmoved u.backend u.metrics.sequencesAllocated
  completed : ∀ x y, s.Behind x y → ∀ w : Revision, w.isProjected = true →
    w.document = x.document → w.id = x.id →
    ∀ commands, ∀ p ∈ ((Desk.of w).run commands).values, p.isProjected = true ∧
      ∀ s', s.Later FaultyBackend.Touched s' → ∃ u, s'.materialize p = (.ok y, u)

theorem neverPartial {s₀ : Datastore FaultyBackend} (launched : s₀.Launched)
    (later : s₀.Later FaultyBackend.Touched s) : s.NeverPartial := by
  obtain ⟨m, start⟩ := launched.carries
  have carries := start.later later
  have whole := carries.backend.whole
  constructor
  case stored =>
    intro q x found
    exact ⟨whole.full q x found, carries.behind (whole.held.belongs found).1 rfl ⟨rfl, rfl⟩⟩
  case nodes => exact fun d create t u got q x found => carries.node got found
  case once =>
    intro reachable d
    have kept := reachable.sound.kept
    by_cases bare : s.backend.memory.revisionsOf d = []
    · exact bare ▸ .nil
    · exact (kept.built bare).apart
  case saved => exact fun p part => if_pos part
  case forced => exact fun p history part => forceProjected carries.backend.steady part history
  case completed =>
    intro x y behind w part document id commands p member
    have made := Desk.allFrom member
    have still := made.partly part
    exact ⟨still, fun s' later => carries.completes behind still (made.document.trans document)
      (made.id.trans id) later⟩

namespace Sample

def whole : Revision := { root with body := ⟨Dict.empty.insert "k" (.int 1)⟩ }

def holding : Datastore FaultyBackend := ((store 2).serve (.force whole [])).2

def updated : Datastore FaultyBackend := (holding.serve (.update "d" "1-a" .empty)).2

-- A copy of a projection is edited and projected again.
def misused : List Command := [.copy 0, .edit 1 (.body .empty), .project 1 ["x"]]

theorem launched : (store 2).Launched :=
  ⟨(store 2).config, digest, .ofMemory .empty, Log.empty, _, _, .empty,
    ⟨fun _ _ => rfl, fun q member => by cases member⟩, ⟨le_rfl, rfl, rfl⟩, .refl, rfl⟩

theorem held : (store 2).Later FaultyBackend.Touched holding := .serve .now _

end Sample

theorem partCompleted :
    (Sample.store 2).Launched ∧ (Sample.store 2).Later FaultyBackend.Touched Sample.holding ∧
      Sample.holding.Later FaultyBackend.Touched Sample.updated ∧
        ∃ y, y.body.fields.keys = ["k"] ∧
          ∀ p ∈ ((Desk.of (Sample.whole.project [])).run Sample.misused).values,
            ∃ u, Sample.updated.materialize p = (.ok y, u) := by
  have later : Sample.holding.Later FaultyBackend.Touched Sample.updated := .serve .now _
  have never := neverPartial Sample.launched Sample.held
  have row : (Sample.holding.backend.memory.revisions.find? 1).map
      (fun x => (x.document, x.id, x.body.fields.keys)) =
        some (Sample.whole.document, Sample.whole.id, ["k"]) := by
    decide +kernel
  obtain ⟨x, found, same⟩ := Option.map_eq_some_iff.mp row
  obtain ⟨document, id, keys⟩ : x.document = Sample.whole.document ∧ x.id = Sample.whole.id ∧
      x.body.fields.keys = ["k"] := by
    simpa using same
  obtain ⟨_, y, behind⟩ := never.stored 1 x found
  have single : (Sample.holding.backend.memory.revisionsOf Sample.whole.document).length = 1 := by
    decide +kernel
  obtain ⟨only, alone⟩ := List.length_eq_one_iff.mp single
  rw [← document] at alone
  have whole : y.body = x.body := by
    refine (behind.whole fun z member _ => ?_).1
    have there := List.mem_of_find?_eq_some behind.found
    rw [alone, List.mem_singleton] at member there
    rw [member, there]
  refine ⟨Sample.launched, Sample.held, later, y, whole ▸ keys, fun p member => ?_⟩
  have part := never.completed x y behind (Sample.whole.project []) rfl document.symm id.symm
    Sample.misused p member
  exact part.2 _ later

end Datastore
end RevForest
