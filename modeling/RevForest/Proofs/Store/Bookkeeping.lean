import RevForest.Proofs.Store.Rebuild
import RevForest.Proofs.Tree.AnyOrder

/-! The books that a memory keeps: the counter, the revisions under their sequences, the list of
each document, and the keys. Revisions may be stored above the counter, below it and in its gaps,
in any order between allocations that succeed or fail. The counter stays ahead of all of them, so
what it gives was never there; a revision is listed once, with its document; and a key, once
given, belongs to one document for good. -/
namespace RevForest

inductive MemoryCall where
  | failNext
  | nextSequence
  | persist (r : Revision)
  | documentKey (d : DocumentId)

inductive MemoryAnswer where
  | armed
  | sequence (outcome : Except StoreError Int)
  | persisted (outcome : Except StoreError Unit)
  | key (key : Int)

def MemoryAnswer.given (answers : List MemoryAnswer) : List Int :=
  answers.filterMap fun
    | .sequence (.ok q) => some q
    | _ => none

namespace MemoryBackend
variable {m m' : MemoryBackend} {d e : DocumentId} {r x : Revision} {q k : Int}

def serve (m : MemoryBackend) : MemoryCall → MemoryAnswer × MemoryBackend
  | .failNext => (.armed, m.failNextSequence)
  | .nextSequence => m.nextSequence.map .sequence id
  | .persist r => (Backend.persist r m).map .persisted id
  | .documentKey d => (m.documentKey d).map .key id

def run (m : MemoryBackend) : List MemoryCall → List MemoryAnswer × MemoryBackend
  | [] => ([], m)
  | call :: rest =>
    ((m.serve call).1 :: ((m.serve call).2.run rest).1, ((m.serve call).2.run rest).2)

inductive Next (m : MemoryBackend) : Except StoreError Int × MemoryBackend → Prop where
  | injected (pending : m.failNext = true) :
      Next m (.error (.sequenceAllocation "injected allocation failure"),
        { m with failNext := false })
  | exhausted (calm : m.failNext = false) (full : maxSequence ≤ m.lastSequence) :
      Next m (.error (.sequenceAllocation "sequence space exhausted"), m)
  | given (calm : m.failNext = false) (room : m.lastSequence < maxSequence) :
      Next m (.ok (m.lastSequence + 1), { m with counter := ⟨m.lastSequence + 1⟩ })

theorem next (m : MemoryBackend) : m.Next m.nextSequence := by
  unfold MemoryBackend.nextSequence SequenceCounter.allocate
  rw [← lastCounted]
  split
  · rename_i pending
    exact .injected pending
  · rename_i calm
    have calm : m.failNext = false := by simpa using calm
    by_cases room : m.lastSequence < maxSequence
    · rw [if_pos room]
      exact .given calm room
    · rw [if_neg room]
      exact .exhausted calm (not_lt.mp room)

def filed (m : MemoryBackend) (r : Revision) : MemoryBackend :=
  { m.append r with counter := ⟨max m.lastSequence r.sequence⟩ }

inductive Persisted (m : MemoryBackend) (r : Revision) :
    Except StoreError Unit × MemoryBackend → Prop where
  | unsequenced (unassigned : r.sequence ≤ 0) : Persisted m r
      (.error (.persistFailed r.sequence s!"revision {r.id.text} has no sequence"), m)
  | projected (positive : 0 < r.sequence) (partly : r.isProjected = true) : Persisted m r
      (.error (.persistFailed r.sequence "projected revisions are never persisted"), m)
  | taken (positive : 0 < r.sequence) (full : r.isProjected = false)
      (there : m.revisions.find? r.sequence ≠ none) : Persisted m r (.ok (), m)
  | filed (positive : 0 < r.sequence) (full : r.isProjected = false)
      (free : m.revisions.find? r.sequence = none) : Persisted m r (.ok (), m.filed r)

theorem persisted (m : MemoryBackend) (r : Revision) : m.Persisted r (Backend.persist r m) := by
  simp only [Backend.persist]
  unfold MemoryBackend.persist
  by_cases unassigned : r.sequence ≤ 0
  · simp only [if_pos unassigned]
    exact .unsequenced unassigned
  have positive : 0 < r.sequence := not_le.mp unassigned
  by_cases partly : r.isProjected = true
  · simp only [if_neg unassigned, if_pos partly]
    exact .projected positive partly
  have full : r.isProjected = false := Bool.eq_false_of_not_eq_true partly
  by_cases there : m.revisions.contains r.sequence = true
  · simp only [if_neg unassigned, if_neg partly, if_pos there]
    exact .taken positive full (Option.isSome_iff_ne_none.mp there)
  have free := (Dict.notContains _ _).mp (Bool.eq_false_of_not_eq_true there)
  simp only [if_neg unassigned, if_neg partly, if_neg there]
  have done := Persisted.filed positive full free
  unfold MemoryBackend.filed at done
  rw [lastCounted] at done
  by_cases above : m.counter.highest < r.sequence
  · have observed : m.counter.observe r.sequence = .ok ⟨r.sequence⟩ := if_neg (not_le.mpr above)
    rw [if_pos above, observed]
    rwa [max_eq_right above.le] at done
  · rw [if_neg above]
    rwa [max_eq_left (not_lt.mp above)] at done

theorem lastAt (m : MemoryBackend) (q : Int) : { m with counter := ⟨q⟩ }.lastSequence = q :=
  lastCounted _

theorem findFiled (m : MemoryBackend) (r : Revision) (q : Int) :
    (m.filed r).revisions.find? q = if q = r.sequence then some r else m.revisions.find? q :=
  Dict.findInsert _ _ _ _

theorem sequencesFiled (m : MemoryBackend) (r : Revision) (d : DocumentId) :
    (m.filed r).sequencesOf d =
      if d = r.document then m.sequencesOf d ++ [r.sequence] else m.sequencesOf d :=
  sequencesAppend m r d

theorem lastFiled (m : MemoryBackend) (r : Revision) :
    (m.filed r).lastSequence = max m.lastSequence r.sequence :=
  lastCounted _

structure Booked (m : MemoryBackend) : Prop where
  held : m.Held
  sorted : m.revisions.Sorted
  positive : ∀ q r, m.revisions.find? q = some r → 0 < q
  once : ∀ d, (m.sequencesOf d).Nodup
  keysSorted : m.keys.Sorted
  numbered : ∀ d k, m.keys.find? d = some k → k ≤ m.keys.size
  apart : ∀ d e k, m.keys.find? d = some k → m.keys.find? e = some k → d = e

theorem emptyBooked : (empty : MemoryBackend).Booked where
  held := (Blank.kept ⟨le_rfl, rfl, rfl⟩).held
  sorted := Dict.sortedEmpty
  positive _ _ found := nomatch found
  once _ := List.nodup_nil
  keysSorted := Dict.sortedEmpty
  numbered _ _ found := nomatch found
  apart _ _ _ found := nomatch found

theorem Booked.counted (booked : m.Booked) {counter : SequenceCounter} {failNext : Bool}
    (ahead : m.counter.highest ≤ counter.highest) : { m with counter, failNext }.Booked where
  held := booked.held.turn (.idle rfl rfl ahead)
  sorted := booked.sorted
  positive := booked.positive
  once := booked.once
  keysSorted := booked.keysSorted
  numbered := booked.numbered
  apart := booked.apart

theorem Booked.listed (booked : m.Booked) : q ∈ m.sequencesOf d ↔
    ∃ r, m.revisions.find? q = some r ∧ r.document = d := by
  constructor
  · intro listed
    obtain ⟨r, found, _, own⟩ := booked.held.listed d q listed
    exact ⟨r, found, own⟩
  · rintro ⟨r, found, rfl⟩
    exact (booked.held.inside q r found).2

theorem Booked.file (booked : m.Booked) (positive : 0 < r.sequence)
    (free : m.revisions.find? r.sequence = none) : (m.filed r).Booked where
  held := booked.held.file free rfl rfl (lastCounted m ▸ le_max_left _ _) (le_max_right _ _)
  sorted := Dict.sortedInsert booked.sorted _ _
  positive q x found := by
    rw [findFiled] at found
    split at found
    · rename_i same
      exact same ▸ positive
    · exact booked.positive q x found
  once d := by
    rw [sequencesFiled]
    split
    · rw [← List.concat_eq_append]
      refine List.Nodup.concat (fun listed => ?_) (booked.once d)
      obtain ⟨x, found, _⟩ := booked.listed.mp listed
      cases free.symm.trans found
    · exact booked.once d
  keysSorted := booked.keysSorted
  numbered := booked.numbered
  apart := booked.apart

theorem Booked.know (booked : m.Booked) (d : DocumentId) : (m.know d).Booked := by
  cases found : m.keys.find? d with
  | some k =>
    have known : m.Knows d := by
      unfold Knows keyOf
      rw [found]
      rfl
    rwa [known.same]
  | none =>
    have keys : (m.know d).keys = m.keys.insert d (m.keys.size + 1) := by
      unfold MemoryBackend.know documentKey
      rw [found]
    have size : (m.know d).keys.size = m.keys.size + 1 := by
      rw [keys, Dict.sizeInsert booked.keysSorted, if_pos found]
    have finds (e : DocumentId) : (m.know d).keys.find? e =
        if e = d then some ((m.keys.size : Int) + 1) else m.keys.find? e := by
      rw [keys, Dict.findInsert]
    have held := booked.held.turn (m.knowTurn d)
    rw [knowShape] at held ⊢
    refine ⟨held, booked.sorted, booked.positive, booked.once, ?_, ?_, ?_⟩
    · exact keys ▸ Dict.sortedInsert booked.keysSorted _ _
    · intro e k given
      dsimp only at given ⊢
      rw [finds] at given
      rw [size]
      split at given
      · cases given
        exact le_rfl
      · have := booked.numbered e k given
        omega
    · -- The new key is beyond all the others.
      intro e e' k first second
      dsimp only at first second
      rw [finds] at first second
      split at first <;> split at second
      · rename_i here there
        exact here.trans there.symm
      · cases first
        have := booked.numbered e' _ second
        omega
      · cases second
        have := booked.numbered e _ first
        omega
      · exact booked.apart e e' k first second

inductive Served (m : MemoryBackend) : List Int → MemoryBackend → Prop where
  | idle (failNext : Bool) : Served m [] { m with failNext }
  | given (room : m.lastSequence < maxSequence) :
      Served m [m.lastSequence + 1] { m with counter := ⟨m.lastSequence + 1⟩ }
  | filed (r : Revision) (positive : 0 < r.sequence)
      (free : m.revisions.find? r.sequence = none) : Served m [] (m.filed r)
  | known (d : DocumentId) : Served m [] (m.know d)

theorem served (m : MemoryBackend) (call : MemoryCall) :
    m.Served (MemoryAnswer.given [(m.serve call).1]) (m.serve call).2 := by
  cases call with
  | failNext => exact .idle true
  | nextSequence =>
    have next := m.next
    show m.Served (MemoryAnswer.given [.sequence m.nextSequence.1]) m.nextSequence.2
    generalize m.nextSequence = o at next
    cases next with
    | injected pending => exact .idle false
    | exhausted calm full => exact .idle m.failNext
    | given calm room => exact .given room
  | persist r =>
    have persisted := m.persisted r
    show m.Served (MemoryAnswer.given [.persisted (Backend.persist r m).1]) (Backend.persist r m).2
    generalize Backend.persist r m = o at persisted
    cases persisted with
    | unsequenced unassigned => exact .idle m.failNext
    | projected positive partly => exact .idle m.failNext
    | taken positive full there => exact .idle m.failNext
    | filed positive full free => exact .filed r positive free
  | documentKey d => exact .known d

theorem Booked.served {qs : List Int} (booked : m.Booked) (served : m.Served qs m') :
    m'.Booked := by
  cases served with
  | idle failNext => exact booked.counted le_rfl
  | given room =>
    exact booked.counted (lastCounted m ▸ Int.le_add_one le_rfl)
  | filed r positive free => exact booked.file positive free
  | known d => exact booked.know d

structure Onto (m m' : MemoryBackend) : Prop where
  last : m.lastSequence ≤ m'.lastSequence
  stored : ∀ q r, m.revisions.find? q = some r → m'.revisions.find? q = some r
  keys : ∀ d k, m.keys.find? d = some k → m'.keys.find? d = some k

theorem Served.onto {qs : List Int} (served : m.Served qs m') : m.Onto m' := by
  cases served with
  | idle failNext => exact ⟨le_rfl, fun _ _ => id, fun _ _ => id⟩
  | given room =>
    refine ⟨?_, fun _ _ => id, fun _ _ => id⟩
    rw [lastAt m (m.lastSequence + 1)]
    exact Int.le_add_one le_rfl
  | filed r positive free =>
    refine ⟨lastFiled m r ▸ le_max_left _ _, fun q x there => ?_, fun _ _ => id⟩
    have other : q ≠ r.sequence := by
      rintro rfl
      cases free.symm.trans there
    rw [findFiled, if_neg other, there]
  | known d =>
    refine ⟨?_, fun q x there => ?_, fun e k there => ?_⟩
    · rw [knowShape]
      exact le_rfl
    · rw [knowShape]
      exact there
    · rw [knowKeys]
      split
      · rename_i same
        subst same
        unfold documentKey
        rw [there]
      · exact there

structure Ran (m : MemoryBackend) (given : List Int) (m' : MemoryBackend) : Prop where
  booked : m'.Booked
  onto : m.Onto m'
  rising : given.Pairwise (· < ·)
  within : ∀ q ∈ given, m.lastSequence < q ∧ q ≤ m'.lastSequence

theorem Booked.ran {qs : List Int} (booked : m.Booked) (served : m.Served qs m') :
    m.Ran qs m' := by
  refine ⟨booked.served served, served.onto, ?_, ?_⟩
  · cases served <;> simp
  · cases served with
    | given room =>
      intro q member
      rw [List.mem_singleton.mp member, lastAt m (m.lastSequence + 1)]
      exact ⟨Int.lt_succ _, le_rfl⟩
    | _ => exact List.forall_mem_nil _

theorem Ran.trans {m'' : MemoryBackend} {qs ps : List Int} (first : m.Ran qs m')
    (later : m'.Ran ps m'') : m.Ran (qs ++ ps) m'' where
  booked := later.booked
  onto :=
    { last := first.onto.last.trans later.onto.last
      stored := fun q r there => later.onto.stored q r (first.onto.stored q r there)
      keys := fun d k there => later.onto.keys d k (first.onto.keys d k there) }
  rising := by
    refine List.pairwise_append.mpr ⟨first.rising, later.rising, fun q before p after => ?_⟩
    exact lt_of_le_of_lt (first.within q before).2 (later.within p after).1
  within q member := by
    rcases List.mem_append.mp member with before | after
    · exact ⟨(first.within q before).1, (first.within q before).2.trans later.onto.last⟩
    · exact ⟨lt_of_le_of_lt first.onto.last (later.within q after).1, (later.within q after).2⟩

theorem Booked.run (booked : m.Booked) (calls : List MemoryCall) :
    m.Ran (MemoryAnswer.given (m.run calls).1) (m.run calls).2 := by
  induction calls generalizing m with
  | nil => exact ⟨booked, ⟨le_rfl, fun _ _ => id, fun _ _ => id⟩, .nil, List.forall_mem_nil _⟩
  | cons call rest ih =>
    have first := booked.ran (m.served call)
    have whole := first.trans (ih first.booked)
    unfold MemoryAnswer.given at whole ⊢
    rw [← List.filterMap_append] at whole
    exact whole

theorem Booked.memValues (booked : m.Booked) :
    r ∈ m.revisions.values ↔ m.revisions.find? r.sequence = some r := by
  unfold Dict.values
  rw [List.mem_map]
  constructor
  · rintro ⟨⟨q, x⟩, member, rfl⟩
    have found := (Dict.memIff booked.sorted q x).mp member
    exact (booked.held.belongs found).2.symm ▸ found
  · exact fun found => ⟨(r.sequence, r), (Dict.memIff booked.sorted _ _).mpr found, rfl⟩

theorem Booked.keyed (booked : m.Booked) : m.revisions.Keyed (·.sequence) :=
  (Dict.keyedIff booked.sorted).mpr fun _ _ found => (booked.held.belongs found).2

theorem Booked.rising (booked : m.Booked) :
    m.revisions.values.Pairwise fun a b => a.sequence < b.sequence :=
  booked.keyed.rising booked.sorted

theorem Booked.memOf (booked : m.Booked) :
    r ∈ m.revisionsOf d ↔ r ∈ m.revisions.values ∧ r.document = d := by
  rw [booked.memValues]
  constructor
  · intro member
    obtain ⟨found, own, _⟩ := booked.held.stored member
    exact ⟨found, own⟩
  · rintro ⟨found, rfl⟩
    exact (booked.held.belongs found).1

theorem Booked.loads (booked : m.Booked) (d : DocumentId) :
    m.loadTree d = (m.revisions.values.filter (·.document = d)).map TreeEntry.ofRevision := by
  rw [entriesSorted]
  refine congrArg (List.map TreeEntry.ofRevision) (RevisionTree.sameRising ?_ ?_ fun x => ?_)
  · exact RevisionTree.sortRising (booked.held.sequences d ▸ booked.once d)
  · exact booked.rising.filter _
  · rw [(sortPerm _).mem_iff, booked.memOf, List.mem_filter, decide_eq_true_eq]

theorem Booked.count (booked : m.Booked) (found : m.revisions.find? q = some r)
    (d : DocumentId) : (m.sequencesOf d).count q = if d = r.document then 1 else 0 := by
  split
  · rename_i own
    exact List.count_eq_one_of_mem (booked.once d) (booked.listed.mpr ⟨r, found, own.symm⟩)
  · rename_i other
    refine List.count_eq_zero.mpr fun listed => ?_
    obtain ⟨x, there, own⟩ := booked.listed.mp listed
    cases there.symm.trans found
    exact other own.symm

theorem keyFound (found : m.keys.find? d = some k) : (m.documentKey d).1 = k := by
  unfold documentKey
  rw [found]

theorem keyGiven (m : MemoryBackend) (d : DocumentId) :
    (m.documentKey d).2.keys.find? d = some (m.documentKey d).1 :=
  (m.knowKeys d).trans (if_pos rfl)

theorem Booked.keyLater (booked : m.Booked) (d : DocumentId) (calls : List MemoryCall) :
    ((m.documentKey d).2.run calls).2.keys.find? d = some (m.documentKey d).1 :=
  ((booked.know d).run calls).onto.keys d _ (m.keyGiven d)

theorem Booked.keysApart (booked : m.Booked) (known : m.keys.find? d = some k)
    (same : (m.documentKey e).1 = k) : e = d := by
  have served := Served.known (m := m) e
  have kept : (m.documentKey e).2.keys.find? d = some k := served.onto.keys d k known
  exact (booked.served served).apart e d k (same ▸ m.keyGiven e) kept

/-- What stands in a memory whose calls gave these sequences, and what any call comes to next. -/
structure Books (m : MemoryBackend) (given : List Int) : Prop where
  allocatedBelow : ∀ q ∈ given, q ≤ m.lastSequence
  storedBelow : ∀ q r, m.revisions.find? q = some r → q ≤ m.lastSequence
  rising : given.Pairwise (· < ·)
  next : m.Next m.nextSequence
  new : ∀ q, m.nextSequence.1 = .ok q → q ∉ given ∧ m.revisions.find? q = none
  persisted : ∀ r, m.Persisted r (Backend.persist r m)
  own : ∀ q r, m.revisions.find? q = some r → r.sequence = q ∧ 0 < q
  listed : ∀ q r, m.revisions.find? q = some r →
    ∀ d, (m.sequencesOf d).count q = if d = r.document then 1 else 0
  noOthers : ∀ d, ∀ q ∈ m.sequencesOf d, m.revisions.find? q ≠ none
  order : m.revisions.values.Pairwise fun a b => a.sequence < b.sequence
  loads : ∀ d, m.loadTree d =
    (m.revisions.values.filter (·.document = d)).map TreeEntry.ofRevision
  onto : ∀ later, m.Onto (m.run later).2
  keyStays : ∀ d later,
    (((m.documentKey d).2.run later).2.documentKey d).1 = (m.documentKey d).1
  keysApart : ∀ d e later,
    (((m.documentKey d).2.run later).2.documentKey e).1 = (m.documentKey d).1 → e = d

/-- After any calls of a new memory its books are right, and the next call of any kind keeps to
them. -/
theorem keepsBooks (calls : List MemoryCall) :
    ((empty : MemoryBackend).run calls).2.Books
      (MemoryAnswer.given ((empty : MemoryBackend).run calls).1) := by
  obtain ⟨booked, -, rising, within⟩ := emptyBooked.run calls
  generalize (empty : MemoryBackend).run calls = ran at booked rising within
  obtain ⟨answers, m⟩ := ran
  have stored (q : Int) (r : Revision) (found : m.revisions.find? q = some r) :
      q ≤ m.lastSequence :=
    lastCounted m ▸ (booked.held.inside q r found).1
  constructor
  case allocatedBelow => exact fun q member => (within q member).2
  case storedBelow => exact stored
  case rising => exact rising
  case next => exact m.next
  case new =>
    intro q answered
    have next := m.next
    generalize m.nextSequence = o at next answered
    cases next with
    | injected _ => cases answered
    | exhausted _ _ => cases answered
    | given _ _ =>
      cases answered
      refine ⟨fun member => ?_, Option.eq_none_iff_forall_ne_some.mpr fun r found => ?_⟩
      · exact absurd (within _ member).2 (not_le.mpr (Int.lt_succ _))
      · exact absurd (stored _ r found) (not_le.mpr (Int.lt_succ _))
  case persisted => exact m.persisted
  case own => exact fun q r found => ⟨(booked.held.belongs found).2, booked.positive q r found⟩
  case listed => exact fun q r found => booked.count found
  case noOthers =>
    intro d q member
    obtain ⟨r, found, _⟩ := booked.listed.mp member
    exact Option.ne_none_iff_exists'.mpr ⟨r, found⟩
  case order => exact booked.rising
  case loads => exact booked.loads
  case onto => exact fun later => (booked.run later).onto
  case keyStays => exact fun d later => keyFound (booked.keyLater d later)
  case keysApart =>
    intro d e later same
    exact ((booked.know d).run later).booked.keysApart (booked.keyLater d later) same

end MemoryBackend
end RevForest
