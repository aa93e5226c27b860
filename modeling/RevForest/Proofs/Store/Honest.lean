import RevForest.Proofs.Store.Durable
import RevForest.Proofs.Store.Partial

/-! A memory whose calls fail as they are told to, and otherwise do what they are to do. It gives
rising sequences, and it keeps what was stored by the calls that succeeded. -/
namespace RevForest

namespace FaultyBackend
variable {α : Type} {b b' : FaultyBackend} {m : MemoryBackend}

def Honest (b : FaultyBackend) : Prop :=
  ∀ op, ∀ f ∈ b.queues op, f = .pass ∨ ∃ error, f = .fail error

def view : Backend.View FaultyBackend where
  usable b := b.Honest ∧ b.memory.Held
  stored b d := b.memory.revisionsOf d
  highest b := b.memory.counter.highest

inductive Takes (b : FaultyBackend) : BackendFault × FaultyBackend → Prop where
  | passes {b' : FaultyBackend} (honest : b'.Honest) (memory : b'.memory = b.memory) :
      Takes b (.pass, b')
  | fails {error : Int → StoreError} {b' : FaultyBackend} (honest : b'.Honest)
      (memory : b'.memory = b.memory) : Takes b (.fail error, b')

theorem Honest.takes (honest : b.Honest) (op : BackendOperation) : b.Takes (b.take op) := by
  unfold take
  split
  · exact .passes honest rfl
  · rename_i f rest queue
    have later : (b.setQueue op rest).Honest := by
      intro o g member
      unfold setQueue at member
      dsimp only at member
      split at member
      · rename_i same
        subst same
        exact honest o g (queue ▸ List.mem_cons_of_mem f member)
      · exact honest o g member
    rcases honest op f (queue ▸ List.mem_cons_self) with rfl | ⟨error, rfl⟩
    · exact .passes later rfl
    · exact .fails later rfl

theorem Honest.taken (honest : b.Honest) {op : BackendOperation} {fault : BackendFault}
    (taken : b.take op = (fault, b')) : b'.Honest := by
  have outcome := honest.takes op
  rw [taken] at outcome
  cases outcome <;> assumption

theorem nextShape (m : MemoryBackend) :
    (∃ cause failNext, m.nextSequence = (.error cause, { m with failNext })) ∨
      m.nextSequence =
        (.ok (m.counter.highest + 1), { m with counter := ⟨m.counter.highest + 1⟩ }) := by
  unfold MemoryBackend.nextSequence SequenceCounter.allocate
  split
  · exact .inl ⟨_, false, rfl⟩
  · by_cases room : m.counter.highest < maxSequence
    · rw [if_pos room]
      exact .inr rfl
    · rw [if_neg room]
      exact .inl ⟨_, m.failNext, rfl⟩

theorem addsNothing (held : b.memory.Held) (honest : b'.Honest)
    (revisions : b'.memory.revisions = b.memory.revisions)
    (byDocument : b'.memory.byDocument = b.memory.byDocument)
    (counted : b.memory.counter.highest ≤ b'.memory.counter.highest) :
    view.Adds b [] b' where
  usable := ⟨honest, held.turn (.idle revisions byDocument counted)⟩
  stored d := by
    show b'.memory.revisionsOf d = b.memory.revisionsOf d ++ _
    unfold MemoryBackend.revisionsOf
    rw [revisions, byDocument, List.filter_nil, List.append_nil]
  highest := counted

theorem addsSame (held : b.memory.Held) (honest : b'.Honest) (memory : b'.memory = b.memory) :
    view.Adds b [] b' :=
  addsNothing held honest (by rw [memory]) (by rw [memory]) (by rw [memory])

theorem persistFree {r : Revision} {m' : MemoryBackend}
    (free : m.revisions.find? r.sequence = none) (ok : m.persist r = .ok m') :
    m'.revisions = (m.append r).revisions ∧ m'.byDocument = (m.append r).byDocument ∧
      m.counter.highest ≤ m'.counter.highest ∧ r.sequence ≤ m'.counter.highest := by
  have absent : m.revisions.contains r.sequence = false := (Dict.notContains _ _).mpr free
  unfold MemoryBackend.persist at ok
  rw [absent] at ok
  split at ok
  · cases ok
  · split at ok
    · cases ok
    · simp only [Bool.false_eq_true, if_false] at ok
      split at ok
      · rename_i above
        have observed : m.counter.observe r.sequence = .ok ⟨r.sequence⟩ :=
          if_neg (not_le.mpr above)
        rw [observed] at ok
        cases ok
        exact ⟨rfl, rfl, above.le, le_rfl⟩
      · rename_i below
        cases ok
        exact ⟨rfl, rfl, le_rfl, not_lt.mp below⟩

theorem addsStored {r : Revision} (held : b.memory.Held) (honest : b'.Honest)
    (free : b.memory.revisions.find? r.sequence = none) (ok : b.memory.persist r = .ok b'.memory) :
    view.Adds b [r] b' := by
  obtain ⟨revisions, byDocument, counted, reached⟩ := persistFree free ok
  refine ⟨⟨honest, held.file free revisions byDocument counted reached⟩, fun d => ?_, counted⟩
  have same : b'.memory.revisionsOf d = (b.memory.append r).revisionsOf d := by
    unfold MemoryBackend.revisionsOf
    rw [revisions, byDocument]
  show b'.memory.revisionsOf d = b.memory.revisionsOf d ++ _
  rw [same, held.revisionsAppend free]
  by_cases own : d = r.document
  · simp [own]
  · simp [own, Ne.symm own]

theorem addsAsked {act : FaultyBackend → Except StoreError α × FaultyBackend}
    (asks : Backend.Asks act) (usable : view.usable b) : view.Adds b [] (act b).2 := by
  obtain ⟨honest, held⟩ := usable
  have same {op : BackendOperation} {fault : BackendFault} {b' : FaultyBackend}
      (taken : b.take op = (fault, b')) : view.Adds b [] b' :=
    addsSame held (honest.taken taken) (takenMemory taken)
  cases asks with
  | lastSequence =>
    simp only [Backend.lastSequence]
    split <;> exact same ‹_›
  | documentKey d =>
    simp only [Backend.documentKey]
    split
    · exact same ‹_›
    · rename_i b' _ taken
      have shape := b'.memory.knowShape d
      have later : b'.Honest := honest.taken taken
      -- A key may be new, the revisions and the counter are what they were.
      show view.Adds _ [] ⟨b'.memory.know d, b'.queues⟩
      refine addsNothing held later ?_ ?_ ?_
      all_goals rw [shape, takenMemory taken]
  | loadRevision d id =>
    simp only [Backend.loadRevision]
    split <;> exact same ‹_›
  | loadTree d =>
    simp only [Backend.loadTree]
    split <;> exact same ‹_›
  | documentIds =>
    simp only [Backend.documentIds]
    split <;> exact same ‹_›

theorem listsStored {d : DocumentId} {entries : List TreeEntry} (usable : view.usable b)
    (gave : Backend.loadTree d b = (.ok entries, b')) :
    entries.Perm ((view.stored b d).map TreeEntry.ofRevision) := by
  have taken := usable.1.takes .loadTree
  simp only [Backend.loadTree] at gave
  generalize take _ _ = o at taken gave
  cases taken with
  | fails honest memory => cases gave
  | passes honest memory =>
    cases gave
    rw [memory]
    exact List.mergeSort_perm _ _

theorem findsStored {d : DocumentId} {id : RevisionId} {found : Option Revision}
    (usable : view.usable b) (gave : Backend.loadRevision d id b = (.ok found, b')) :
    (∀ r, found = some r → r ∈ view.stored b d ∧ r.id = id) ∧
      (found = none → ∀ r ∈ view.stored b d, r.id ≠ id) := by
  have taken := usable.1.takes .loadRevision
  simp only [Backend.loadRevision] at gave
  generalize take _ _ = o at taken gave
  cases taken with
  | fails honest memory => cases gave
  | passes honest memory =>
    cases gave
    rw [memory]
    unfold MemoryBackend.loadRevision?
    constructor
    · intro r first
      exact ⟨List.mem_of_find?_eq_some first, by simpa using List.find?_some first⟩
    · intro none r stored
      simpa using List.find?_eq_none.mp none r stored

theorem allocated (usable : view.usable b) :
    view.Adds b [] (Backend.nextSequence b).2 ∧
      ∀ q, (Backend.nextSequence b).1 = .ok q → 0 < q ∧ b.memory.counter.highest < q ∧
        q ≤ (Backend.nextSequence b).2.memory.counter.highest := by
  have taken := usable.1.takes .nextSequence
  simp only [Backend.nextSequence]
  generalize take _ _ = o at taken ⊢
  cases taken with
  | fails honest memory =>
    refine ⟨addsSame usable.2 honest memory, fun q gave => ?_⟩
    cases gave
  | @passes u honest memory =>
    simp only [run]
    rcases nextShape u.memory with ⟨cause, failNext, shape⟩ | shape
    all_goals rw [shape, memory]
    · refine ⟨addsNothing usable.2 honest rfl rfl le_rfl, fun q gave => ?_⟩
      cases gave
    · refine ⟨addsNothing usable.2 honest rfl rfl (Int.le_add_one le_rfl), fun q gave => ?_⟩
      cases gave
      exact ⟨Int.lt_add_one_of_le usable.2.counted, lt_add_one _, le_rfl⟩

theorem refusedAdds {r : Revision} {cause : StoreError} (usable : view.usable b)
    (refused : Backend.persist r b = (.error cause, b')) : view.Adds b [] b' := by
  have taken := usable.1.takes .persist
  simp only [Backend.persist] at refused
  generalize take _ _ = o at taken refused
  cases taken with
  | fails honest memory =>
    cases refused
    exact addsSame usable.2 honest memory
  | @passes u honest memory =>
    simp only [run] at refused
    cases stored : u.memory.persist r with
    | ok m => rw [stored] at refused; cases refused
    | error cause =>
      rw [stored] at refused
      cases refused
      exact addsSame usable.2 honest memory

theorem persistedAdds {r : Revision} (usable : view.usable b)
    (free : ∀ d, ∀ x ∈ view.stored b d, x.sequence ≠ r.sequence)
    (done : Backend.persist r b = (.ok (), b')) : view.Adds b [r] b' := by
  have taken := usable.1.takes .persist
  simp only [Backend.persist] at done
  generalize take _ _ = o at taken done
  cases taken with
  | fails honest memory => cases done
  | @passes u honest memory =>
    simp only [run] at done
    cases stored : u.memory.persist r with
    | error cause => rw [stored] at done; cases done
    | ok m =>
      rw [stored] at done
      cases done
      -- What stands under a sequence is stored for its own document.
      have absent : b.memory.revisions.find? r.sequence = none := by
        refine Option.eq_none_iff_forall_ne_some.mpr fun x found => ?_
        have inside := usable.2.belongs found
        exact free x.document x inside.1 inside.2
      exact addsStored usable.2 honest absent (memory ▸ stored)

theorem durable : view.Durable where
  asks := addsAsked
  lists := listsStored
  finds := findsStored
  allocates usable := (allocated usable).1
  rises {b b' q} usable gave := by
    have rising := (allocated usable).2 q
    rw [gave] at rising
    exact rising rfl
  refuses := refusedAdds
  persists usable _ _ free done := persistedAdds usable free done

end FaultyBackend
end RevForest
