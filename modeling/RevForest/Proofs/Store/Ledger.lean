import RevForest.Proofs.Store.Run
import RevForest.Proofs.Store.Upheld

/-! What the requests to a store add to its memory. A commit puts one revision behind all that
are stored, under the sequence that comes next, and counts it; nothing else adds to the
memory or to that count. This needs no sound store: whatever is cached, and whatever
else is stored, what was added is a list of revisions under the sequences that follow. -/
namespace RevForest

def Step.opens : Step → Bool
  | .renew .. | .reopen .. => true
  | _ => false

theorem FaultyBackend.Steady.asked {α : Type} {b : FaultyBackend}
    {act : FaultyBackend → Except StoreError α × FaultyBackend} (steady : b.Steady)
    (asks : Backend.Asks act) : (act b).2 = b ∨ ∃ d, (act b).2 = b.know d := by
  cases asks with
  | lastSequence => exact .inl (congrArg Prod.snd steady.lastSequence)
  | documentKey d => exact .inr ⟨d, congrArg Prod.snd (steady.documentKey d)⟩
  | loadRevision d id => exact .inl (congrArg Prod.snd (steady.loadRevision d id))
  | loadTree d => exact .inl (congrArg Prod.snd (steady.loadTree d))
  | documentIds => exact .inl (congrArg Prod.snd steady.documentIds)

namespace Datastore
variable {s₀ s s' s'' : Datastore FaultyBackend} {rs : List Revision}

structure Still (s s' : Datastore FaultyBackend) : Prop where
  backend : s'.backend = s.backend
  allocated : s'.metrics.sequencesAllocated = s.metrics.sequencesAllocated

theorem Still.trans (first : s.Still s') (later : s'.Still s'') : s.Still s'' :=
  ⟨later.backend.trans first.backend, later.allocated.trans first.allocated⟩

theorem Quiet.still (quiet : s.Quiet s') : s.Still s' := ⟨quiet.backend, quiet.allocated⟩

structure Filed (s₀ : Datastore FaultyBackend) (rs : List Revision) (s : Datastore FaultyBackend) :
    Prop where
  steady : s.backend.Steady
  held : s.backend.memory.Held
  files : s₀.backend.memory.Files rs s.backend.memory
  allocated : s.metrics.sequencesAllocated = s₀.metrics.sequencesAllocated + rs.length

def Adds (s₀ s : Datastore FaultyBackend) : Prop := ∃ rs, s₀.Filed rs s

theorem Filed.refl (steady : s.backend.Steady) (held : s.backend.memory.Held) : s.Filed [] s :=
  ⟨steady, held, .refl _, rfl⟩

theorem Filed.still (filed : s₀.Filed rs s) (still : s.Still s') : s₀.Filed rs s' := by
  obtain ⟨steady, held, files, allocated⟩ := filed
  rw [← still.backend] at steady held files
  rw [← still.allocated] at allocated
  exact ⟨steady, held, files, allocated⟩

theorem Filed.backend (filed : s₀.Filed rs s) {b : FaultyBackend} (steady : b.Steady)
    (files : s.backend.memory.Files [] b.memory) : s₀.Filed rs { s with backend := b } := by
  have both := filed.files.trans files
  rw [List.append_nil] at both
  exact ⟨steady, files.held filed.held, both, filed.allocated⟩

theorem Adds.commit (adds : s₀.Adds s) {r : Revision} (new : r.sequence = unassigned)
    (full : r.projection = none) : s₀.Adds (Datastore.commit r s).2 := by
  obtain ⟨rs, filed⟩ := adds
  unfold Datastore.commit call
  have given := filed.steady.allocates
  generalize Backend.nextSequence s.backend = asked at given
  cases given with
  | fails steady idle => exact ⟨rs, filed.backend steady (.idle idle)⟩
  | @gives b steady memory =>
    simp only [Outcome.andThen, Datastore.count]
    rw [steady.stores filed.held memory new full]
    have single : s.backend.memory.Files [s.backend.memory.numbered r]
        (s.backend.memory.append (s.backend.memory.numbered r)) := .single rfl
    refine ⟨_, steady.memory _, single.held filed.held, filed.files.trans single, ?_⟩
    rw [List.length_append]
    exact congrArg Nat.succ filed.allocated

structure Filing (s₀ : Datastore FaultyBackend) (rs : List Revision) (b : FaultyBackend) (n : Nat) :
    Prop where
  steady : b.Steady
  held : b.memory.Held
  files : s₀.backend.memory.Files rs b.memory
  allocated : n = s₀.metrics.sequencesAllocated + rs.length

theorem Filed.filing (filed : s₀.Filed rs s) :
    s₀.Filing rs s.backend s.metrics.sequencesAllocated :=
  ⟨filed.steady, filed.held, filed.files, filed.allocated⟩

theorem Filing.filed (filing : s₀.Filing rs s.backend s.metrics.sequencesAllocated) :
    s₀.Filed rs s :=
  ⟨filing.steady, filing.held, filing.files, filing.allocated⟩

theorem filingReads (s₀ : Datastore FaultyBackend) (rs : List Revision) :
    Reads (s₀.Filing rs) fun _ _ _ => True := by
  refine .ofAsks fun asks filing => ?_
  rcases filing.steady.asked asks with same | ⟨d, same⟩ <;> rw [same]
  · exact filing
  · obtain ⟨steady, held, files, allocated⟩ := filing
    have both := files.trans (.know _ d)
    rw [List.append_nil] at both
    exact ⟨steady.memory _, (MemoryBackend.Files.know _ d).held held, both, allocated⟩

theorem addsWrites (s₀ : Datastore FaultyBackend) :
    Writes (fun b n => ∃ rs, s₀.Filing rs b n) fun _ _ _ => True := by
  refine .ofCommits (fun asks adds => ?_) fun asked adds => ?_
  · obtain ⟨rs, filing⟩ := adds
    exact ⟨rs, (filingReads s₀ rs).asks asks filing⟩
  · obtain ⟨rs, filing⟩ := adds
    obtain ⟨more, filed⟩ := Adds.commit ⟨rs, filing.filed⟩ asked.1 asked.2
    exact ⟨more, filed.filing⟩

theorem Filed.upholds (filed : s₀.Filed rs s) : s.Upholds (s₀.Filing rs) fun _ _ _ => True :=
  ⟨filed.filing, fun _ _ => trivial⟩

theorem Filed.treeOf (filed : s₀.Filed rs s) (d : DocumentId) (create : Bool) :
    s₀.Filed rs (s.treeOf d create).2 :=
  (filed.upholds.treeOf (filingReads s₀ rs) d create).store.backend.filed

theorem Filed.settle (filed : s₀.Filed rs s) (t : RevisionTree) (e : DocumentError) :
    s₀.Filed rs (s.settle t e) :=
  (filed.upholds.settle (filingReads s₀ rs) t e).backend.filed

theorem Adds.serve (adds : s₀.Adds s) (q : Request) : s₀.Adds (s.serve q).2 := by
  obtain ⟨rs, filed⟩ := adds
  have start : s.Upholds (fun b n => ∃ rs, s₀.Filing rs b n) fun _ _ _ => True :=
    ⟨⟨rs, filed.filing⟩, fun _ _ => trivial⟩
  obtain ⟨more, filing⟩ := (start.serve (addsWrites s₀) q).backend
  exact ⟨more, filing.filed⟩

theorem Sound.filed (sound : s.Sound) : s.Filed [] s := .refl sound.steady sound.kept.held

structure Counts (s : Datastore FaultyBackend) (rs : List Revision) (s' : Datastore FaultyBackend)
    (stays : Prop) : Prop where
  files : s.backend.memory.Files rs s'.backend.memory
  allocated : stays → s'.metrics.sequencesAllocated = s.metrics.sequencesAllocated + rs.length

theorem Filed.counts (filed : s.Filed rs s') (stays : Prop) : s.Counts rs s' stays :=
  ⟨filed.files, fun _ => filed.allocated⟩

theorem Sound.reopenedCounts (sound : s.Sound) (config : DatastoreConfig) (digest : ContentDigest)
    {stays : Prop} (opens : ¬ stays) : s.Counts [] (s.reopened config digest) stays := by
  obtain ⟨_, backend, _⟩ := sound.reopened config digest
  refine ⟨?_, fun held => absurd held opens⟩
  rw [backend]
  exact .refl _

theorem Sound.stepCounts (sound : s.Sound) (step : Step) :
    ∃ rs, s.Counts rs (s.step step).2 (step.opens = false) := by
  have filed := sound.filed
  cases step with
  | ask q =>
    obtain ⟨rs, served⟩ := Adds.serve ⟨[], filed⟩ q
    exact ⟨rs, served.counts _⟩
  | failNext => exact ⟨[], (filed.backend (sound.steady.memory _) (.idle ⟨true, rfl⟩)).counts _⟩
  | allocations outcomes =>
    exact ⟨[], (filed.backend (steadyAllocations sound.steady outcomes) (.refl _)).counts _⟩
  | evict keep =>
    have still : s.Still (s.step (.evict keep)).2 := ⟨rfl, rfl⟩
    exact ⟨[], (filed.still still).counts _⟩
  | renew capacity logLevel => exact ⟨[], sound.reopenedCounts _ _ (by simp [Step.opens])⟩
  | reopen config digest => exact ⟨[], sound.reopenedCounts _ _ (by simp [Step.opens])⟩

theorem Sound.runCounts (sound : s.Sound) (steps : List Step) :
    ∃ rs, s.Counts rs (s.run steps).2 (∀ step ∈ steps, step.opens = false) := by
  induction steps generalizing s with
  | nil => exact ⟨[], sound.filed.counts _⟩
  | cons step rest ih =>
    obtain ⟨first, here⟩ := sound.stepCounts step
    obtain ⟨more, later⟩ := ih (sound.step step)
    refine ⟨first ++ more, here.files.trans later.files, ?_⟩
    intro stays
    obtain ⟨now, after⟩ := List.forall_mem_cons.mp stays
    have total := later.allocated after
    rw [here.allocated now] at total
    rw [List.length_append, ← Nat.add_assoc]
    exact total

end Datastore
end RevForest
