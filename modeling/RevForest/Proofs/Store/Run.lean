import RevForest.Proofs.Store.Request

/-! Runs of a store on a memory that nothing else writes to. Between the requests the next
allocations can be made to fail, trees can be dropped from the cache, and the store can
be opened again, with its own settings or others. Every store of a run is sound. -/
namespace RevForest

inductive Step where
  | ask (q : Request)
  | failNext
  | allocations (outcomes : List (Option StoreError))
  | evict (keep : DocumentId → Bool)
  | renew (capacity : Nat) (logLevel : String)
  | reopen (config : DatastoreConfig) (digest : ContentDigest)

def Step.hidden : Step → Bool
  | .evict _ | .renew _ _ => true
  | _ => false

def BackendFault.ofOutcome : Option StoreError → BackendFault
  | none => .pass
  | some e => .fail fun _ => e

namespace Datastore

def reopened (s : Datastore FaultyBackend) (config : DatastoreConfig) (digest : ContentDigest) :
    Datastore FaultyBackend :=
  match connect config digest s.backend s.log with
  | (.ok opened, _, _) => opened
  | (.error _, backend, log) => { s with backend, log }

def step (s : Datastore FaultyBackend) :
    Step → List (Except DocumentError Reply) × Datastore FaultyBackend
  | .ask q => ([(s.serve q).1], (s.serve q).2)
  | .failNext =>
    ([], { s with backend := { s.backend with memory := s.backend.memory.failNextSequence } })
  | .allocations outcomes =>
    ([], { s with
      backend := s.backend.setQueue .nextSequence (outcomes.map BackendFault.ofOutcome) })
  | .evict keep => ([], { s with cache := s.cache.filter fun d _ => keep d })
  | .renew capacity logLevel =>
    ([], s.reopened { s.config with treeCacheCapacity := capacity, logLevel } s.digest)
  | .reopen config digest => ([], s.reopened config digest)

def run (s : Datastore FaultyBackend) :
    List Step → List (Except DocumentError Reply) × Datastore FaultyBackend
  | [] => ([], s)
  | step :: rest =>
    ((s.step step).1 ++ ((s.step step).2.run rest).1, ((s.step step).2.run rest).2)

def Opened (s : Datastore FaultyBackend) : Prop :=
  ∃ config digest b log, b.Steady ∧ b.memory.Blank ∧ (connect config digest b log).1 = .ok s

inductive Reachable : Datastore FaultyBackend → Prop where
  | opened {s : Datastore FaultyBackend} (opened : s.Opened) : Reachable s
  | step {s : Datastore FaultyBackend} (before : Reachable s) (step : Step) :
      Reachable (s.step step).2

variable {s s' s'' : Datastore FaultyBackend} {d e : DocumentId}

theorem Reachable.run (reachable : Reachable s) (steps : List Step) :
    Reachable (s.run steps).2 := by
  induction steps generalizing s with
  | nil => exact reachable
  | cons step rest ih => exact ih (reachable.step step)

structure Grew (s s' : Datastore FaultyBackend) : Prop where
  sound : s'.Sound
  config : s'.config = s.config
  digest : s'.digest = s.digest
  stored : ∀ e, s.backend.memory.revisionsOf e <+: s'.backend.memory.revisionsOf e

theorem Moves.grew {chain : List Revision} (moves : s.Moves s' d chain) : s.Grew s' :=
  ⟨moves.sound, moves.config, moves.digest, moves.extended.stored⟩

theorem Moves.askedGrew {chain : List Revision} (moves : (s.asked d).Moves s' d chain) :
    s.Grew s' := by
  refine ⟨moves.sound, moves.config, moves.digest, ?_⟩
  intro e
  have stored := moves.extended.stored e
  rwa [askedRevisions] at stored

theorem Alike.grew (alike : s.Alike s') (sound : s'.Sound) : s.Grew s' := by
  refine ⟨sound, alike.config, alike.digest, ?_⟩
  intro e
  exact alike.backend.symm ▸ List.prefix_rfl

theorem Refused.grew (refused : s.Refused s' d) : s.Grew s' := by
  rcases refused.alike with alike | alike
  · exact alike.grew refused.sound
  · refine ⟨refused.sound, alike.config, alike.digest, ?_⟩
    intro e
    have same : s'.backend.memory.revisionsOf e = s.backend.memory.revisionsOf e := by
      rw [alike.backend, askedRevisions]
    exact same ▸ List.prefix_rfl

theorem LocalEdit.grew {named : Option RevisionId} {deleted : Bool}
    {o : Outcome FaultyBackend Revision} (edit : LocalEdit s d named deleted o) : s.Grew o.2 := by
  cases edit with
  | refused plain refused => exact refused.grew
  | stalled moves => exact moves.askedGrew
  | stored moves edited tree answer => exact moves.askedGrew

theorem ForceInsert.grew {o : Outcome FaultyBackend ForeignInsert} (force : ForceInsert s d o) :
    s.Grew o.2 := by
  cases force with
  | refused plain refused => exact refused.grew
  | present moves => exact moves.askedGrew
  | stalled moves => exact moves.askedGrew
  | stored moves => exact moves.askedGrew

theorem Resolution.grew {document keep : String} {o : Outcome FaultyBackend Nat}
    (resolution : Resolution s document keep o) : s.Grew o.2 := by
  cases resolution with
  | refused plain sound alike => exact alike.grew sound
  | run parsed named alike sound live ending told =>
    exact (alike.movesFrom ((ending.moves sound).told told)).grew

inductive LocalWrite (s : Datastore FaultyBackend) : Outcome FaultyBackend Revision → Prop where
  | plain {answer : Except DocumentError Revision} {s' : Datastore FaultyBackend}
      (told : s.Told s') : LocalWrite s (answer, s')
  | edit {d : DocumentId} {named : Option RevisionId} {deleted : Bool}
      {o : Outcome FaultyBackend Revision} (edit : LocalEdit s d named deleted o) : LocalWrite s o

theorem LocalWrite.grew {o : Outcome FaultyBackend Revision} (sound : s.Sound)
    (write : LocalWrite s o) : s.Grew o.2 := by
  cases write with
  | plain told => exact told.alike.grew (sound.told told)
  | edit edit => exact edit.grew

theorem Sound.localWrite (sound : s.Sound) {q : Request} (edit : q.isEdit = true) :
    ∃ o, s.serve q = Outcome.reply o .revision ∧ LocalWrite s o := by
  cases target : q.target? with
  | none =>
    obtain ⟨answer, plain⟩ := servedPlain edit target
    obtain ⟨s', served, told⟩ := plain s
    exact ⟨_, served, .plain told⟩
  | some named =>
    obtain ⟨body, attachments, deleted, served⟩ := servedEdit target
    exact ⟨_, served s, .edit (sound.localEdit named.1 named.2 body attachments deleted)⟩

inductive Served (s : Datastore FaultyBackend) : Request → Outcome FaultyBackend Reply → Prop where
  | read {q : Request} {o : Outcome FaultyBackend Reply} (read : q.isRead = true)
      (kindly : s.Kindly o) : Served s q o
  | write {q : Request} {o : Outcome FaultyBackend Revision} (write : LocalWrite s o) :
      Served s q (o.reply .revision)
  | force {r : Revision} {history : List RevisionId} {o : Outcome FaultyBackend ForeignInsert}
      (force : ForceInsert s r.document o) : Served s (.force r history) (o.reply .foreign)
  | resolve {document keep : String} {o : Outcome FaultyBackend Nat}
      (resolution : Resolution s document keep o) :
      Served s (.resolve document keep) (o.reply .count)

theorem Sound.served (sound : s.Sound) (q : Request) : Served s q (s.serve q) := by
  by_cases edit : q.isEdit = true
  · obtain ⟨o, served, write⟩ := sound.localWrite edit
    rw [served]
    exact .write write
  · by_cases read : q.isRead = true
    · exact .read read (sound.reads read)
    · cases q with
      | force r history => exact .force (sound.forceInsert r history)
      | resolve document keep => exact .resolve (sound.resolveConflicts document keep)
      | create | update | save | delete => exact absurd rfl edit
      | _ => exact absurd rfl read

theorem Sound.serve (sound : s.Sound) (q : Request) : s.Grew (s.serve q).2 := by
  have served := sound.served q
  generalize s.serve q = o at served ⊢
  cases served with
  | read read kindly => exact kindly.alike.grew kindly.sound
  | write write => exact write.grew sound
  | force force => exact force.grew
  | resolve resolution => exact resolution.grew

theorem Sound.backend {b : FaultyBackend} (sound : s.Sound) (steady : b.Steady)
    (idle : s.backend.memory.Idle b.memory) : { s with backend := b }.Sound := by
  obtain ⟨failNext, memory⟩ := idle
  refine ⟨steady, (sound.kept.extendsIdle ⟨failNext, memory⟩ (DocumentId.generated 0)).kept,
    sound.sorted, ?_⟩
  intro d t found
  rw [show ({ s with backend := b } : Datastore FaultyBackend).backend.memory = b.memory from rfl,
    memory]
  exact sound.cached d t found

theorem Sound.evict (sound : s.Sound) (keep : DocumentId → Bool) :
    { s with cache := s.cache.filter fun d _ => keep d }.Sound := by
  obtain ⟨sorted, inside⟩ := Dict.findSublist sound.sorted
    (List.filter_sublist (l := s.cache.entries) (p := fun e => keep e.1))
  exact ⟨sound.steady, sound.kept, sorted, fun d t found => sound.cached d t (inside d t found)⟩

theorem soundEmpty (steady : s.backend.Steady) (kept : s.backend.memory.Kept)
    (empty : s.cache = Dict.empty) : s.Sound where
  steady := steady
  kept := kept
  sorted := by
    rw [empty]
    exact Dict.sortedEmpty
  cached d t found := by
    rw [empty] at found
    cases found

theorem connected (config : DatastoreConfig) (digest : ContentDigest) {b : FaultyBackend}
    (steady : b.Steady) (log : Log) :
    ((∃ cause log', config.validate = .error cause ∧
        connect config digest b log = (.error (.storage cause), b, log')) ∨
      ∃ s log', config.validate = .ok () ∧ connect config digest b log = (.ok s, b, log') ∧
        s.config = config ∧ s.digest = digest ∧ s.backend = b ∧ s.cache = Dict.empty) := by
  unfold connect
  cases checked : config.validate with
  | error cause => exact .inl ⟨cause, log, rfl, rfl⟩
  | ok _ =>
    dsimp only
    rw [steady.lastSequence]
    exact .inr ⟨_, _, rfl, rfl, rfl, rfl, rfl, rfl⟩

theorem Sound.reopened (sound : s.Sound) (config : DatastoreConfig) (digest : ContentDigest) :
    (s.reopened config digest).Sound ∧ (s.reopened config digest).backend = s.backend ∧
      ((config.validate = .ok () ∧ (s.reopened config digest).config = config ∧
          (s.reopened config digest).digest = digest) ∨
        ((∃ cause, config.validate = .error cause) ∧ s.Alike (s.reopened config digest))) := by
  unfold Datastore.reopened
  rcases connected config digest sound.steady s.log with
    ⟨cause, log, bad, tried⟩ | ⟨s', log, good, opened, same, digestSame, backend, empty⟩
  · rw [tried]
    have told : s.Told { s with backend := s.backend, log } := ⟨rfl, rfl, rfl, rfl⟩
    exact ⟨sound.told told, rfl, .inr ⟨⟨cause, bad⟩, told.alike⟩⟩
  · rw [opened]
    refine ⟨soundEmpty ?_ ?_ empty, backend, .inl ⟨good, same, digestSame⟩⟩
    · rw [backend]
      exact sound.steady
    · rw [backend]
      exact sound.kept

theorem steadyAllocations {b : FaultyBackend} (steady : b.Steady)
    (outcomes : List (Option StoreError)) :
    (b.setQueue .nextSequence (outcomes.map BackendFault.ofOutcome)).Steady where
  others op other := (if_neg other).trans (steady.others op other)
  allocations q member := by
    have queued : BackendFault.answer q ∈ outcomes.map BackendFault.ofOutcome := member
    obtain ⟨outcome, _, same⟩ := List.mem_map.mp queued
    cases outcome <;> cases same

theorem Sound.step (sound : s.Sound) (step : Step) : (s.step step).2.Sound := by
  cases step with
  | ask q => exact (sound.serve q).sound
  | failNext => exact sound.backend (sound.steady.memory _) ⟨true, rfl⟩
  | allocations outcomes =>
    exact sound.backend (steadyAllocations sound.steady outcomes) ⟨_, rfl⟩
  | evict keep => exact sound.evict keep
  | renew capacity logLevel => exact (sound.reopened _ _).1
  | reopen config digest => exact (sound.reopened config digest).1

theorem Opened.sound (opened : s.Opened) : s.Sound := by
  obtain ⟨config, digest, b, log, steady, blank, ok⟩ := opened
  rcases connected config digest steady log with
    ⟨cause, _, _, tried⟩ | ⟨s', _, _, done, _, _, backend, empty⟩
  · rw [tried] at ok
    cases ok
  · rw [done] at ok
    cases ok
    refine soundEmpty ?_ ?_ empty
    · rw [backend]
      exact steady
    · rw [backend]
      exact blank.kept

theorem Reachable.sound (reachable : Reachable s) : s.Sound := by
  induction reachable with
  | opened opened => exact opened.sound
  | step before step ih => exact ih.step step

namespace Sample

def digest : ContentDigest := fun _ _ _ _ => "d"

def store (capacity : Nat) : Datastore FaultyBackend :=
  { config := { treeCacheCapacity := capacity }, digest, backend := .ofMemory .empty,
    cache := Dict.empty, metrics := {},
    log := Log.empty.event .datastoreOpened [("last_sequence", "0")] }

theorem opened : ∀ capacity ∈ [1, 2], (store capacity).Opened := by
  have steady : (FaultyBackend.ofMemory .empty).Steady :=
    ⟨fun _ _ => rfl, fun q member => by cases member⟩
  intro capacity member
  refine ⟨(store capacity).config, digest, .ofMemory .empty, Log.empty, steady,
    ⟨by decide, rfl, rfl⟩, ?_⟩
  rcases List.mem_pair.mp member with rfl | rfl <;> rfl

theorem reachable (steps : List Step) : Reachable ((store 2).run steps).2 :=
  (Reachable.opened (opened 2 (by decide))).run steps

def tracked : DocumentId := RevisionTree.Sample.document

def root : Revision := RevisionTree.Sample.delivered RevisionTree.Sample.root

end Sample

end Datastore
end RevForest
