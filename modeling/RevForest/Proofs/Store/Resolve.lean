import RevForest.Proofs.Store.Write
import RevForest.Proofs.Tree.Prune

/-! The end of the losing branches, one after the other. `Ending` says what each loser
came to: its tombstone was stored, or it was refused by its own draft, or an
allocation failed. The tombstones before that stay stored. -/
namespace RevForest.Datastore
variable {s s' s'' : Datastore FaultyBackend} {d : DocumentId}

inductive Ending (d : DocumentId) : Datastore FaultyBackend → List RevisionId →
    Outcome FaultyBackend RevisionTree → List Revision → Prop where
  | done (s : Datastore FaultyBackend) : Ending d s [] (.ok (s.backend.memory.tree d), s) []
  | refused {s s' : Datastore FaultyBackend} {leaf : RevisionId} {rest : List RevisionId} {q : Int}
      {p : Revision} {e : DocumentError} (active : (s.backend.memory.tree d).ActiveAt q p)
      (named : p.id = leaf)
      (bad : (s.backend.memory.tree d).draft s.digest (some q) .empty .empty true = .error e)
      (told : s.Told s') : Ending d s (leaf :: rest) (.error e, s') []
  | stalled {s s' : Datastore FaultyBackend} {leaf : RevisionId} {rest : List RevisionId}
      {cause : StoreError} (moves : s.Moves s' d []) :
      Ending d s (leaf :: rest) (.error (.storage cause), s') []
  | ended {s s' : Datastore FaultyBackend} {leaf : RevisionId} {rest : List RevisionId}
      {o : Outcome FaultyBackend RevisionTree} {x : Revision} {chain : List Revision}
      (moves : s.Moves s' d [x]) (ends : (s.backend.memory.tree d).Ends leaf x)
      (tree : s'.backend.memory.tree d = ((s.backend.memory.tree d).link x).chooseWinner)
      (next : Ending d s' rest o chain) : Ending d s (leaf :: rest) o (x :: chain)

inductive Tombstone (s : Datastore FaultyBackend) (d : DocumentId) (leaf : RevisionId) :
    Except DocumentError (RevisionTree × InsertReport) × Datastore FaultyBackend → Prop where
  | refused {q : Int} {p : Revision} {e : DocumentError} {after : Datastore FaultyBackend}
      (active : (s.backend.memory.tree d).ActiveAt q p) (named : p.id = leaf)
      (bad : (s.backend.memory.tree d).draft s.digest (some q) .empty .empty true = .error e)
      (told : s.Told after) : Tombstone s d leaf (.error e, after)
  | stalled {cause : StoreError} {after : Datastore FaultyBackend} {b : FaultyBackend}
      (wrote : s.Wrote after b) (steady : b.Steady)
      (extended : s.backend.memory.Extends b.memory d []) :
      Tombstone s d leaf (.error (.storage cause), after)
  | stored {x : Revision} {report : InsertReport} {after : Datastore FaultyBackend}
      {b : FaultyBackend} (wrote : s.Wrote after b) (steady : b.Steady)
      (extended : s.backend.memory.Extends b.memory d [x])
      (ends : (s.backend.memory.tree d).Ends leaf x)
      (tree : b.memory.tree d = ((s.backend.memory.tree d).link x).chooseWinner) :
      Tombstone s d leaf (.ok (b.memory.tree d, report), after)

theorem Sound.tombstone (sound : s.Sound) (known : s.backend.memory.Knows d) {leaf : RevisionId}
    (live : (s.backend.memory.tree d).Live leaf) :
    Tombstone s d leaf ((s.backend.memory.tree d).tombstoneLeaf s.digest commit leaf s) := by
  obtain ⟨q, p, active, rfl⟩ := live
  have holds : (s.backend.memory.tree d).Holds (some q) := by
    rintro _ ⟨⟩
    exact ⟨p, active.1.1⟩
  obtain ⟨answer, after, b, ran, wrote, child⟩ :=
    sound.insertChild known holds s.digest .empty .empty true
  rw [RevisionTree.tombstoneActive (sound.kept.wellFormed d) active, ran]
  cases child with
  | refused bad => exact .refused active rfl bad wrote.told
  | stalled drafted steady idle => exact .stalled wrote steady (sound.kept.extendsIdle idle d)
  | @stored r b drafted steady extended tree fits =>
    obtain ⟨shape, _, _⟩ := RevisionTree.draftOk drafted
    have parent : (s.backend.memory.numbered r).parent = q := congrArg Revision.parent shape
    have content := And.intro (congrArg Revision.body shape) (congrArg Revision.attachments shape)
    exact .stored wrote steady extended
      ⟨fits, congrArg Revision.deleted shape, content, p, parent.symm ▸ active, rfl⟩ tree

theorem Wrote.placedBackend {b : FaultyBackend} (wrote : s.Wrote s' b)
    (told : (s'.keepTree (b.memory.tree d)).Told s'') : s''.backend = b :=
  told.backend.trans ((Alike.keepTree s' _).backend.trans wrote.backend)

theorem Wrote.next {b : FaultyBackend} {x : Revision} {leaf : RevisionId} {rest : List RevisionId}
    (wrote : s.Wrote s' b) (sound : s.Sound) (known : s.backend.memory.Knows d)
    (extended : s.backend.memory.Extends b.memory d [x])
    (ends : (s.backend.memory.tree d).Ends leaf x)
    (tree : b.memory.tree d = ((s.backend.memory.tree d).link x).chooseWinner)
    (told : (s'.keepTree (b.memory.tree d)).Told s'') (once : (leaf :: rest).Nodup)
    (live : ∀ id ∈ leaf :: rest, (s.backend.memory.tree d).Live id) :
    s''.backend.memory.Knows d ∧ rest.Nodup ∧
      ∀ id ∈ rest, (s''.backend.memory.tree d).Live id := by
  obtain ⟨absent, later⟩ := List.nodup_cons.mp once
  rw [wrote.placedBackend told]
  refine ⟨extended.knows known, later, ?_⟩
  intro id member
  rw [tree]
  refine (ends.live (sound.kept.wellFormed d)).mpr ⟨live id (List.mem_cons_of_mem _ member), ?_⟩
  rintro rfl
  exact absent member

theorem Sound.tombstoneAll (sound : s.Sound) (known : s.backend.memory.Knows d)
    {losers : List RevisionId} (once : losers.Nodup)
    (live : ∀ id ∈ losers, (s.backend.memory.tree d).Live id) :
    ∃ chain, Ending d s losers (s.tombstoneAll (s.backend.memory.tree d) losers) chain := by
  induction losers generalizing s with
  | nil => exact ⟨[], .done s⟩
  | cons leaf rest ih =>
    have tombstone := sound.tombstone known (live leaf List.mem_cons_self)
    unfold Datastore.tombstoneAll
    generalize (s.backend.memory.tree d).tombstoneLeaf s.digest commit leaf s = ran at tombstone
    cases tombstone with
    | @refused q p e after active named bad told =>
      have plain := RevisionTree.draftRecoverable bad
      exact ⟨[], .refused active named bad (told.trans (settleRecoverable after _ plain))⟩
    | stalled wrote steady extended =>
      exact ⟨[], .stalled (wrote.stalled sound steady extended _)⟩
    | @stored x report after b wrote steady extended ends tree =>
      have goOn (last : Datastore FaultyBackend)
          (told : (after.keepTree (b.memory.tree d)).Told last) :
          ∃ chain, Ending d s (leaf :: rest) (last.tombstoneAll (b.memory.tree d) rest) chain := by
        have moves := (wrote.placed sound steady extended).told told
        have memory := wrote.placedBackend told
        obtain ⟨known', once', live'⟩ := wrote.next sound known extended ends tree told once live
        obtain ⟨chain, next⟩ := ih moves.sound known' once' live'
        rw [memory] at next
        exact ⟨_, .ended moves ends (memory ▸ tree) next⟩
      exact goOn _ (.reportChanges _ _ _ _)

theorem Ending.moves {losers : List RevisionId} {o : Outcome FaultyBackend RevisionTree}
    {chain : List Revision} (ending : Ending d s losers o chain) (sound : s.Sound) :
    s.Moves o.2 d chain := by
  induction ending with
  | done s => exact (Told.refl s).moves sound d
  | refused active named bad told => exact told.moves sound d
  | stalled moves => exact moves
  | ended moves ends tree next ih => exact moves.trans (ih moves.sound)

structure Stopped (s s' : Datastore FaultyBackend) (d : DocumentId) (ended : List RevisionId)
    (leaf : RevisionId) (e : DocumentError) : Prop where
  live : ∀ id, (s'.backend.memory.tree d).Live id ↔
    (s.backend.memory.tree d).Live id ∧ id ∉ ended
  why : ∃ q p, (s'.backend.memory.tree d).ActiveAt q p ∧ p.id = leaf ∧
    (s'.backend.memory.tree d).draft s'.digest (some q) .empty .empty true = .error e
  alike : ended = [] → s.Alike s'

theorem Stopped.told {ended : List RevisionId} {leaf : RevisionId} {e : DocumentError}
    (stopped : s.Stopped s' d ended leaf e) (told : s'.Told s'') :
    s.Stopped s'' d ended leaf e := by
  obtain ⟨live, why, alike⟩ := stopped
  refine ⟨?_, ?_, fun none => (alike none).trans told.alike⟩
  · rw [told.backend]
    exact live
  · rw [told.backend, told.digest]
    exact why

theorem Stopped.movesFrom {ended : List RevisionId} {leaf : RevisionId} {e : DocumentError}
    (stopped : s'.Stopped s'' d ended leaf e) (alike : s.Alike s') :
    s.Stopped s'' d ended leaf e := by
  obtain ⟨live, why, same⟩ := stopped
  rw [alike.backend] at live
  exact ⟨live, why, fun none => alike.trans (same none)⟩

theorem Ending.refusal {losers : List RevisionId} {o : Outcome FaultyBackend RevisionTree}
    {chain : List Revision} {e : DocumentError} (ending : Ending d s losers o chain)
    (sound : s.Sound) (failed : o.1 = .error e) (plain : e.Recoverable) :
    ∃ ended leaf rest, losers = ended ++ leaf :: rest ∧ ended.length = chain.length ∧
      s.Stopped o.2 d ended leaf e := by
  induction ending with
  | done s => cases failed
  | @refused s s' leaf rest q p e' active named bad told =>
    cases failed
    have stopped : s.Stopped s d [] leaf e :=
      ⟨by simp, ⟨q, p, active, named, bad⟩, fun _ => (Told.refl s).alike⟩
    exact ⟨[], leaf, rest, rfl, rfl, stopped.told told⟩
  | @stalled _ _ _ _ cause moves =>
    cases failed
    exact absurd rfl (plain cause)
  | @ended s s' leaf rest o x chain moves ends tree next ih =>
    obtain ⟨front, refused, back, whole, length, stopped⟩ := ih moves.sound failed
    refine ⟨leaf :: front, refused, back, congrArg (leaf :: ·) whole, congrArg Nat.succ length,
      ⟨?_, stopped.why, fun none => by cases none⟩⟩
    intro id
    rw [stopped.live id, tree, ends.live (sound.kept.wellFormed d), List.mem_cons, not_or,
      and_assoc]

theorem Ending.finished {losers : List RevisionId} {o : Outcome FaultyBackend RevisionTree}
    {chain : List Revision} {t : RevisionTree} (ending : Ending d s losers o chain)
    (ok : o.1 = .ok t) : chain.length = losers.length := by
  induction ending with
  | done s => rfl
  | refused => cases ok
  | stalled => cases ok
  | ended moves ends tree next ih => exact congrArg Nat.succ (ih ok)

def losers (t : RevisionTree) (kept : RevisionId) : List RevisionId := t.liveIds.filter (· ≠ kept)

inductive Resolution (s : Datastore FaultyBackend) (document keep : String) :
    Outcome FaultyBackend Nat → Prop where
  | refused {e : DocumentError} {s' : Datastore FaultyBackend} (plain : e.Recoverable)
      (sound : s'.Sound) (alike : s.Alike s') : Resolution s document keep (.error e, s')
  | run {d : DocumentId} {kept : RevisionId} {s' last : Datastore FaultyBackend}
      {o : Outcome FaultyBackend RevisionTree} {chain : List Revision}
      (parsed : DocumentId.parse document = .ok d) (named : RevisionId.parse keep = .ok kept)
      (alike : s.Alike s') (sound : s'.Sound)
      (live : (s.backend.memory.tree d).Live kept)
      (ending : Ending d s' (losers (s.backend.memory.tree d) kept) o chain)
      (told : o.2.Told last) :
      Resolution s document keep
        (o.1.map fun _ => (losers (s.backend.memory.tree d) kept).length, last)

theorem Sound.resolveConflicts (sound : s.Sound) (document keep : String) :
    Resolution s document keep (s.resolveConflicts document keep) := by
  unfold Datastore.resolveConflicts
  cases parsed : DocumentId.parse document with
  | error e => exact .refused (DocumentId.parseRecoverable parsed) sound (Told.refl s).alike
  | ok d =>
    cases named : RevisionId.parse keep with
    | error e => exact .refused (RevisionId.parseRecoverable named) sound (Told.refl s).alike
    | ok kept =>
      have fetched := sound.treeOf d false
      dsimp only
      generalize s.treeOf d false = got at fetched
      cases fetched with
      | detached told absent bare =>
        exact .refused (fun cause same => by cases same) (sound.told told) told.alike
      | @kept s' sound' config digest backend known asked =>
        have same := knowSame (asked.resolve_left (by decide))
        have alike : s.Alike s' := ⟨config, digest, backend.trans same⟩
        have wf := sound'.kept.wellFormed d
        rw [okThen]
        split
        · exact .refused (fun cause same => by cases same) sound' alike
        · rename_i inside
          have live : (s'.backend.memory.tree d).Live kept :=
            (RevisionTree.memLive wf).mp (List.mem_map.mpr (by simpa using inside))
          have once : (losers (s'.backend.memory.tree d) kept).Nodup :=
            (RevisionTree.liveOnce wf).filter _
          obtain ⟨chain, ending⟩ := sound'.tombstoneAll known once fun id member =>
            (RevisionTree.memLive wf).mp (List.mem_of_mem_filter member)
          have answer (last : Datastore FaultyBackend → Datastore FaultyBackend)
              (told : ∀ after : Datastore FaultyBackend, after.Told (last after)) :
              Resolution s document keep
                ((s'.tombstoneAll (s'.backend.memory.tree d)
                  (losers (s'.backend.memory.tree d) kept)).andThen fun _ s =>
                    (.ok (losers (s'.backend.memory.tree d) kept).length, last s)) := by
            generalize s'.tombstoneAll (s'.backend.memory.tree d)
              (losers (s'.backend.memory.tree d) kept) = o at ending
            rw [alike.backend] at live ending ⊢
            obtain ⟨result, after⟩ := o
            cases result with
            | error e => exact .run parsed named alike sound' live ending (.refl after)
            | ok t => exact .run parsed named alike sound' live ending (told after)
          refine answer _ ?_
          intro after
          split
          · exact .refl after
          · exact .report after _ _

end RevForest.Datastore
