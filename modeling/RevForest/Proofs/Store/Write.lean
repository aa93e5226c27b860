import RevForest.Proofs.Store.Sound

/-! What the writes of a sound store come to. A write has the tree of its document, and
then it is refused, or an allocation stops it, or it is stored and the tree in the
cache is replaced; each time the store is sound again. Only a refusal is told with an
error that is no failure of storage. -/
namespace RevForest.Datastore
variable {s s' s'' : Datastore FaultyBackend} {d : DocumentId}

theorem commitSpares {β : Type} [Backend β] : (commit (β := β)).Spares
    fun s => (s.config, s.digest, s.cache) := by
  intro r s
  unfold commit call Outcome.andThen
  cases Backend.nextSequence s.backend with
  | mk given b =>
    cases given with
    | error cause => rfl
    | ok q =>
      simp only [count]
      cases Backend.persist (r.initializeSequence q).1 b with
      | mk stored b => cases stored <;> rfl

structure Wrote (s s' : Datastore FaultyBackend) (b : FaultyBackend) : Prop where
  config : s'.config = s.config
  digest : s'.digest = s.digest
  cache : s'.cache = s.cache
  backend : s'.backend = b

theorem wrote {b : FaultyBackend}
    (spared : (s'.config, s'.digest, s'.cache) = (s.config, s.digest, s.cache))
    (backend : s'.backend = b) : s.Wrote s' b := by
  simp only [Prod.mk.injEq] at spared
  exact ⟨spared.1, spared.2.1, spared.2.2, backend⟩

theorem Wrote.told (wrote : s.Wrote s' s.backend) : s.Told s' :=
  ⟨wrote.config, wrote.digest, wrote.backend, wrote.cache⟩

theorem Wrote.but {b : FaultyBackend} (wrote : s.Wrote s' b) (sound : s.Sound) (steady : b.Steady)
    {chain : List Revision} (extended : s.backend.memory.Extends b.memory d chain) :
    s'.SoundBut d := by
  obtain ⟨_, _, cache, rfl⟩ := wrote
  exact sound.extended steady cache extended

structure Moves (s s' : Datastore FaultyBackend) (d : DocumentId) (chain : List Revision) :
    Prop where
  sound : s'.Sound
  config : s'.config = s.config
  digest : s'.digest = s.digest
  extended : s.backend.memory.Extends s'.backend.memory d chain

theorem Alike.moves (alike : s.Alike s') (sound : s.Sound) (sound' : s'.Sound) (d : DocumentId) :
    s.Moves s' d [] where
  sound := sound'
  config := alike.config
  digest := alike.digest
  extended := by
    rw [alike.backend]
    exact sound.kept.extendsNothing d

theorem Told.moves (told : s.Told s') (sound : s.Sound) (d : DocumentId) : s.Moves s' d [] :=
  told.alike.moves sound (sound.told told) d

theorem Moves.trans {chain rest : List Revision} (first : s.Moves s' d chain)
    (later : s'.Moves s'' d rest) : s.Moves s'' d (chain ++ rest) where
  sound := later.sound
  config := later.config.trans first.config
  digest := later.digest.trans first.digest
  extended := first.extended.trans later.extended

theorem Moves.told {chain : List Revision} (moves : s.Moves s' d chain) (told : s'.Told s'') :
    s.Moves s'' d chain := by
  have both := moves.trans (told.moves moves.sound d)
  rwa [List.append_nil] at both

theorem Wrote.stalled {b : FaultyBackend} (wrote : s.Wrote s' b) (sound : s.Sound)
    (steady : b.Steady) {chain : List Revision}
    (extended : s.backend.memory.Extends b.memory d chain) (cause : StoreError) :
    s.Moves (s'.settle (s.backend.memory.tree d) (.storage cause)) d chain := by
  have but := wrote.but sound steady extended
  have key : (s.backend.memory.tree d).key = s'.backend.memory.keyOf d := by
    rw [wrote.backend, extended.keyOf]
    exact sound.kept.key d
  obtain ⟨settled, alike⟩ := but.settleStorage (sound.kept.document d) key cause
  refine ⟨settled, alike.config.trans wrote.config, alike.digest.trans wrote.digest, ?_⟩
  rw [alike.backend, wrote.backend]
  exact extended

theorem Wrote.placed {b : FaultyBackend} (wrote : s.Wrote s' b) (sound : s.Sound)
    (steady : b.Steady) {chain : List Revision}
    (extended : s.backend.memory.Extends b.memory d chain) :
    s.Moves (s'.keepTree (b.memory.tree d)) d chain := by
  have but := wrote.but sound steady extended
  have alike := Alike.keepTree s' (b.memory.tree d)
  refine ⟨?_, alike.config.trans wrote.config, alike.digest.trans wrote.digest, ?_⟩
  · have placed := but.keepTree
    rwa [wrote.backend] at placed
  · rw [alike.backend, wrote.backend]
    exact extended

theorem Sound.insertChild (sound : s.Sound) (known : s.backend.memory.Knows d)
    {parent : Option Int} (holds : (s.backend.memory.tree d).Holds parent) (digest : ContentDigest)
    (body : DocumentBody) (attachments : AttachmentMap) (deleted : Bool) :
    ∃ answer after b,
      (s.backend.memory.tree d).insertChild digest commit parent body attachments deleted s =
        (answer, after) ∧
      s.Wrote after b ∧
      FaultyBackend.ChildInsert s.backend d
        ((s.backend.memory.tree d).draft digest parent body attachments deleted) parent.isNone
        (answer, b) := by
  have child := sound.steady.insertChild sound.kept known holds digest body attachments deleted
  have seen := commitFollows.insertChild (s.backend.memory.tree d) digest parent body attachments
    deleted s
  have spared := commitSpares.insertChild (s.backend.memory.tree d) digest parent body attachments
    deleted s
  rw [← seen] at child
  exact ⟨_, _, _, rfl, wrote spared rfl, child⟩

theorem Alike.movesFrom {chain : List Revision} (alike : s.Alike s')
    (moves : s'.Moves s'' d chain) : s.Moves s'' d chain where
  sound := moves.sound
  config := moves.config.trans alike.config
  digest := moves.digest.trans alike.digest
  extended := alike.backend ▸ moves.extended

structure Refused (s s' : Datastore FaultyBackend) (d : DocumentId) : Prop where
  sound : s'.Sound
  alike : s.Alike s' ∨ (s.asked d).Alike s'

theorem Told.refused (told : s.Told s') (sound : s.Sound) (d : DocumentId) : s.Refused s' d :=
  ⟨sound.told told, .inl told.alike⟩

structure Edited (t : RevisionTree) (named : Option RevisionId) (deleted : Bool) (x : Revision) :
    Prop where
  fits : t.Fits x
  above : ∃ above, t.Extended named above ∧ x.parent = above.getD noParent
  status : x.deleted = deleted

inductive LocalEdit (s : Datastore FaultyBackend) (d : DocumentId) (named : Option RevisionId)
    (deleted : Bool) : Outcome FaultyBackend Revision → Prop where
  | refused {e : DocumentError} {s' : Datastore FaultyBackend} (plain : e.Recoverable)
      (refused : s.Refused s' d) : LocalEdit s d named deleted (.error e, s')
  | stalled {cause : StoreError} {s' : Datastore FaultyBackend}
      (moves : (s.asked d).Moves s' d []) :
      LocalEdit s d named deleted (.error (.storage cause), s')
  | stored {r x : Revision} {s' : Datastore FaultyBackend} (moves : (s.asked d).Moves s' d [x])
      (edited : Edited ((s.asked d).backend.memory.tree d) named deleted x)
      (tree : s'.backend.memory.tree d =
        (((s.asked d).backend.memory.tree d).link x).chooseWinner)
      (answer : (s'.backend.memory.tree d).get? x.sequence = some r) :
      LocalEdit s d named deleted (.ok r, s')

theorem linkedNode (t : RevisionTree) (x : Revision) :
    ∃ r, (t.link x).chooseWinner.get? x.sequence = some r := by
  have found := RevisionTree.getLink t x x.sequence
  rw [if_pos rfl] at found
  exact ⟨_, RevisionTree.chosenIff.mpr ⟨_, found, rfl⟩⟩

theorem Sound.localEdit (sound : s.Sound) (d : DocumentId) (parent : Option RevisionId)
    (body : DocumentBody) (attachments : Option AttachmentMap) (deleted : Bool) :
    LocalEdit s d parent deleted (s.localEdit d parent body attachments deleted) := by
  unfold Datastore.localEdit
  have fetched := sound.treeOf d parent.isNone
  generalize s.treeOf d parent.isNone = got at fetched
  cases fetched with
  | @detached s' told absent bare =>
    cases parent with
    | none => cases absent
    | some p =>
      have plain : (DocumentError.documentNotFound d.text (some p.text)).Recoverable :=
        fun cause same => by cases same
      exact .refused plain ((told.trans (settleRecoverable s' _ plain)).refused sound d)
  | @kept s' sound' config digest backend known _ =>
    have alike : (s.asked d).Alike s' := ⟨config, digest, backend⟩
    have kept := sound'.kept
    simp only [Outcome.andThen, RevisionTree.insertLocalEdit]
    cases named : (s'.backend.memory.tree d).editParent parent with
    | error e =>
      have plain := RevisionTree.editParentRecoverable named
      have told := settleRecoverable s' (s'.backend.memory.tree d) plain
      exact .refused plain ⟨sound'.told told, .inr (alike.trans told.alike)⟩
    | ok above =>
      have extends' := RevisionTree.editParentExtends (kept.wellFormed d) (kept.crowned d) named
      generalize attachments.getD _ = attachments
      obtain ⟨answer, after, b, ran, wrote, child⟩ :=
        sound'.insertChild known extends'.holds s'.digest body attachments deleted
      simp only [ran]
      cases child with
      | refused bad =>
        have plain := RevisionTree.draftRecoverable bad
        have told := wrote.told.trans (settleRecoverable after (s'.backend.memory.tree d) plain)
        exact .refused plain ⟨sound'.told told, .inr (alike.trans told.alike)⟩
      | stalled drafted steady idle =>
        have moves := wrote.stalled sound' steady (kept.extendsIdle idle d)
        exact .stalled (alike.movesFrom (moves _))
      | @stored r b drafted steady extended tree fits =>
        obtain ⟨x, found⟩ := linkedNode (s'.backend.memory.tree d) (s'.backend.memory.numbered r)
        rw [← tree] at found
        have answer : (b.memory.tree d).get? ((s'.backend.memory.tree d).childReport above.isNone
            (s'.backend.memory.numbered r)).sequence = some x := found
        simp only [answer]
        obtain ⟨shape, _, _⟩ := RevisionTree.draftOk drafted
        have edited : Edited (s'.backend.memory.tree d) parent deleted
            (s'.backend.memory.numbered r) :=
          ⟨fits, ⟨above, extends', congrArg Revision.parent shape⟩, congrArg Revision.deleted shape⟩
        have stored (last : Datastore FaultyBackend)
            (told : (after.keepTree (b.memory.tree d)).Told last) :
            LocalEdit s d parent deleted (.ok x, last) := by
          have moves := (wrote.placed sound' steady extended).told told
          have memory : last.backend = b :=
            told.backend.trans ((Alike.keepTree after _).backend.trans wrote.backend)
          refine .stored (alike.movesFrom moves) (alike.backend ▸ edited) ?_ ?_
          · rw [memory, ← alike.backend]
            exact tree
          · rw [memory]
            exact found
        exact stored _ ((Told.count _ _).trans ((Told.report _ _ _).trans (.reportChanges _ _ _ _)))

theorem Sound.insertForeign (sound : s.Sound) (known : s.backend.memory.Knows d) (r : Revision)
    (history : List RevisionId) :
    ∃ answer after b,
      (s.backend.memory.tree d).insertForeign commit r history s = (answer, after) ∧
      s.Wrote after b ∧
      FaultyBackend.ForeignCommit s.backend d ((s.backend.memory.tree d).planForeign r history)
        (answer, b) := by
  have foreign := sound.steady.insertForeign sound.kept known r history
  have seen := commitFollows.insertForeign (s.backend.memory.tree d) r history s
  have spared := commitSpares.insertForeign (s.backend.memory.tree d) r history s
  rw [← seen] at foreign
  exact ⟨_, _, _, rfl, wrote spared rfl, foreign⟩

inductive ForceInsert (s : Datastore FaultyBackend) (d : DocumentId) :
    Outcome FaultyBackend ForeignInsert → Prop where
  | refused {e : DocumentError} {s' : Datastore FaultyBackend} (plain : e.Recoverable)
      (refused : s.Refused s' d) : ForceInsert s d (.error e, s')
  | present {q : Int} {s' : Datastore FaultyBackend} (moves : (s.asked d).Moves s' d []) :
      ForceInsert s d (.ok (.alreadyPresent q), s')
  | stalled {cause : StoreError} {front : List Revision} {s' : Datastore FaultyBackend}
      (moves : (s.asked d).Moves s' d front) : ForceInsert s d (.error (.storage cause), s')
  | stored {report : InsertReport} {chain : List Revision} {s' : Datastore FaultyBackend}
      (moves : (s.asked d).Moves s' d chain) : ForceInsert s d (.ok (.inserted report), s')

theorem Sound.forceInsert (sound : s.Sound) (r : Revision) (history : List RevisionId) :
    ForceInsert s r.document (s.forceInsert r history) := by
  unfold Datastore.forceInsert
  dsimp only
  split
  · exact .refused (fun cause same => by cases same) ((Told.refl s).refused sound r.document)
  · have fetched := sound.treeOf r.document true
    generalize s.treeOf r.document true = got at fetched
    cases fetched with
    | detached told absent bare => cases absent
    | @kept s' sound' config digest backend known _ =>
      have alike : (s.asked r.document).Alike s' := ⟨config, digest, backend⟩
      obtain ⟨answer, after, b, ran, wrote, foreign⟩ := sound'.insertForeign known r history
      simp only [Outcome.andThen, ran]
      cases foreign with
      | refused bad =>
        have plain := FaultyBackend.planForeignRecoverable bad
        have told := wrote.told.trans
          (settleRecoverable after (s'.backend.memory.tree r.document) plain)
        exact .refused plain ⟨sound'.told told, .inr (alike.trans told.alike)⟩
      | present there =>
        have stored (last : Datastore FaultyBackend) (told : after.Told last) :=
          alike.movesFrom ((wrote.told.trans told).moves sound' r.document)
        exact .present (stored _ ((Told.count _ _).trans (.note _ _ _ _)))
      | stalled steady extended =>
        exact .stalled (alike.movesFrom (wrote.stalled sound' steady extended _))
      | stored missing steady length extended =>
        have stored (last : Datastore FaultyBackend)
            (told : (after.keepTree (b.memory.tree r.document)).Told last) :=
          alike.movesFrom ((wrote.placed sound' steady extended).told told)
        exact .stored (stored _
          ((Told.count _ _).trans ((Told.report _ _ _).trans (.reportChanges _ _ _ _))))

end RevForest.Datastore
