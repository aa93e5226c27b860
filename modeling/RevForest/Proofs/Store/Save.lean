import RevForest.Proofs.Store.Partial

/-! No edit is lost by a save. A copy of the winner is edited, or it has the winner's content; in
the one case its save fails or stores that content as a child of the winner, and in the other
it writes nothing. This holds on every backend that loads full revisions. -/
namespace RevForest

structure Backend.Honest {β : Type} [Backend β] (B : β → Prop) : Prop where
  asks : ∀ {α : Type} {act : β → Except StoreError α × β} {b : β}, Asks act → B b → B (act b).2
  allocates : ∀ {b : β}, B b → B (Backend.nextSequence b).2
  persists : ∀ {b : β} {r : Revision}, B b → B (Backend.persist r b).2
  full : ∀ {b b' : β} {d : DocumentId} {id : RevisionId} {y : Revision}, B b →
    Backend.loadRevision d id b = (.ok (some y), b') → y.projection = none

namespace Backend.Honest
variable {β : Type} [Backend β] {B : β → Prop}

theorem commits (honest : Honest B) (r : Revision) {b : β} (backend : B b) :
    B (Backend.commit r b).2 := by
  have allocated := honest.allocates backend
  unfold Backend.commit
  generalize Backend.nextSequence b = asked at allocated
  obtain ⟨answer, after⟩ := asked
  cases answer with
  | error cause => exact allocated
  | ok q =>
    have persisted := honest.persists (r := (r.initializeSequence q).1) allocated
    dsimp only at persisted ⊢
    generalize Backend.persist (r.initializeSequence q).1 after = stored at persisted
    obtain ⟨answer, last⟩ := stored
    cases answer <;> exact persisted

theorem vouches (honest : Honest B) : Backend.Vouches B fun _ y => y.projection = none where
  asks asks backend := honest.asks asks backend
  remains _ _ full := full
  loaded backend ran := honest.full backend ran
  commits _ backend := honest.commits _ backend
  outlasts _ _ full := full
  committed {b b' r y} asked _ ran := by
    rw [Commit.runNew _ asked.1] at ran
    generalize Backend.commit r b = o at ran
    obtain ⟨answer, after⟩ := o
    cases answer with
    | error e => cases ran
    | ok given =>
      cases ran
      exact asked.2

end Backend.Honest

theorem FaultyBackend.honest : Backend.Honest fun b : FaultyBackend => b.memory.Whole where
  asks asks whole := whole.turn (FaultyBackend.asksTurned asks)
  allocates {b} whole := whole.turn b.allocatesTurned
  persists {b r} whole := whole.turn (b.persistTurned r)
  full {b b' d id y} whole ran := by
    simp only [Backend.loadRevision] at ran
    split at ran
    · cases ran
    · cases ran
    · rename_i taken
      obtain ⟨answer, _⟩ := Prod.mk.inj ran
      rw [FaultyBackend.takenMemory taken] at answer
      have member := List.mem_of_find?_eq_some (Except.ok.inj answer)
      exact whole.full _ _ (whole.held.stored member).1

namespace RevisionTree
variable {C : Revision → Prop} {d : DocumentId} {t : RevisionTree} {w : Revision}

theorem Vouched.winner (vouched : t.Vouched C d) (current : t.current? = some w) :
    t.get? w.sequence = some w ∧ 0 < w.sequence := by
  obtain ⟨q, _, found⟩ := currentIff.mp current
  obtain ⟨own, positive, _⟩ := vouched.nodes q w found
  rw [own]
  exact ⟨found, positive⟩

theorem Vouched.editParent (vouched : t.Vouched C d) {p : RevisionId} {above : Option Int}
    (ok : t.editParent (some p) = .ok above) :
    ∃ w, t.current? = some w ∧ w.id = p ∧ above = some w.sequence := by
  unfold RevisionTree.editParent at ok
  dsimp only at ok
  split at ok
  · cases ok
  · rename_i known
    split at ok
    · rename_i bare
      rcases vouched.led with ⟨w, current⟩ | none
      · cases bare.symm.trans current
      · have unknown : t.contains p.text = false := (Dict.notContains _ _).mpr (none p.text)
        simp [unknown] at known
    · rename_i w current
      split at ok
      · rename_i same
        cases ok
        exact ⟨w, current, same, rfl⟩
      · cases ok

end RevisionTree

namespace Datastore
variable {β : Type} [Backend β] {s s' u : Datastore β} {d : DocumentId} {r x y : Revision}

theorem commitOk (new : r.sequence = unassigned) (ran : Commit.run commit r s = (.ok x, s')) :
    ∃ q b, Backend.nextSequence s.backend = (.ok q, b) ∧ x = { r with sequence := q } ∧
      Backend.persist x b = (.ok (), s'.backend) := by
  have seen := commitFollows.run r s
  rw [ran, Commit.runNew _ new] at seen
  unfold Backend.commit at seen
  cases given : Backend.nextSequence s.backend with
  | mk answer b =>
    rw [given] at seen
    cases answer with
    | error cause => cases seen
    | ok q =>
      cases stored : Backend.persist (r.initializeSequence q).1 b with
      | mk answer last =>
        simp only [stored] at seen
        cases answer with
        | error cause => cases seen
        | ok _ =>
          cases seen
          have assigned : (r.initializeSequence q).1 = { r with sequence := q } :=
            congrArg Prod.fst (if_pos new)
          rw [assigned] at stored
          exact ⟨q, b, rfl, rfl, stored⟩

theorem treeCached {t : RevisionTree} (own : t.document = d)
    (got : s.treeOf d false = (.ok t, u)) :
    u.cache.find? d = some t ∨ t = .empty d detachedKey := by
  unfold treeOf at got
  split at got
  · rename_i found
    cases got
    exact .inl found
  · obtain ⟨found, v, loaded, got⟩ := Outcome.andThenOk got
    split at got
    · cases got
      exact .inl (own ▸ foundCached v t)
    · cases got
      exact .inr rfl

structure ChildStored (r x y : Revision) (s' : Datastore β) : Prop where
  document : y.document = r.document
  body : y.body = x.body
  attachments : y.attachments = x.attachments
  deleted : y.deleted = x.deleted
  clean : y.dirty = false
  full : y.projection = none
  generation : y.generation = r.generation + 1
  persisted : ∃ b b', Backend.nextSequence b = (.ok y.sequence, b') ∧
    Backend.persist y.unflagged b' = (.ok (), s'.backend)
  linked : ∃ t, s'.treeOf y.document false = (.ok t, s') ∧ t.get? y.sequence = some y ∧
    t.parentId y.parent = some r.id

structure ChildLinked (s : Datastore β) (t : RevisionTree) (w x : Revision) (grown : RevisionTree)
    (s' : Datastore β) : Prop where
  winner : t.current? = some w
  parent : x.parent = w.sequence
  generation : x.generation = w.generation + 1
  full : x.projection = none
  settled : t.settled x = x
  fits : t.Fits x
  grown : grown = (t.link x).chooseWinner
  stored : ∃ b, Backend.nextSequence s.backend = (.ok x.sequence, b) ∧
    Backend.persist x b = (.ok (), s'.backend)

theorem childLinked {C : Revision → Prop} {t grown : RevisionTree} {p : RevisionId}
    {digest : ContentDigest} {body : DocumentBody} {attachments : AttachmentMap} {deleted : Bool}
    {report : InsertReport} (vouched : t.Vouched C d)
    (ran : t.insertLocalEdit digest commit (some p) body attachments deleted s =
      (.ok (grown, report), s')) :
    ∃ w x, s.ChildLinked t w x grown s' ∧ w.id = p ∧ report.sequence = x.sequence ∧
      x.body = body ∧ x.attachments = attachments ∧ x.deleted = deleted := by
  unfold RevisionTree.insertLocalEdit at ran
  split at ran
  · cases ran
  · rename_i above named
    obtain ⟨w, current, same, rfl⟩ := vouched.editParent named
    obtain ⟨r, x, drafted, committed, placed⟩ := RevisionTree.insertChildOk ran
    obtain ⟨shape, _, next⟩ := RevisionTree.draftOk drafted
    obtain ⟨fits, grown, sequence⟩ := RevisionTree.placeOk placed
    obtain ⟨new, full⟩ := RevisionTree.draftUncommitted drafted
    obtain ⟨q, b, given, same', stored⟩ := commitOk new committed
    have generation := (next w (vouched.winner current).1).symm
    rw [shape] at same'
    subst same'
    let x := { t.child (some w.sequence) body attachments deleted r.id with sequence := q }
    exact ⟨w, x, ⟨current, rfl, generation, rfl, rfl, fits, grown, b, given, stored⟩, same,
      sequence, rfl, rfl, rfl⟩

theorem ChildLinked.found {C : Revision → Prop} {t grown : RevisionTree} {w : Revision}
    (linked : s.ChildLinked t w x grown s') (vouched : t.Vouched C d) :
    ∃ current, grown.get? x.sequence = some { x with current } ∧
      grown.parentId x.parent = some w.id := by
  obtain ⟨below, positive⟩ := vouched.winner linked.winner
  have other : w.sequence ≠ x.sequence := by
    intro same
    have free := linked.fits.freeSequence
    rw [← same, below] at free
    cases free
  have node : (t.link x).get? x.sequence = some x := by
    rw [RevisionTree.getLink, if_pos rfl, linked.settled]
  have above : (t.link x).get? w.sequence = some w := by
    rw [RevisionTree.getLink, if_neg other, below]
  rw [linked.grown]
  refine ⟨_, RevisionTree.chosenIff.mpr ⟨x, node, rfl⟩, ?_⟩
  unfold RevisionTree.parentId
  rw [linked.parent, if_pos positive, RevisionTree.chosenIff.mpr ⟨w, above, rfl⟩]
  rfl

theorem keptRead {t grown : RevisionTree} {v : Datastore β} (own : grown.document = d)
    (there : v.cache.find? d = some t) (quiet : (v.keepTree grown).Quiet s') :
    s'.treeOf d false = (.ok grown, s') := by
  have found : s'.cache.find? d = some grown := by
    rw [quiet.cache, ← own]
    exact foundKept (own ▸ there)
  unfold treeOf
  rw [found]

theorem readGrown {t grown : RevisionTree} {w : Revision} {v : Datastore β}
    (linked : u.ChildLinked t w x grown v) (own : t.document = d)
    (got : s.treeOf d false = (.ok t, u)) (spared : v.cache = u.cache)
    (quiet : (v.keepTree grown).Quiet s') :
    s'.backend = v.backend ∧ s'.treeOf d false = (.ok grown, s') := by
  have grew : grown.document = d := by
    rw [linked.grown]
    exact own
  have there : v.cache.find? d = some t := by
    rcases treeCached own got with found | rfl
    · rw [spared, found]
    · cases linked.winner
  exact ⟨quiet.backend.trans (keepTreeBackend v grown), keptRead grew there quiet⟩

abbrev Full (B : β → Prop) (s : Datastore β) : Prop :=
  s.Upholds (fun b _ => B b) fun _ d t => t.Vouched (fun y => y.projection = none) d

theorem savedChild {B : β → Prop} (honest : Backend.Honest B) (upholds : s.Full B)
    (made : x.From r) (full : x.projection = none) (dirty : x.dirty = true)
    (named : x.attachments.Named) (saved : s.saveRevision x = (.ok y, s')) :
    ChildStored r x y s' := by
  have unprojected : ¬ x.isProjected = true := by simp [Revision.isProjected, full]
  unfold saveRevision at saved
  rw [if_neg unprojected, if_neg (by simp [dirty])] at saved
  obtain ⟨t, u, got, ran⟩ := Outcome.andThenOk saved
  have laws := honest.vouches.writes.toReads
  have vouched := (upholds.treeOf laws x.document false).answer t (congrArg Prod.fst got)
  dsimp only [Option.getD_some] at ran
  rw [AttachmentMap.ofRecordsNamed named] at ran
  have spared := (commitSpares.keeps u).insertLocalEdit t u.digest (some x.id) x.body x.attachments
    x.deleted (fun _ _ _ => trivial) rfl
  split at ran
  · cases ran
  · rename_i grown report v inserted
    obtain ⟨w, child, linked, parent, sequence, body, attachments, deleted⟩ :=
      childLinked vouched inserted
    obtain ⟨current, found, below⟩ := linked.found vouched
    rw [inserted] at spared
    rw [sequence, found] at ran
    obtain ⟨answer, reported⟩ := Prod.mk.inj ran
    have quiet : (v.keepTree grown).Quiet s' := by
      rw [← reported]
      exact .changed _ (by decide) _ _ _ _ _
    obtain ⟨backend, read⟩ := readGrown linked vouched.document got (congrArg (·.2.2) spared) quiet
    have document := linked.fits.document.trans vouched.document
    have above := parent.trans made.id
    -- The child is answered with its flag as winner, and was stored before it had one.
    have unflagged : ({ child with current } : Revision).unflagged = child := by
      rw [← linked.settled]
      rfl
    obtain ⟨b, given, stored⟩ := linked.stored
    cases answer
    refine ⟨document.trans made.document, body, attachments, deleted,
      (congrArg Revision.dirty linked.settled).symm, linked.full, ?_, ⟨_, b, given, ?_⟩, grown, ?_,
      found, ?_⟩
    · exact linked.generation.trans (by rw [Revision.generation, above]; rfl)
    · rw [unflagged, backend]
      exact stored
    · exact document ▸ read
    · exact above ▸ below

structure Saved (r x : Revision) (s : Datastore β) : Prop where
  changed : x.body ≠ r.body ∨ x.attachments ≠ r.attachments → x.dirty = true
  edited : x.dirty = true →
    (∃ e s', s.saveRevision x = (.error e, s')) ∨
      ∃ y s', s.saveRevision x = (.ok y, s') ∧ ChildStored r x y s'
  unedited : x.dirty = false → x.body = r.body ∧ x.attachments = r.attachments ∧
    ∃ s', s.saveRevision x = (.ok x, s') ∧ s.Quiet s'

theorem Full.saved {B : β → Prop} (honest : Backend.Honest B) (upholds : s.Full B)
    (made : x.From r) (full : x.projection = none) (named : x.attachments.Named) :
    Saved r x s := by
  constructor
  case changed =>
    intro other
    by_contra clean
    obtain ⟨body, attachments⟩ := made.same full (Bool.eq_false_iff.mpr clean)
    exact other.elim (· body) (· attachments)
  case edited =>
    intro dirty
    cases saved : s.saveRevision x with
    | mk answer s' =>
      cases answer with
      | error e => exact .inl ⟨e, s', rfl⟩
      | ok y => exact .inr ⟨y, s', rfl, savedChild honest upholds made full dirty named saved⟩
  case unedited =>
    intro clean
    obtain ⟨body, attachments⟩ := made.same full clean
    have unprojected : ¬ x.isProjected = true := by simp [Revision.isProjected, full]
    have ran : s.saveRevision x = (.ok x, s.note .trace .noopSave
        [("document_id", x.document.text), ("revision_id", x.id.text)]) := by
      unfold saveRevision
      rw [if_neg unprojected, if_pos (by simp [clean])]
    exact ⟨body, attachments, _, ran, .note s _ _ _⟩

theorem Full.winner {B : β → Prop} (honest : Backend.Honest B) (upholds : s.Full B)
    {document : String} (ran : s.getDocument document = (.ok r, s')) :
    r.dirty = false ∧ r.projection = none := by
  obtain ⟨d, t, _, got, current⟩ := getOk ran
  have laws := honest.vouches.writes.toReads
  have vouched := (upholds.treeOf laws d false).answer t (congrArg Prod.fst got)
  obtain ⟨_, _, _, y, full, _, _, rfl⟩ := vouched.nodes _ r (vouched.winner current).1
  exact ⟨rfl, full⟩

/-- A winner to copy and to edit: its copies are apart, and each is saved if it was edited. -/
structure KeepsEdits (B : β → Prop) (s₀ : Datastore β) (r : Revision) : Prop where
  clean : r.dirty = false
  copied : ∀ source, r.mutableCopy source = .ok r
  apart : ∀ before after j x, ((Desk.of r).run before).values[j]? = some x →
    ((Desk.of r).run (before ++ after)).values[j]? =
      some ((after.filterMap (Command.own j)).foldl Revision.edited x)
  saved : ∀ commands, (∀ command ∈ commands, command.Named) →
    ∀ x ∈ ((Desk.of r).run commands).values, x.projection = none →
      ∀ s, s₀.Later (fun _ b => B b) s → Saved r x s

theorem savesKeepEdits {B : β → Prop} (honest : Backend.Honest B) {b₀ b : β} (backend : B b₀)
    {config : DatastoreConfig} {digest : ContentDigest} {log log' : Log} {s₀ : Datastore β}
    (opens : connect config digest b₀ log = (.ok s₀, b, log'))
    (later : s₀.Later (fun _ b => B b) s) {document : String}
    (winner : s.getDocument document = (.ok r, s')) (named : r.attachments.Named) :
    KeepsEdits B s₀ r := by
  have laws := honest.vouches.writes
  have start : s₀.Full B := .opened (n := 0) laws.toReads id backend opens
  have upholds {s : Datastore β} (later : s₀.Later (fun _ b => B b) s) : s.Full B :=
    start.later laws id (fun moved _ => moved) (fun _ _ vouched => vouched) later
  obtain ⟨clean, full⟩ := (upholds later).winner honest winner
  constructor
  case clean => exact clean
  case copied => exact fun source => if_neg (by simp [Revision.isProjected, full])
  case apart =>
    intro before after j x found
    have owned := (Desk.valuesRun r before).1
    unfold Desk.run at owned found ⊢
    rw [List.foldl_append]
    exact owned.apart found after
  case saved =>
    intro commands given x member whole s later
    exact (upholds later).saved honest (Desk.allFrom member) whole
      (Desk.allNamed named given member)

namespace Sample

def note : Attachment := ⟨"a", "text/plain", 1, "", 1, none⟩

def reading : Revision := (holding.getDocument "d").1.toOption.getD root

-- A copy is edited, and a copy of that copy loses the edit again.
def copied : List Command :=
  [.copy 0, .edit 1 (.change (.put note)), .copy 1, .edit 2 (.change .clear), .copy 0]

theorem read : ∃ s', holding.getDocument "d" = (.ok reading, s') := by
  have answered : (holding.getDocument "d").1.toOption.isSome = true := by decide +kernel
  unfold reading
  generalize holding.getDocument "d" = o at answered
  obtain ⟨answer, after⟩ := o
  cases answer with
  | error e => cases answered
  | ok r => exact ⟨after, rfl⟩

theorem copiedNamed : ∀ command ∈ copied, command.Named := by
  simp [copied, Command.Named]

end Sample

theorem noteSaved :
    Sample.reading.attachments.Named ∧ (∀ command ∈ Sample.copied, command.Named) ∧
      ∃ x z, ((Desk.of Sample.reading).run Sample.copied).values[1]? = some x ∧
        ((Desk.of Sample.reading).run Sample.copied).values[3]? = some z ∧
          (∃ y s', Sample.holding.saveRevision x = (.ok y, s') ∧
            ChildStored Sample.reading x y s' ∧ y.attachments.toRecords = [Sample.note]) ∧
          ∃ s', Sample.holding.saveRevision z = (.ok z, s') ∧ Sample.holding.Quiet s' := by
  obtain ⟨s', read⟩ := Sample.read
  have bare : Sample.reading.attachments = .empty := by decide +kernel
  have named : Sample.reading.attachments.Named := bare ▸ AttachmentMap.emptyNamed
  have later : (Sample.store 2).Later (fun _ b => b.memory.Whole) Sample.holding := .serve .now _
  have blank : MemoryBackend.Blank .empty := ⟨le_rfl, rfl, rfl⟩
  have opens : connect (Sample.store 2).config Sample.digest (.ofMemory .empty) Log.empty =
      (.ok (Sample.store 2), _, _) := rfl
  have keeps := savesKeepEdits FaultyBackend.honest blank.whole opens later read named
  have one : (((Desk.of Sample.reading).run Sample.copied).values[1]?).map
      (fun x => (x.dirty, x.projection, x.attachments.toRecords,
        (Sample.holding.saveRevision x).1.toOption.isSome)) =
        some (true, none, [Sample.note], true) := by
    decide +kernel
  have three : (((Desk.of Sample.reading).run Sample.copied).values[3]?).map
      (fun z => (z.dirty, z.projection)) = some (false, none) := by
    decide +kernel
  obtain ⟨x, found, same⟩ := Option.map_eq_some_iff.mp one
  obtain ⟨dirty, full, records, stored⟩ : x.dirty = true ∧ x.projection = none ∧
      x.attachments.toRecords = [Sample.note] ∧
        (Sample.holding.saveRevision x).1.toOption.isSome = true := by
    simpa only [Prod.mk.injEq] using same
  obtain ⟨z, there, same⟩ := Option.map_eq_some_iff.mp three
  obtain ⟨clean, whole⟩ : z.dirty = false ∧ z.projection = none := by
    simpa only [Prod.mk.injEq] using same
  have edited := keeps.saved Sample.copied Sample.copiedNamed x (List.mem_of_getElem? found) full
    _ later
  have unedited := keeps.saved Sample.copied Sample.copiedNamed z (List.mem_of_getElem? there) whole
    _ later
  refine ⟨named, Sample.copiedNamed, x, z, found, there, ?_, (unedited.unedited clean).2.2⟩
  rcases edited.edited dirty with ⟨e, s', failed⟩ | ⟨y, s', ran, child⟩
  · rw [failed] at stored
    cases stored
  · exact ⟨y, s', ran, child, child.attachments ▸ records⟩

end Datastore
end RevForest
