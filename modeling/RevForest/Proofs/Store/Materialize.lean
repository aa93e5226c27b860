import RevForest.Proofs.Store.AppendOnly

/-! A projection is completed from the copy that was stored before the revision was linked,
and a revision is read from the tree. The two differ in the current flag alone, which no
stored revision has: so they agree on all losers, and on the winner in all but that. -/
namespace RevForest

theorem Revision.Plain.settled {r : Revision} {t : RevisionTree} (plain : r.Plain t.key) :
    t.settled r = r := by
  obtain ⟨key, current, dirty, _⟩ := plain
  unfold RevisionTree.settled
  rw [← key]
  cases r
  cases current
  cases dirty
  rfl

namespace MemoryBackend
variable {m : MemoryBackend} {d : DocumentId} {r x : Revision} {q : Int}

theorem Kept.settled (kept : m.Kept) (member : r ∈ m.revisionsOf d) :
    (m.grown d).settled r = r :=
  Revision.Plain.settled ((kept.identity d).2.symm ▸ kept.plain d r member)

theorem Kept.flaggedNode (kept : m.Kept) (member : r ∈ m.revisionsOf d) :
    ∃ flag, (m.tree d).get? r.sequence = some { r with current := flag } := by
  have linked := kept.node.mpr ⟨r, member, rfl, kept.settled member⟩
  exact ⟨_, RevisionTree.chosenIff.mpr ⟨r, linked, rfl⟩⟩

theorem Kept.storedCopy (kept : m.Kept) (found : (m.tree d).get? q = some x) :
    { x with current := false } ∈ m.revisionsOf d := by
  obtain ⟨old, linked, rfl⟩ := RevisionTree.chosenIff.mp found
  obtain ⟨r, member, _, rfl⟩ := kept.node.mp linked
  have same : { (m.grown d).settled r with current := false } = r := kept.settled member
  exact same.symm ▸ member

theorem Kept.loads (kept : m.Kept) (member : r ∈ m.revisionsOf d) :
    m.loadRevision? d r.id = some r :=
  Revision.findId (kept.built (List.ne_nil_of_mem member)).apart member

end MemoryBackend

namespace Datastore
variable {s s' : Datastore FaultyBackend} {d : DocumentId} {document : String} {p w x : Revision}
  {q : Int}

structure CopiedPlain (s : Datastore FaultyBackend) (document : String) (p x : Revision) : Prop where
  read : (s.getRevision document p.id.text).1 = .ok x
  copied : (s.materialize p).1 = .ok { x with current := false }
  current : x.current = true ↔ ∃ w, (s.getDocument document).1 = .ok w ∧ w.id = p.id

theorem Sound.copiedPlain (sound : s.Sound) (parsed : DocumentId.parse document = .ok d)
    (found : (s.backend.memory.tree d).get? q = some x) (own : p.document = d) (id : p.id = x.id)
    (projected : p.isProjected = true) : s.CopiedPlain document p x := by
  subst own
  have wf := sound.kept.wellFormed p.document
  have member := sound.kept.storedCopy found
  have loaded : s.backend.memory.loadRevision? p.document p.id = some { x with current := false } :=
    id ▸ sound.kept.loads member
  have full : x.projection = none := (sound.kept.plain _ _ member).full
  refine ⟨?_, ?_, ?_⟩
  · have here := (wf.indexed p.id.text q).mpr ⟨x, found, by rw [id]⟩
    unfold getRevision
    rw [sound.answers parsed fun _ _ _ => rfl]
    unfold RevisionTree.find?
    rw [here, Option.bind_some, found]
  · obtain ⟨s', ran, _⟩ := materializesSteady sound.steady p
    rw [ran]
    unfold Revision.mutableCopy
    rw [if_pos projected, loaded]
    exact if_neg (by simp [Revision.isProjected, full])
  · rw [(sound.kept.crowned p.document).flagged.flag q x found]
    constructor
    · intro won
      exact ⟨x, (sound.shownCurrent parsed).mpr (RevisionTree.currentIff.mpr ⟨q, won, found⟩),
        id.symm⟩
    · intro winner
      obtain ⟨w, got, same⟩ := winner
      obtain ⟨k, won, there⟩ := RevisionTree.currentIff.mp ((sound.shownCurrent parsed).mp got)
      rw [wf.uniqueIds found there (id.symm.trans same.symm)]
      exact won

/-- A projection of the winner is completed, right away and after any steps, to what is read of its
revision but for the flag of the winner. -/
theorem copiedUnmarked (reachable : Reachable s) (got : s.getDocument document = (.ok w, s'))
    (fields : List String) :
    s.project document fields = (.ok (w.project fields), s') ∧ w.current = true ∧
      s'.CopiedPlain document (w.project fields) w ∧
      ∀ steps, ∃ x, (s'.run steps).2.CopiedPlain document (w.project fields) x := by
  have sound := reachable.sound
  obtain ⟨d, _, parsed, _⟩ := getOk got
  have shown := (sound.shownCurrent parsed).mp (congrArg Prod.fst got)
  have kindly : s.Kindly (s.getDocument document) := sound.kindlyRead document _
  rw [got] at kindly
  have sound' : s'.Sound := kindly.sound
  rw [← kindly.alike.backend] at shown
  obtain ⟨k, won, found⟩ := RevisionTree.currentIff.mp shown
  have own : w.document = d :=
    ((sound'.kept.wellFormed d).own k w found).2.2.1.trans (sound'.kept.document d)
  refine ⟨?_, ?_, sound'.copiedPlain parsed found own rfl rfl, ?_⟩
  · unfold project
    rw [got]
    rfl
  · exact ((sound'.kept.crowned d).flagged.flag k w found).mpr won
  · intro steps
    have asked : (s.step (.ask (.current document))).2 = s' := congrArg Prod.snd got
    have later := ((asked ▸ reachable.step (.ask (.current document))).run steps).sound
    have stored := (sound'.runAppends steps).stored d
    obtain ⟨flag, node⟩ := later.kept.flaggedNode (stored.subset (sound'.kept.storedCopy found))
    exact ⟨_, later.copiedPlain parsed node own rfl rfl⟩

theorem supersededCopied :
    ∃ w s', Sample.rooted.getDocument "d" = (.ok w, s') ∧ w.id = Sample.root.id ∧
      s'.CopiedPlain "d" (w.project ["k"]) w ∧
      ∃ x, (s'.run [.ask Sample.edit]).2.CopiedPlain "d" (w.project ["k"]) x ∧
        x.current = false := by
  have reachable : Reachable Sample.rooted := Sample.reachable [.ask (.force Sample.root [])]
  have winner : (Sample.rooted.getDocument "d").1.map (·.id) = .ok Sample.root.id := by
    decide +kernel
  have lost : (((Sample.rooted.getDocument "d").2.run [.ask Sample.edit]).2.getRevision "d"
      "1-a").1.map (·.current) = .ok false := by decide +kernel
  cases answer : (Sample.rooted.getDocument "d").1 with
  | error e =>
    rw [answer] at winner
    cases winner
  | ok w =>
    rw [answer] at winner
    have named : w.id = Sample.root.id := Except.ok.inj winner
    have got : Sample.rooted.getDocument "d" = (.ok w, (Sample.rooted.getDocument "d").2) :=
      Prod.ext answer rfl
    obtain ⟨_, _, now, later⟩ := copiedUnmarked reachable got ["k"]
    obtain ⟨x, copied⟩ := later [.ask Sample.edit]
    have read := copied.read
    rw [show (w.project ["k"]).id.text = "1-a" from congrArg RevisionId.text named] at read
    rw [read] at lost
    exact ⟨w, _, got, named, now, x, copied, Except.ok.inj lost⟩

/-- The winner is completed to a copy that is not current. -/
theorem winnerCopiedUnmarked :
    Reachable Sample.rooted ∧
      (Sample.rooted.project "d" []).1.map (fun p =>
        ((Sample.rooted.getRevision "d" p.id.text).1.map (·.current),
          (Sample.rooted.materialize p).1.map (·.current))) = .ok (.ok true, .ok false) :=
  ⟨Sample.reachable [.ask (.force Sample.root [])], by decide +kernel⟩

end Datastore
end RevForest
