import RevForest.Proofs.Store.Interrupted

/-! The sequences of a whole run on a memory that was new. The revisions of all documents together
stand under one, two, three and so on: no number is left out by a failure or a refusal, and
none is given twice. Parents are numbered before their children, also within one insert. -/
namespace RevForest

namespace RevisionTree

theorem placedFirst {parent q : Int} {chain : List Revision} {n : Nat} {x : Revision}
    (first : x ∈ (placed parent chain (following q n)).head?) :
    x.parent = parent ∧ x.sequence = q + 1 := by
  cases chain with
  | nil => cases first
  | cons r rest =>
    cases n with
    | zero => cases first
    | succ n =>
      cases first
      exact ⟨rfl, rfl⟩

theorem placedLinks (parent q : Int) (chain : List Revision) (n : Nat) :
    (placed parent chain (following q n)).IsChain fun a b =>
      b.parent = a.sequence ∧ b.sequence = a.sequence + 1 := by
  induction chain generalizing parent q n with
  | nil => exact .nil
  | cons r rest ih =>
    cases n with
    | zero => exact .nil
    | succ n => exact List.isChain_cons.mpr ⟨fun x first => placedFirst first, ih (q + 1) (q + 1) n⟩

end RevisionTree

namespace MemoryBackend
variable {m m' : MemoryBackend} {rs : List Revision} {d : DocumentId} {r : Revision}

theorem Kept.parentEarlier (kept : m.Kept) (member : r ∈ m.revisionsOf d) (child : 0 < r.parent) :
    ∃ p ∈ m.revisionsOf d, p.sequence = r.parent ∧ p.sequence < r.sequence := by
  have grows := kept.forest d
  have rising := kept.rising d
  obtain ⟨front, back, whole⟩ := List.append_of_mem member
  rw [whole] at grows rising ⊢
  obtain ⟨u, before, later⟩ := RevisionTree.growsAppend.mp grows
  cases later with
  | cons fits next =>
    obtain ⟨x, found, _⟩ := fits.parent child
    rcases (RevisionTree.getGrows before).mp found with empty | ⟨p, inside, own, _⟩
    · cases empty
    · have earlier := (List.pairwise_append.mp rising).2.2 p inside r List.mem_cons_self
      exact ⟨p, List.mem_append_left _ inside, own, earlier⟩

theorem Files.fromBlank (files : m.Files rs m') (blank : m.Blank) :
    m'.revisions.entries = rs.map (fun r => (r.sequence, r)) ∧
      ∀ d, m'.revisionsOf d = rs.filter (·.document = d) := by
  constructor
  · have bare : m.revisions.entries = [] := congrArg Dict.entries blank.revisions
    rw [files.entries (bare ▸ List.forall_mem_nil _), bare, List.nil_append]
  · intro d
    rw [files.revisionsOf blank.kept.held, blank.bare, List.nil_append]

theorem changesAll (entries : m.revisions.entries = rs.map fun r => (r.sequence, r))
    (positive : ∀ r ∈ rs, 0 < r.sequence) : m.changesSince 0 = rs := by
  have first : (if (0 : Int) < maxSequence then (0 : Int) + 1 else maxSequence) = 1 := by decide
  have whole : m.revisions.entries.filter (fun e => (1 : Int) ≤ e.1) = m.revisions.entries := by
    rw [entries, List.filter_eq_self]
    intro e member
    obtain ⟨r, inside, rfl⟩ := List.mem_map.mp member
    exact decide_eq_true (positive r inside)
  unfold changesSince
  dsimp only
  rw [first, whole, entries]
  simp [Function.comp_def]

end MemoryBackend

namespace Datastore
variable {s s' : Datastore FaultyBackend} {rs : List Revision}

theorem Opened.start (opened : s.Opened) :
    s.backend.memory.Blank ∧ s.metrics.sequencesAllocated = 0 := by
  obtain ⟨config, digest, b, log, steady, blank, ok⟩ := opened
  unfold connect at ok
  cases checked : config.validate with
  | error cause =>
    rw [checked] at ok
    cases ok
  | ok _ =>
    rw [checked] at ok
    dsimp only at ok
    rw [steady.lastSequence] at ok
    cases ok
    exact ⟨blank, rfl⟩

structure Numbered (s : Datastore FaultyBackend) (rs : List Revision) : Prop where
  sequences : rs.map (·.sequence) = following 0 rs.length
  once : rs.Pairwise fun a b => a.sequence < b.sequence
  entries : s.backend.memory.revisions.entries = rs.map fun r => (r.sequence, r)
  documents : ∀ d, s.backend.memory.revisionsOf d = rs.filter (·.document = d)
  count : s.backend.memory.revisionCount = rs.length
  last : s.lastSequence.1 = .ok (rs.length : Int)
  changes : s.backend.memory.changesSince 0 = rs
  parents : ∀ r ∈ rs, 0 < r.parent →
    ∃ p ∈ rs, p.document = r.document ∧ p.sequence = r.parent ∧ p.sequence < r.sequence

theorem Sound.numbered {m : MemoryBackend} (sound : s.Sound) (blank : m.Blank)
    (fresh : m.counter.highest = 0) (files : m.Files rs s.backend.memory) : s.Numbered rs := by
  obtain ⟨entries, documents⟩ := files.fromBlank blank
  have sequences : rs.map (·.sequence) = following 0 rs.length := fresh ▸ files.sequences
  have counted : s.backend.memory.counter.highest = rs.length := by
    simpa [fresh] using files.counter
  constructor
  case sequences => exact sequences
  case once => exact files.rising
  case entries => exact entries
  case documents => exact documents
  case count =>
    unfold MemoryBackend.revisionCount Dict.size
    rw [entries, List.length_map]
  case last =>
    unfold lastSequence call
    rw [sound.steady.lastSequence, MemoryBackend.lastCounted, counted]
  case changes =>
    refine MemoryBackend.changesAll entries ?_
    intro r member
    exact fresh ▸ (files.above member).1
  case parents =>
    intro r member child
    have stored : r ∈ s.backend.memory.revisionsOf r.document := by
      rw [documents]
      exact List.mem_filter.mpr ⟨member, decide_eq_true rfl⟩
    obtain ⟨p, inside, own, earlier⟩ := sound.kept.parentEarlier stored child
    rw [documents] at inside
    obtain ⟨inside, same⟩ := List.mem_filter.mp inside
    exact ⟨p, inside, of_decide_eq_true same, own, earlier⟩

/-- What a foreign insert stored: ids of its path without a gap, the oldest first, each revision
numbered right after its parent. -/
structure Lineage (r : Revision) (history : List RevisionId) (chain : List Revision) : Prop where
  documents : ∀ x ∈ chain, x.document = r.document
  ids : chain.map (·.id) <:+: (RevisionTree.pathOf r.id history).reverse
  links : chain.IsChain fun a b => b.parent = a.sequence ∧ b.sequence = a.sequence + 1

theorem firstLineage {t : RevisionTree} {r : Revision} {history : List RevisionId}
    {known : Option Int} {chain : List Revision} {n : Nat} {b : FaultyBackend}
    (missing : t.planForeign r history = .ok (.missing known chain)) (short : n ≤ chain.length) :
    Lineage r history (b.firstOf (known.getD noParent) chain n) := by
  refine ⟨fun x member => firstDocument missing member, ?_, RevisionTree.placedLinks _ _ _ _⟩
  obtain ⟨_, _, descends, shape⟩ := RevisionTree.planForeignIff.mp missing
  obtain ⟨new, rest, cut⟩ := RevisionTree.planCut descends.1 shape.symm
  have length : (following b.memory.counter.highest n).length = (chain.take n).length := by
    rw [lengthFollowing, List.length_take, min_eq_left short]
  unfold FaultyBackend.firstOf
  rw [RevisionTree.placedIds length, List.map_take, cut.ids, cut.whole, List.reverse_append]
  exact (List.take_prefix _ _).isInfix.trans (List.suffix_append _ _).isInfix

theorem Sound.forceFiles (sound : s.Sound) (r : Revision) (history : List RevisionId) :
    ∃ chain, s.backend.memory.Files chain (s.forceInsert r history).2.backend.memory ∧
      Lineage r history chain := by
  have steady := sound.steady
  have held := sound.kept.held
  have forced := forced steady held r history
  generalize s.forceInsert r history = o at forced ⊢
  cases forced with
  | nothing files plain => exact ⟨[], files, fun x none => (by cases none), List.nil_infix, .nil⟩
  | stalled had missing short wrote steady' keys files =>
    exact ⟨_, (filedHad steady held had).stalled wrote steady' files _ _,
      firstLineage missing short.le⟩
  | stored had missing plain files =>
    have whole := (filedHad steady held had).files.trans files
    rw [List.nil_append] at whole
    exact ⟨_, whole, firstLineage missing le_rfl⟩

/-- After any run on a new memory the stored revisions are numbered from one on, and each foreign
insert goes on with the numbers that follow. -/
theorem runGapless (opened : s.Opened) (fresh : s.backend.memory.counter.highest = 0)
    (steps : List Step) :
    ∃ rs, (s.run steps).2.Numbered rs ∧
      ((∀ step ∈ steps, step.opens = false) →
        (s.run steps).2.metrics.read .sequencesAllocated = rs.length) ∧
      ∀ r history, ∃ chain, Lineage r history chain ∧
        ((s.run steps).2.forceInsert r history).2.Numbered (rs ++ chain) := by
  obtain ⟨blank, zero⟩ := opened.start
  have sound := ((Reachable.opened opened).run steps).sound
  obtain ⟨rs, files, allocated⟩ := opened.sound.runCounts steps
  refine ⟨rs, sound.numbered blank fresh files, ?_, ?_⟩
  · intro stays
    have counted := allocated stays
    rwa [zero, Nat.zero_add] at counted
  · intro r history
    obtain ⟨chain, more, lineage⟩ := sound.forceFiles r history
    have after : ((s.run steps).2.forceInsert r history).2.Sound :=
      (sound.serve (.force r history)).sound
    exact ⟨chain, lineage, after.numbered blank fresh (files.trans more)⟩

namespace Sample

-- A root, and three edits of it: the first one gets no sequence, and the last one is refused.
def lossy : List Step :=
  [.ask (.force root []), .failNext, .ask (.update "d" "1-a" .empty),
    .ask (.update "d" "1-a" .empty), .ask (.update "d" "1-a" .empty)]

end Sample

theorem lossyGapless :
    ((Sample.store 2).run Sample.lossy).1.map Except.isOk = [true, false, true, false] ∧
      ∃ rs, ((Sample.store 2).run Sample.lossy).2.Numbered rs ∧ rs.length = 2 ∧
        ((Sample.store 2).run Sample.lossy).2.metrics.read .sequencesAllocated = 2 := by
  obtain ⟨rs, numbered, allocated, _⟩ :=
    runGapless (Sample.opened 2 (by decide)) rfl Sample.lossy
  have two : ((Sample.store 2).run Sample.lossy).2.backend.memory.revisionCount = 2 := by
    decide +kernel
  have length : rs.length = 2 := numbered.count.symm.trans two
  exact ⟨by decide +kernel, rs, numbered, length, (allocated (by decide)).trans length⟩

end Datastore
end RevForest
