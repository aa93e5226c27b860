import RevForest.Proofs.Store.Memory
import RevForest.Proofs.Tree.Forest

/-! What is stored one after the other, each revision under the sequence that comes next. This asks
nothing of what is stored already, nor of what comes: the sequences are the ones that follow,
and what was stored stays as it is. Where a chain fits the tree of its document, the tree of
what is stored then is the tree with the chain linked to it. -/
namespace RevForest

def following (q : Int) : Nat → List Int
  | 0 => []
  | n + 1 => (q + 1) :: following (q + 1) n

theorem memFollowing {q p : Int} {n : Nat} : p ∈ following q n ↔ q < p ∧ p ≤ q + n := by
  induction n generalizing q with
  | zero => simp [following]
  | succ n ih =>
    rw [following, List.mem_cons, ih]
    omega

theorem followingRises (q : Int) (n : Nat) : (following q n).Pairwise (· < ·) := by
  induction n generalizing q with
  | zero => exact .nil
  | succ n ih =>
    refine List.pairwise_cons.mpr ⟨?_, ih (q + 1)⟩
    intro p later
    exact (memFollowing.mp later).1

theorem lengthFollowing (q : Int) (n : Nat) : (following q n).length = n := by
  induction n generalizing q with
  | zero => rfl
  | succ n ih => exact congrArg Nat.succ (ih (q + 1))

theorem RevisionTree.freeFollowing {t : RevisionTree} {q : Int} {chain : List Revision} {n : Nat}
    (counted : 0 ≤ q) (unused : ∀ p, q < p → t.get? p = none) (length : chain.length = n) :
    t.FreeFor chain (following q n) where
  length := (lengthFollowing q n).trans length.symm
  positive _ member := lt_of_le_of_lt counted (memFollowing.mp member).1
  free p member := unused p (memFollowing.mp member).1
  once := (followingRises q n).imp ne_of_lt

namespace MemoryBackend
variable {m m' m'' : MemoryBackend} {rs rest : List Revision} {r : Revision} {d : DocumentId}

inductive Files : MemoryBackend → List Revision → MemoryBackend → Prop where
  | done (m : MemoryBackend) (keys : Dict DocumentId Int) (failNext : Bool) :
      Files m [] { m with keys, failNext }
  | store {m m' : MemoryBackend} {r : Revision} {rs : List Revision}
      (next : r.sequence = m.counter.highest + 1) (later : Files (m.append r) rs m') :
      Files m (r :: rs) m'

namespace Files

theorem refl (m : MemoryBackend) : m.Files [] m := .done m m.keys m.failNext

theorem idle (idle : m.Idle m') : m.Files [] m' := by
  obtain ⟨failNext, rfl⟩ := idle
  exact .done m m.keys failNext

theorem know (m : MemoryBackend) (d : DocumentId) : m.Files [] (m.know d) := by
  rw [knowShape]
  exact .done m _ m.failNext

theorem single (next : r.sequence = m.counter.highest + 1) : m.Files [r] (m.append r) :=
  .store next (.refl _)

theorem rekeyed {keys : Dict DocumentId Int} {failNext : Bool}
    (files : { m with keys, failNext }.Files rs m') : m.Files rs m' := by
  generalize start : { m with keys, failNext } = now at files
  induction files generalizing m with
  | done now keys failNext =>
    subst start
    exact .done m keys failNext
  | store next later ih =>
    subst start
    exact .store next (ih rfl)

theorem trans (first : m.Files rs m') (later : m'.Files rest m'') :
    m.Files (rs ++ rest) m'' := by
  induction first with
  | done m keys failNext => exact later.rekeyed
  | store next _ ih => exact .store next (ih later)

theorem counter (files : m.Files rs m') :
    m'.counter.highest = m.counter.highest + rs.length := by
  induction files with
  | done => simp
  | @store m m' r rs next later ih =>
    have here : (m.append r).counter.highest = r.sequence := rfl
    rw [ih, here, next, List.length_cons]
    omega

theorem sequences (files : m.Files rs m') :
    rs.map (·.sequence) = following m.counter.highest rs.length := by
  induction files with
  | done => rfl
  | @store m m' r rs next later ih =>
    have here : (m.append r).counter.highest = m.counter.highest + 1 := next
    rw [here] at ih
    rw [List.map_cons, List.length_cons, following, next, ih]

theorem rising (files : m.Files rs m') : rs.Pairwise fun a b => a.sequence < b.sequence :=
  List.pairwise_map.mp (files.sequences ▸ followingRises _ _)

theorem above (files : m.Files rs m') (member : r ∈ rs) :
    m.counter.highest < r.sequence ∧ r.sequence ≤ m'.counter.highest := by
  have listed : r.sequence ∈ following m.counter.highest rs.length :=
    files.sequences ▸ List.mem_map_of_mem member
  rw [files.counter]
  exact memFollowing.mp listed

theorem held (files : m.Files rs m') (held : m.Held) : m'.Held := by
  induction files with
  | done => exact ⟨held.counted, held.inside, held.listed⟩
  | store next later ih => exact ih (held.append (by omega))

theorem revisionsOf (files : m.Files rs m') (held : m.Held) (d : DocumentId) :
    m'.revisionsOf d = m.revisionsOf d ++ rs.filter (·.document = d) := by
  induction files with
  | done => exact (List.append_nil _).symm
  | @store m m' r rs next later ih =>
    have behind : m.counter.highest < r.sequence := by omega
    rw [ih (held.append behind), held.revisionsAppend (held.free behind)]
    by_cases own : d = r.document
    · simp [own]
    · simp [own, Ne.symm own]

theorem entries (files : m.Files rs m')
    (below : ∀ e ∈ m.revisions.entries, e.1 ≤ m.counter.highest) :
    m'.revisions.entries = m.revisions.entries ++ rs.map fun r => (r.sequence, r) := by
  induction files with
  | done => exact (List.append_nil _).symm
  | @store m m' r rs next later ih =>
    have last : (m.append r).revisions.entries = m.revisions.entries ++ [(r.sequence, r)] := by
      refine Dict.insertLast ?_
      intro e member
      have := below e member
      omega
    rw [ih, last, List.append_assoc]
    · rfl
    · intro e member
      have here : (m.append r).counter.highest = r.sequence := rfl
      rw [last] at member
      rcases List.mem_append.mp member with old | new
      · have := below e old
        omega
      · rw [List.mem_singleton.mp new, here]

theorem finds (files : m.Files rs m') (held : m.Held) {q : Int} :
    m'.revisions.find? q = some r ↔
      m.revisions.find? q = some r ∨ (r ∈ rs ∧ r.sequence = q) := by
  rw [(files.held held).foundIff, held.foundIff, files.revisionsOf held]
  simp [or_and_right]

end Files

theorem Files.extends {grown : RevisionTree} (files : m.Files rs m') (keys : m'.keys = m.keys)
    (kept : m.Kept) (known : m.Knows d) (grows : RevisionTree.Grows (m.grown d) rs grown)
    (plain : ∀ r ∈ rs, r.Plain (m.keyOf d)) : m.Extends m' d rs := by
  induction files with
  | done m keys failNext =>
    obtain rfl := keys
    exact kept.extendsIdle ⟨failNext, rfl⟩ d
  | @store m m' r rs next later ih =>
    cases grows with
    | cons fits rest =>
      have own : r.document = d := fits.document.trans (kept.identity d).1
      obtain ⟨here, others⟩ := List.forall_mem_cons.mp plain
      have first : m.Extends (m.append r) d [r] :=
        own ▸ kept.extendsAppend next (own.symm ▸ known) (own.symm ▸ fits) (own.symm ▸ here)
      have linked : (m.append r).grown d = (m.grown d).link r := first.grown
      exact first.trans (ih keys first.kept (first.knows known) (linked ▸ rest) others)

theorem Kept.stagedGrows (kept : m.Kept) {parent : Int} {chain : List Revision} {n : Nat}
    (staged : (m.grown d).Staged parent chain) (length : chain.length = n) :
    ∃ grown, RevisionTree.Grows (m.grown d)
      (RevisionTree.placed parent chain (following m.counter.highest n)) grown :=
  staged.grows (RevisionTree.freeFollowing kept.counted (fun _ => kept.noneAbove) length)

end MemoryBackend
end RevForest
