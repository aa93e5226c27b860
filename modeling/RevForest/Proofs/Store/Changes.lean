import Mathlib.Data.List.Sort
import RevForest.Proofs.Store.Bookkeeping
import RevForest.Proofs.Tree.Clash

/-! What a tree or a memory lists above a bound. A reader that goes on from the last revision that
it was given gets each revision once and misses none, for the bound moves up by one before it is
compared. At the largest sequence it cannot move: a revision there is listed above itself, and to
a reader that goes on from it again and again. -/
namespace RevForest

structure Feed where
  all : List Revision
  after : Int → List Revision

def RevisionTree.feed (t : RevisionTree) : Feed := ⟨t.revisions, t.since⟩

def MemoryBackend.feed (m : MemoryBackend) : Feed := ⟨m.revisions.values, m.changesSince⟩

namespace Feed
variable {f g : Feed} {n q : Int} {l : Revision}

def sequences (f : Feed) : List Int := f.all.map (·.sequence)

def listed (f : Feed) (n : Int) : List Int := (f.after n).map (·.sequence)

inductive Source : Feed → Prop where
  | tree {document : DocumentId} {key : Int} {t : RevisionTree}
      (made : RevisionTree.Made document key t) : Source t.feed
  | memory (calls : List MemoryCall) : Source ((MemoryBackend.empty).run calls).2.feed

def first (n : Int) : Int := if n < maxSequence then n + 1 else maxSequence

structure Chooses (f : Feed) : Prop where
  rising : f.sequences.Pairwise (· < ·)
  chosen : ∀ n, f.after n = f.all.filter fun r => first n ≤ r.sequence

theorem treeChooses {t : RevisionTree} (inPlace : t.InPlace) : t.feed.Chooses where
  rising := List.pairwise_map.mpr inPlace.rising
  chosen n := by
    have nodes := inPlace.keyed.chosen fun q => first n ≤ q
    show t.since n = t.revisions.filter _
    unfold RevisionTree.revisions
    rw [List.filter_map]
    refine Eq.trans ?_ (congrArg (List.map (·.revision)) nodes)
    rw [List.map_map]
    rfl

theorem memoryChooses {m : MemoryBackend} (booked : m.Booked) : m.feed.Chooses where
  rising := List.pairwise_map.mpr booked.rising
  chosen n := booked.keyed.chosen fun q => first n ≤ q

theorem Source.chooses (source : f.Source) : f.Chooses := by
  cases source with
  | tree made => exact treeChooses made.inPlace
  | memory calls => exact memoryChooses (MemoryBackend.emptyBooked.run calls).booked

theorem Chooses.memListed (chooses : f.Chooses) :
    q ∈ f.listed n ↔ q ∈ f.sequences ∧ first n ≤ q := by
  unfold listed sequences
  rw [chooses.chosen, List.mem_map, List.mem_map]
  constructor
  · rintro ⟨r, member, rfl⟩
    obtain ⟨inside, above⟩ := List.mem_filter.mp member
    exact ⟨⟨r, inside, rfl⟩, of_decide_eq_true above⟩
  · rintro ⟨⟨r, inside, rfl⟩, above⟩
    exact ⟨r, List.mem_filter.mpr ⟨inside, decide_eq_true above⟩, rfl⟩

theorem Chooses.listedRising (chooses : f.Chooses) (n : Int) :
    (f.listed n).Pairwise (· < ·) := by
  unfold listed
  rw [chooses.chosen]
  exact chooses.rising.sublist (List.filter_sublist.map _)

/-- All above the bound, each once and in order; at the largest sequence also the revision that
stands there. -/
structure Exact (f : Feed) : Prop where
  order : ∀ n, (f.after n).Pairwise fun a b => a.sequence < b.sequence
  above : ∀ n < maxSequence, ∀ r, r ∈ f.after n ↔ r ∈ f.all ∧ n < r.sequence
  atMaximum : ∀ r, r ∈ f.after maxSequence ↔ r ∈ f.all ∧ maxSequence ≤ r.sequence

theorem Chooses.exact (chooses : f.Chooses) : f.Exact where
  order n := List.pairwise_map.mp (chooses.listedRising n)
  above n room r := by
    rw [chooses.chosen, List.mem_filter, decide_eq_true_eq, first, if_pos room, Int.add_one_le_iff]
  atMaximum r := by
    rw [chooses.chosen, List.mem_filter, decide_eq_true_eq, first, if_neg (lt_irrefl _)]

/-- A reader that goes on from the last revision it was given has, of a feed to which nothing came
below that one, what it would be given from its first bound. -/
def ResumedBy (f g : Feed) : Prop :=
  ∀ n l, (f.after n).getLast? = some l → l.sequence < maxSequence →
    (∀ q ≤ l.sequence, q ∈ f.sequences ↔ q ∈ g.sequences) →
    f.listed n ++ g.listed l.sequence = g.listed n

theorem Chooses.lastListed (chooses : f.Chooses) (last : (f.after n).getLast? = some l) :
    first n ≤ l.sequence ∧ ∀ q ∈ f.listed n, q ≤ l.sequence := by
  obtain ⟨front, shape⟩ := List.getLast?_eq_some_iff.mp last
  have listed : f.listed n = front.map (·.sequence) ++ [l.sequence] := by
    unfold Feed.listed
    rw [shape, List.map_append]
    rfl
  have there : l.sequence ∈ f.listed n := listed ▸ List.mem_append_right _ List.mem_cons_self
  refine ⟨(chooses.memListed.mp there).2, fun q member => ?_⟩
  obtain ⟨_, _, below⟩ := List.pairwise_append.mp (listed ▸ chooses.listedRising n)
  rcases List.mem_append.mp (listed ▸ member) with before | same
  · exact (below q before _ List.mem_cons_self).le
  · exact (List.mem_singleton.mp same).le

theorem Chooses.resumed (chooses : f.Chooses) (later : g.Chooses) : f.ResumedBy g := by
  intro n l last room same
  obtain ⟨start, upTo⟩ := chooses.lastListed last
  have next : first l.sequence = l.sequence + 1 := if_pos room
  have rest (q : Int) (member : q ∈ g.listed l.sequence) : l.sequence < q := by
    have := (later.memListed.mp member).2
    omega
  refine List.Pairwise.eq_of_mem_iff (r := (· < ·)) ?_ (later.listedRising n) fun q => ?_
  · refine List.pairwise_append.mpr
      ⟨chooses.listedRising n, later.listedRising _, fun q before p after => ?_⟩
    exact lt_of_le_of_lt (upTo q before) (rest p after)
  rw [List.mem_append, later.memListed, chooses.memListed, later.memListed, next]
  constructor
  · rintro (⟨inside, chosen⟩ | ⟨inside, beyond⟩)
    · have below := upTo q (chooses.memListed.mpr ⟨inside, chosen⟩)
      exact ⟨(same q below).mp inside, chosen⟩
    · exact ⟨inside, by omega⟩
  · rintro ⟨inside, chosen⟩
    rcases le_or_gt q l.sequence with below | beyond
    · exact .inl ⟨(same q below).mpr inside, chosen⟩
    · exact .inr ⟨inside, by omega⟩

/-- Below the largest sequence a listing gives what is above its bound, and a reader that goes on
from its last revision is given nothing twice and misses nothing. -/
theorem listsChanges (source : f.Source) : f.Exact ∧ ∀ g, g.Source → f.ResumedBy g :=
  ⟨source.chooses.exact, fun _ later => source.chooses.resumed later.chooses⟩

namespace Sample

def tree : RevisionTree := RevisionTree.Sample.given [5, maxSequence]

theorem made : RevisionTree.Made RevisionTree.Sample.document 7 tree := by
  unfold tree RevisionTree.Sample.given
  exact .write .empty _ _ _

-- The largest sequence is stored before the first one is given.
def calls : List MemoryCall :=
  [.persist { RevisionTree.Sample.delivered RevisionTree.Sample.root with sequence := maxSequence },
    .persist { RevisionTree.Sample.delivered RevisionTree.Sample.child with sequence := 5 },
    .nextSequence]

def memory : MemoryBackend := ((MemoryBackend.empty).run calls).2

end Sample

theorem sampleListsChanges :
    Sample.tree.feed.Source ∧ Sample.tree.feed.Exact ∧ Sample.memory.feed.Exact ∧
      Sample.memory.feed.listed 4 = [5, maxSequence] ∧
      Sample.memory.feed.listed 5 = [maxSequence] ∧
      Sample.memory.feed.ResumedBy Sample.memory.feed := by
  have tree : Sample.tree.feed.Source := .tree Sample.made
  have memory : Sample.memory.feed.Source := .memory Sample.calls
  refine ⟨tree, (listsChanges tree).1, (listsChanges memory).1, by decide +kernel,
    by decide +kernel, (listsChanges memory).2 _ memory⟩

/-- What stands at the largest sequence is listed above it, also to a reader that was given it. -/
theorem maximumListedAgain :
    (∃ r ∈ Sample.tree.since maxSequence, ¬ maxSequence < r.sequence) ∧
      (∃ r ∈ Sample.memory.changesSince maxSequence, ¬ maxSequence < r.sequence) ∧
      Sample.memory.feed.listed 4 ++ Sample.memory.feed.listed maxSequence =
        [5, maxSequence, maxSequence] := by
  refine ⟨?_, ?_, ?_⟩ <;> decide +kernel

end Feed
end RevForest
