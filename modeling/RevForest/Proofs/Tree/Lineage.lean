import RevForest.Proofs.Tree.Clash
import RevForest.Proofs.Tree.Replica

/-! What a foreign insert makes of its history. The path counts up to the place where
it reaches the tree: the ids before that place are new nodes, one below the other, and
what the tree says of the place stays as it is, also where the rest of the path says
something else. So the walk from the new revision is the new part of its path and then
the walk that was there before. -/
namespace RevForest

theorem Forest.Path.unique {f : Forest} {id : RevisionId} {ids ids' : List RevisionId}
    (path : f.Path id ids) (path' : f.Path id ids') : ids = ids' := by
  induction path generalizing ids' with
  | root top =>
    cases path' with
    | root _ => rfl
    | step above _ => cases top.symm.trans above
  | step above next ih =>
    cases path' with
    | root top => cases top.symm.trans above
    | step above' next' =>
      cases above.symm.trans above'
      exact congrArg _ (ih next')

theorem Forest.Path.transfer {f g : Forest} {id : RevisionId} {ids : List RevisionId}
    (path : f.Path id ids) (same : ∀ x ∈ ids, g.up x = f.up x) : g.Path id ids := by
  induction path with
  | root top => exact .root ((same _ List.mem_cons_self).trans top)
  | step above next ih =>
    obtain ⟨here, others⟩ := List.forall_mem_cons.mp same
    exact .step (here.trans above) (ih others)

structure Forest.Joins (up : RevisionId → Option RevisionId) (new old : List RevisionId) :
    Prop where
  steps : new.IsChain fun a b => up a = some b
  joint : ∀ a ∈ new.getLast?, up a = old.head?

namespace Forest.Joins
variable {up : RevisionId → Option RevisionId} {new old : List RevisionId} {a id : RevisionId}

theorem first (joins : Joins up (a :: new) old) : up a = (new ++ old).head? := by
  cases new with
  | nil => exact joins.joint a rfl
  | cons b new => exact (List.isChain_cons.mp joins.steps).1 b rfl

theorem rest (joins : Joins up (a :: new) old) : Joins up new old where
  steps := (List.isChain_cons.mp joins.steps).2
  joint x last := by
    have some : new ≠ [] := List.ne_nil_of_mem (List.mem_of_mem_getLast? last)
    refine joins.joint x ?_
    rw [List.getLast?_cons_of_ne_nil some]
    exact last

theorem next (joins : Joins up new old) {i : Nat} (short : i < new.length)
    (here : (new ++ old)[i]? = some id) : up id = (new ++ old)[i + 1]? := by
  induction new generalizing i with
  | nil => exact absurd short (Nat.not_lt_zero i)
  | cons a new ih =>
    rw [List.cons_append, List.getElem?_cons_succ]
    cases i with
    | zero =>
      cases here
      rw [joins.first, List.head?_eq_getElem?]
    | succ i => exact ih joins.rest (Nat.lt_of_succ_lt_succ short) here

theorem path {f : Forest} (joins : Joins f.up new old) (start : id ∈ new.head?)
    (known : ∀ k ∈ old.head?, f.Path k old) : f.Path id (new ++ old) := by
  induction new generalizing id with
  | nil => cases start
  | cons a new ih =>
    cases start
    have above := joins.first
    cases next : (new ++ old).head? with
    | none =>
      rw [next] at above
      rw [List.cons_append, List.head?_eq_none_iff.mp next]
      exact .root above
    | some b =>
      rw [next] at above
      refine .step above ?_
      cases new with
      | nil => exact known b next
      | cons c new =>
        cases next
        exact ih joins.rest rfl

end Forest.Joins

namespace RevisionTree
variable {t grown : RevisionTree} {r : Revision} {path missing rest : List RevisionId}
  {known : Option Int} {chain : List Revision} {parent : Int} {qs : List Int}

theorem WellFormed.absentIff (wf : t.WellFormed) (id : RevisionId) :
    t.sequenceOf? id.text = none ↔ ¬ t.HasId id := by
  constructor
  · intro unknown inside
    obtain ⟨s, x, found, rfl⟩ := inside
    rw [(wf.indexed _ s).mpr ⟨x, found, rfl⟩] at unknown
    cases unknown
  · intro absent
    refine Option.eq_none_iff_forall_ne_some.mpr ?_
    intro s here
    obtain ⟨x, found, text⟩ := (wf.indexed _ s).mp here
    exact absent ⟨s, x, found, RevisionId.ext_text text⟩

theorem aboveChosen (t : RevisionTree) (id : RevisionId) :
    t.chooseWinner.above id = t.above id := by
  unfold above find?
  rw [sequenceChosen]
  cases t.sequenceOf? id.text with
  | none => rfl
  | some s =>
    rw [Option.bind_some, Option.bind_some, getChosen, Option.bind_map]
    exact Option.bind_congr fun x _ => parentIdChosen x.parent

theorem aboveGrows (wf : t.WellFormed) (grows : Grows t chain grown) {s : Int} {x : Revision}
    (found : t.get? s = some x) : grown.above x.id = t.above x.id := by
  have kept {q : Int} {y : Revision} (old : t.get? q = some y) : grown.get? q = some y :=
    (getGrows grows).mpr (.inl old)
  rw [(wellFormedGrows grows wf).aboveNode (kept found), wf.aboveNode found]
  unfold parentId
  split
  · rename_i child
    obtain ⟨p, here, _⟩ := wf.linked s x found child
    rw [kept here, here]
  · rfl

theorem aboveChain (wf : t.WellFormed) (length : qs.length = chain.length)
    (grows : Grows t (placed parent chain qs) grown) :
    ((chain.map (·.id)).IsChain fun a b => grown.above b = some a) ∧
      ∀ x ∈ chain.head?, grown.above x.id = t.parentId parent := by
  induction chain generalizing t parent qs with
  | nil => exact ⟨.nil, by simp⟩
  | cons x chain ih =>
    cases qs with
    | nil => cases length
    | cons q qs =>
      cases grows with
      | cons fits next =>
        have wf' := wellFormedLink fits wf
        have node := (getLink t { x with parent, sequence := q } q).trans (if_pos rfl)
        obtain ⟨steps, first⟩ := ih wf' (Nat.succ.inj length) next
        refine ⟨List.isChain_cons.mpr ⟨?_, steps⟩, ?_⟩
        · intro id head
          rw [List.head?_map] at head
          obtain ⟨y, second, rfl⟩ := Option.mem_map.mp head
          rw [first y second]
          unfold parentId
          rw [if_pos fits.positive, node]
          rfl
        · intro y head
          cases head
          refine (aboveGrows wf' next node).trans ((wf'.aboveNode node).trans ?_)
          refine parentIdLink fits ?_
          intro child
          obtain ⟨p, here, _⟩ := fits.parent child
          exact ⟨p, here⟩

theorem sizeGrows (wf : t.WellFormed) (grows : Grows t chain grown) :
    grown.size = t.size + chain.length := by
  obtain ⟨free, apart⟩ := growsApart grows
  rw [growsFold grows]
  refine (sizeFold wf.nodesSorted chain).mpr ⟨fun x member => (free x member).2, ?_⟩
  exact List.pairwise_map.mpr (apart.imp And.right)

theorem rootsChain (length : qs.length = chain.length)
    (grows : Grows t (placed parent chain qs) grown) :
    grown.roots = if 0 < parent then t.roots else t.roots ++ qs.take 1 := by
  induction chain generalizing t parent qs with
  | nil =>
    cases grows
    rw [List.eq_nil_of_length_eq_zero length]
    simp
  | cons x chain ih =>
    cases qs with
    | nil => cases length
    | cons q qs =>
      cases grows with
      | cons fits next =>
        have positive : 0 < q := fits.positive
        rw [ih (Nat.succ.inj length) next, if_pos positive, rootsLink]
        simp

theorem contentChain (wf : t.WellFormed) (length : qs.length = chain.length)
    (grows : Grows t (placed parent chain qs) grown) {x : Revision} (member : x ∈ chain) :
    ∃ y, grown.chooseWinner.find? x.id.text = some y ∧ y.content = x.content ∧
      y.dirty = false := by
  let label (z : Revision) : RevisionId × Bool × DocumentBody × AttachmentMap := (z.id, z.content)
  have labels : (placed parent chain qs).map label = chain.map label :=
    placedMap (fun _ _ _ => rfl) length
  have inside : label x ∈ (placed parent chain qs).map label :=
    labels ▸ List.mem_map_of_mem member
  obtain ⟨p, here, same⟩ := List.mem_map.mp inside
  obtain ⟨id, content⟩ := Prod.mk.inj same
  obtain ⟨y, found, plain⟩ := Option.map_eq_some_iff.mp (growsShows wf grows here)
  refine ⟨y, ?_, ?_, ?_⟩
  · rw [← id]
    exact found
  · rw [← content]
    exact show y.unflagged.content = (grown.chooseWinner.settled p).content from
      congrArg Revision.content plain
  · exact show y.unflagged.dirty = (grown.chooseWinner.settled p).dirty from
      congrArg Revision.dirty plain

theorem sequenceChain (wf : t.WellFormed) (length : qs.length = chain.length)
    (grows : Grows t (placed parent chain qs) grown) {x : Revision}
    (last : x ∈ chain.getLast?) :
    grown.sequenceOf? x.id.text =
      some (chainReport t grown known (placed parent chain qs)).sequence := by
  have ids : ((placed parent chain qs).map (·.id)).getLast? = (chain.map (·.id)).getLast? :=
    congrArg List.getLast? (placedIds length)
  rw [List.getLast?_map, List.getLast?_map, last] at ids
  obtain ⟨p, here, id⟩ := Option.map_eq_some_iff.mp ids
  have node := (getGrows grows).mpr (.inr ⟨p, List.mem_of_mem_getLast? here, rfl, rfl⟩)
  unfold chainReport
  rw [here, ((wellFormedGrows grows wf).indexed x.id.text p.sequence).mpr ⟨_, node, ?_⟩]
  · rfl
  · exact congrArg RevisionId.text id

def reached (t : RevisionTree) (path : List RevisionId) : Nat :=
  path.tail.findIdx (fun id => t.contains id.text) + 1

theorem containsIff (t : RevisionTree) (id : String) :
    t.contains id = false ↔ t.sequenceOf? id = none := Dict.notContains _ _

theorem Cut.reached (cut : t.Cut r path missing rest known chain) :
    t.reached path = (r.id :: missing).length := by
  have unknown : missing.findIdx (fun id => t.contains id.text) = missing.length := by
    rw [List.findIdx_eq_length]
    intro id member
    exact (containsIff t id.text).mpr (cut.unknown id (List.mem_cons_of_mem _ member))
  have first : rest.findIdx (fun id => t.contains id.text) = 0 := by
    rcases cut.ends with ⟨rfl, _⟩ | ⟨k, above, s, rfl, here, _⟩
    · rfl
    · have inside : t.contains k.text = true := by
        rw [← Bool.not_eq_false, containsIff, here]
        simp
      simp [List.findIdx_cons, inside]
  unfold RevisionTree.reached
  rw [cut.whole, List.cons_append, List.tail_cons, List.findIdx_append, unknown, first]
  simp

theorem Cut.new (cut : t.Cut r path missing rest known chain) :
    path.take (t.reached path) = r.id :: missing := by
  rw [cut.reached, cut.whole, List.take_left]

theorem Cut.joint (cut : t.Cut r path missing rest known chain) :
    path[t.reached path]? = rest.head? := by
  rw [cut.reached, cut.whole, List.getElem?_append_right (le_refl _), Nat.sub_self,
    List.head?_eq_getElem?]

theorem Cut.parentId (wf : t.WellFormed) (cut : t.Cut r path missing rest known chain) :
    t.parentId (known.getD noParent) = rest.head? := by
  unfold RevisionTree.parentId
  split
  · rename_i positive
    obtain ⟨k, above, p, rfl, node, rfl⟩ := cut.known wf positive
    rw [node]
    rfl
  · rename_i low
    rcases cut.ends with ⟨rfl, _⟩ | ⟨k, above, s, _, here, rfl⟩
    · rfl
    · obtain ⟨p, node, _⟩ := (wf.indexed k.text s).mp here
      exact absurd (wf.own s p node).2.1 low

theorem Cut.isRoot (wf : t.WellFormed) (cut : t.Cut r path missing rest known chain) :
    known.isNone = true ↔ ¬ 0 < known.getD noParent := by
  rcases cut.ends with ⟨_, rfl⟩ | ⟨k, above, s, _, here, rfl⟩
  · exact iff_of_true rfl (by decide)
  · obtain ⟨p, node, _⟩ := (wf.indexed k.text s).mp here
    have positive := (wf.own s p node).2.1
    simp [positive]

theorem Cut.endsPath (cut : t.Cut r path missing rest known chain) :
    known.isNone = rest.head?.isNone := by
  rcases cut.ends with ⟨rfl, rfl⟩ | ⟨k, above, s, rfl, _, rfl⟩ <;> rfl

theorem Cut.joins (wf : t.WellFormed) (cut : t.Cut r path missing rest known chain)
    (length : qs.length = chain.length)
    (grows : Grows t (placed (known.getD noParent) chain qs) grown) {old : List RevisionId}
    (same : old.head? = rest.head?) : Forest.Joins grown.above (r.id :: missing) old := by
  obtain ⟨steps, first⟩ := aboveChain wf length grows
  rw [cut.ids, List.isChain_reverse] at steps
  refine ⟨steps, ?_⟩
  intro a last
  rw [← List.head?_reverse, ← cut.ids, List.head?_map] at last
  obtain ⟨x, head, rfl⟩ := Option.mem_map.mp last
  rw [first x head, cut.parentId wf, same]

def historyFrom (t : RevisionTree) (joint : Option RevisionId) :
    Except DocumentError (List RevisionId) :=
  match joint with
  | none => .ok []
  | some id => t.history id.text

theorem Cut.oldPath (wf : t.WellFormed) (cut : t.Cut r path missing rest known chain) :
    ∃ old, t.historyFrom rest.head? = .ok old ∧ old.head? = rest.head? ∧
      ∀ k ∈ old.head?, wf.forest.Path k old ∧ t.HasId k := by
  rcases cut.ends with ⟨rfl, _⟩ | ⟨k, above, s, rfl, here, _⟩
  · exact ⟨[], rfl, rfl, by simp⟩
  · obtain ⟨x, found, text⟩ := (wf.indexed k.text s).mp here
    obtain rfl := RevisionId.ext_text text
    obtain ⟨old, walked, path⟩ := wf.historyPath found
    refine ⟨old, walked, path.head, ?_⟩
    intro k head
    cases head.symm.trans path.head
    exact ⟨path, s, x, found, rfl⟩

theorem Cut.walk (wf : t.WellFormed) (cut : t.Cut r path missing rest known chain)
    (length : qs.length = chain.length)
    (grows : Grows t (placed (known.getD noParent) chain qs) grown)
    (inside : grown.chooseWinner.HasId r.id) :
    ∃ old, t.historyFrom rest.head? = .ok old ∧
      grown.chooseWinner.history r.id.text = .ok (r.id :: missing ++ old) := by
  have after := wellFormedChosen (wellFormedGrows grows wf)
  obtain ⟨old, walked, same, known⟩ := cut.oldPath wf
  have ways : grown.chooseWinner.above = grown.above := funext fun id => aboveChosen grown id
  have joins : Forest.Joins after.forest.up (r.id :: missing) old := by
    show Forest.Joins grown.chooseWinner.above _ _
    rw [ways]
    exact cut.joins wf length grows same
  have path : after.forest.Path r.id (r.id :: missing ++ old) := by
    refine joins.path rfl ?_
    intro k head
    obtain ⟨before, here⟩ := known k head
    refine before.transfer ?_
    intro x member
    obtain ⟨s, y, found, rfl⟩ := followsPath wf.followsForest before here x member
    exact (aboveChosen grown y.id).trans (aboveGrows wf grows found)
  obtain ⟨s, x, found, own⟩ := inside
  obtain ⟨ids, history, path'⟩ := after.historyPath found
  rw [own] at history path'
  exact ⟨old, walked, history.trans (congrArg _ (path'.unique path))⟩

/-- What taking over a revision does to a tree, said with the ids of its path; `k` is the place
where the path reaches the tree. -/
structure TakesOver (t u : RevisionTree) (r : Revision) (path : List RevisionId) (k : Nat)
    (report : InsertReport) : Prop where
  wellFormed : u.WellFormed
  new : ∀ id ∈ path.take k, ¬ t.HasId id
  ids : ∀ id, u.HasId id ↔ t.HasId id ∨ id ∈ path.take k
  edges : ∀ i < k, ∀ id, path[i]? = some id → u.above id = path[i + 1]?
  history : ∃ old, t.historyFrom path[k]? = .ok old ∧
    u.history r.id.text = .ok (path.take k ++ old)
  own : ∃ x, u.find? r.id.text = some x ∧ x.content = r.content ∧ x.dirty = false ∧
    x.sequence = report.sequence
  stubs : ∀ id ∈ (path.take k).tail, ∃ x, u.find? id.text = some x ∧
    x.content = (false, .empty, .empty)
  kept : ∀ s x, t.get? s = some x → ∃ current, u.get? s = some { x with current }
  size : u.size = t.size + k
  inserted : report.inserted = k
  createdRoot : report.createdRoot = path[k]?.isNone
  roots : ∃ top, u.roots = if report.createdRoot then t.roots ++ [top] else t.roots
  winners : report.previousWinner = t.winner ∧ report.winner = u.winner

theorem Cut.ownTaken (wf : t.WellFormed) (named : r.attachments.Named)
    (cut : t.Cut r path missing rest known chain) (length : qs.length = chain.length)
    (grows : Grows t (placed (known.getD noParent) chain qs) grown) :
    ∃ x, grown.chooseWinner.find? r.id.text = some x ∧ x.content = r.content ∧ x.dirty = false ∧
      x.sequence =
        (chainReport t grown known (placed (known.getD noParent) chain qs)).sequence := by
  have after := wellFormedChosen (wellFormedGrows grows wf)
  have last : t.adopt r ∈ chain.getLast? := by
    rw [cut.chain, List.getLast?_concat]
    rfl
  obtain ⟨x, found, content, clean⟩ :=
    contentChain wf length grows (List.mem_of_mem_getLast? last)
  obtain ⟨s, here, node⟩ := Option.bind_eq_some_iff.mp found
  have reported : grown.sequenceOf? (t.adopt r).id.text =
      some (chainReport t grown known (placed (known.getD noParent) chain qs)).sequence :=
    sequenceChain wf length grows last
  refine ⟨x, found, content.trans (adoptContent named), clean, ?_⟩
  rw [sequenceChosen] at here
  rw [(after.own s x node).1]
  exact Option.some.inj (here.symm.trans reported)

theorem Cut.rootsTaken (wf : t.WellFormed) (cut : t.Cut r path missing rest known chain)
    (length : qs.length = chain.length)
    (grows : Grows t (placed (known.getD noParent) chain qs) grown) :
    ∃ top, grown.chooseWinner.roots = if known.isNone then t.roots ++ [top] else t.roots := by
  have some : ∃ top, qs.take 1 = [top] := by
    cases qs with
    | nil =>
      rw [cut.chain] at length
      exact absurd length (by simp)
    | cons q qs => exact ⟨q, rfl⟩
  obtain ⟨top, first⟩ := some
  refine ⟨top, ?_⟩
  rw [rootsChosen, rootsChain length grows, first]
  simp only [cut.isRoot wf, ite_not]

theorem Cut.takesOver (wf : t.WellFormed) (named : r.attachments.Named)
    (cut : t.Cut r path missing rest known chain) (length : qs.length = chain.length)
    (grows : Grows t (placed (known.getD noParent) chain qs) grown) :
    t.TakesOver grown.chooseWinner r path (t.reached path)
      (chainReport t grown known (placed (known.getD noParent) chain qs)) := by
  have count : (placed (known.getD noParent) chain qs).length = t.reached path := by
    have ids : ((placed (known.getD noParent) chain qs).map (·.id)).length =
        (chain.map (·.id)).length := congrArg List.length (placedIds length)
    rw [List.length_map, cut.ids, List.length_reverse] at ids
    rw [ids, cut.reached]
  have ids (id : RevisionId) :
      grown.chooseWinner.HasId id ↔ t.HasId id ∨ id ∈ path.take (t.reached path) := by
    rw [hasIdChosen, hasIdGrows grows, placedIds length, cut.ids, List.mem_reverse, cut.new]
  exact {
    wellFormed := wellFormedChosen (wellFormedGrows grows wf)
    new := by
      intro id member
      rw [cut.new] at member
      exact (wf.absentIff id).mp (cut.unknown id member)
    ids := ids
    edges := by
      -- The path is the new ids and then the known one, each the child of the next.
      intro i short id here
      rw [cut.reached] at short
      rw [aboveChosen]
      rw [cut.whole] at here ⊢
      exact (cut.joins wf length grows rfl).next short here
    history := by
      rw [cut.joint, cut.new]
      refine cut.walk wf length grows ((ids r.id).mpr (.inr ?_))
      rw [cut.new]
      exact List.mem_cons_self
    own := cut.ownTaken wf named length grows
    stubs := by
      intro id member
      rw [cut.new, List.tail_cons] at member
      have stub : t.stub id ∈ chain := by
        rw [cut.chain]
        exact memStaged.mpr (.inl ⟨id, member, rfl⟩)
      obtain ⟨x, found, content, _⟩ := contentChain wf length grows stub
      exact ⟨x, found, content⟩
    kept := fun s x found => ⟨_, chosenIff.mpr ⟨x, (getGrows grows).mpr (.inl found), rfl⟩⟩
    size := by rw [sizeChosen, sizeGrows wf grows, count]
    inserted := count
    createdRoot := by
      rw [cut.joint]
      exact cut.endsPath
    roots := cut.rootsTaken wf length grows
    winners := ⟨rfl, rfl⟩ }

theorem insertForeignTakes {σ : Type} (wf : t.WellFormed) (commit : Commit σ) (s : σ)
    {history : List RevisionId} (full : r.projection = none) (own : r.document = t.document)
    (named : r.attachments.Named) (descends : Descends r.id (pathOf r.id history))
    (fresh : t.Fresh ((TreeWrite.foreign r history).answers t commit s))
    (assigns : ∀ a ∈ (TreeWrite.foreign r history).answers t commit s,
      (sequenceIn a).isSome = true) :
    (∃ q, t.sequenceOf? r.id.text = some q ∧
        (t.insertForeign commit r history s).1 = .ok (t, .alreadyPresent q)) ∨
      ∃ u report, (t.insertForeign commit r history s).1 = .ok (u, .inserted report) ∧
        t.TakesOver u r (pathOf r.id history) (t.reached (pathOf r.id history)) report := by
  have planned := planForeignIff.mpr ⟨full, own, descends, rfl⟩
  have recorded := congrArg Prod.fst (commit.recordedFollows.insertForeign t r history (s, []))
  change (t.insertForeign commit.recorded r history (s, [])).1 = _ at recorded
  rw [← recorded]
  rcases insertForeignRecorded wf commit s r history fresh with
    ⟨e, _, refused | ⟨e', asked⟩⟩ | ⟨q, present, same⟩ |
      ⟨known, chain, qs, grown, missing, free, grows, same⟩
  · rw [planned] at refused
    cases refused
  · cases assigns _ asked
  · rw [planned, Except.ok.injEq] at present
    exact .inl ⟨q, planPresent present, same⟩
  · rw [planned, Except.ok.injEq] at missing
    obtain ⟨new, rest, cut⟩ := planCut descends.1 missing
    exact .inr ⟨_, _, same, cut.takesOver wf named free.length grows⟩

/-- A foreign insert of an unknown revision does exactly what its history says. -/
theorem insertForeignLineage {σ : Type} (wf : t.WellFormed) (commit : Commit σ) (s : σ)
    {history : List RevisionId} (full : r.projection = none) (own : r.document = t.document)
    (named : r.attachments.Named) (absent : ¬ t.HasId r.id)
    (accepted : t.validateHistory r.id history = .ok path)
    (fresh : t.Fresh ((TreeWrite.foreign r history).answers t commit s))
    (assigns : ∀ a ∈ (TreeWrite.foreign r history).answers t commit s,
      (sequenceIn a).isSome = true) :
    ∃ u report, (t.insertForeign commit r history s).1 = .ok (u, .inserted report) ∧
      t.TakesOver u r path (t.reached path) report := by
  obtain ⟨rfl, descends⟩ := validateHistoryIff.mp accepted
  rcases insertForeignTakes wf commit s full own named descends fresh assigns with
    ⟨q, present, _⟩ | taken
  · cases ((wf.absentIff r.id).mpr absent).symm.trans present
  · exact taken

-- A history of four that reaches a tree of two at its third place and names another root.
namespace Sample

def descendant : RevisionId := ⟨"4-d", 4, "d", by decide⟩

def disputed : List RevisionId := [descendant, grandchild, child, rival]

end Sample

theorem disputedLineage :
    ∃ u report, (Sample.second.insertForeign Commit.scripted (Sample.delivered Sample.descendant)
        Sample.disputed [.ok (some 8), .ok (some 9)]).1 = .ok (u, .inserted report) ∧
      Sample.second.TakesOver u (Sample.delivered Sample.descendant) Sample.disputed 2 report := by
  obtain ⟨_, ingest⟩ := Sample.secondIngest
  have wf := ingest.reachable.wellFormed
  have place : Sample.second.reached Sample.disputed = 2 := by decide
  rw [← place]
  exact insertForeignLineage wf Commit.scripted _ rfl rfl AttachmentMap.emptyNamed
    ((wf.absentIff _).mp (by decide)) rfl (by decide) (by decide)

end RevisionTree
end RevForest
