import Mathlib.Data.List.Chain
import RevForest.Proofs.Tree.Commit

/-! What a foreign revision asks of a tree. The path is cut at the first id that is
known; the part before it, oldest first, is staged: its ids are new, its generations
go up by one, and its first revision goes below the known node. A staged chain that
is given fresh sequences fits one after the other, whatever check is made later. -/
namespace RevForest.RevisionTree

structure Staged (t : RevisionTree) (parent : Int) (chain : List Revision) : Prop where
  document : ∀ r ∈ chain, r.document = t.document
  new : ∀ r ∈ chain, r.sequence = unassigned
  freeIds : ∀ r ∈ chain, t.sequenceOf? r.id.text = none
  steps : chain.IsChain fun a b => a.generation + 1 = b.generation
  above : 0 < parent → ∀ r ∈ chain.head?,
    ∃ p, t.get? parent = some p ∧ p.generation + 1 = r.generation

structure FreeFor (t : RevisionTree) (chain : List Revision) (qs : List Int) : Prop where
  length : qs.length = chain.length
  positive : ∀ q ∈ qs, 0 < q
  free : ∀ q ∈ qs, t.get? q = none
  once : qs.Nodup

theorem Staged.first {t : RevisionTree} {parent q : Int} {r : Revision} {rest : List Revision}
    {qs : List Int} (staged : t.Staged parent (r :: rest))
    (free : t.FreeFor (r :: rest) (q :: qs)) :
    t.Fits { r with parent, sequence := q } where
  document := staged.document r List.mem_cons_self
  positive := free.positive q List.mem_cons_self
  freeSequence := free.free q List.mem_cons_self
  freeId := staged.freeIds r List.mem_cons_self
  parent child := staged.above child r rfl

theorem Staged.laterIds {t : RevisionTree} {parent : Int} {r x : Revision} {rest : List Revision}
    (staged : t.Staged parent (r :: rest)) (later : x ∈ rest) : x.id.text ≠ r.id.text := by
  have rising : (r :: rest).IsChain fun a b => a.generation < b.generation :=
    staged.steps.imp fun a b next => by omega
  have below := (List.pairwise_cons.mp rising.pairwise).1 x later
  intro same
  unfold Revision.generation at below
  rw [RevisionId.ext_text same] at below
  omega

theorem Staged.rest {t : RevisionTree} {parent q : Int} {r : Revision} {rest : List Revision}
    (staged : t.Staged parent (r :: rest)) :
    (t.link { r with parent, sequence := q }).Staged q rest where
  document x later := staged.document x (List.mem_cons_of_mem _ later)
  new x later := staged.new x (List.mem_cons_of_mem _ later)
  freeIds x later := by
    rw [sequenceLink, if_neg (staged.laterIds later)]
    exact staged.freeIds x (List.mem_cons_of_mem _ later)
  steps := (List.isChain_cons.mp staged.steps).2
  above _ x head := by
    refine ⟨t.settled { r with parent, sequence := q }, ?_, ?_⟩
    · rw [getLink, if_pos rfl]
    · exact (List.isChain_cons.mp staged.steps).1 x head

theorem Staged.unchosen {t : RevisionTree} {parent : Int} {chain : List Revision}
    (staged : t.chooseWinner.Staged parent chain) : t.Staged parent chain where
  document := staged.document
  new := staged.new
  freeIds := staged.freeIds
  steps := staged.steps
  above child r first := by
    obtain ⟨p, found, next⟩ := staged.above child r first
    obtain ⟨old, before, rfl⟩ := chosenIff.mp found
    exact ⟨old, before, next⟩

theorem Staged.take {t : RevisionTree} {parent : Int} {chain : List Revision}
    (staged : t.Staged parent chain) (n : Nat) : t.Staged parent (chain.take n) where
  document x member := staged.document x (List.mem_of_mem_take member)
  new x member := staged.new x (List.mem_of_mem_take member)
  freeIds x member := staged.freeIds x (List.mem_of_mem_take member)
  steps := staged.steps.take n
  above child x first := by
    cases n with
    | zero => cases first
    | succ n =>
      cases chain with
      | nil => cases first
      | cons r rest => exact staged.above child x first

theorem FreeFor.rest {t : RevisionTree} {parent q : Int} {r : Revision} {rest : List Revision}
    {qs : List Int} (free : t.FreeFor (r :: rest) (q :: qs)) :
    (t.link { r with parent, sequence := q }).FreeFor rest qs where
  length := Nat.succ.inj free.length
  positive x later := free.positive x (List.mem_cons_of_mem _ later)
  free x later := by
    obtain ⟨absent, _⟩ := List.nodup_cons.mp free.once
    have other : x ≠ q := by
      intro same
      exact absent (same ▸ later)
    rw [getLink, if_neg other]
    exact free.free x (List.mem_cons_of_mem _ later)
  once := (List.nodup_cons.mp free.once).2

theorem Staged.grows {t : RevisionTree} {parent : Int} {chain : List Revision} {qs : List Int}
    (staged : t.Staged parent chain) (free : t.FreeFor chain qs) :
    ∃ grown, Grows t (placed parent chain qs) grown := by
  induction chain generalizing t parent qs with
  | nil => exact ⟨t, by unfold placed; exact .nil t⟩
  | cons r rest ih =>
    cases qs with
    | nil => exact absurd free.length (by simp)
    | cons q qs =>
      obtain ⟨grown, grows⟩ := ih staged.rest free.rest
      exact ⟨grown, .cons (staged.first free) grows⟩

structure Covers (t : RevisionTree) (known : Dict Int Nat) (now : RevisionTree) : Prop where
  document : now.document = t.document
  sequences : ∀ s, now.get? s = none → t.get? s = none
  ids : ∀ id, now.sequenceOf? id = none → t.sequenceOf? id = none
  generations : ∀ s, (known.find? s).or (t.generation? s) = now.generation? s

theorem Covers.start (t : RevisionTree) : Covers t Dict.empty t :=
  ⟨rfl, fun _ => id, fun _ => id, fun _ => rfl⟩

theorem Covers.check {t now : RevisionTree} {known : Dict Int Nat} {r : Revision}
    (covers : Covers t known now) (fits : now.Fits r) :
    t.checkLink (fun s => (known.find? s).or (t.generation? s)) r = .ok () := by
  obtain ⟨document, positive, freeSequence, freeId, parent⟩ := checkLinkIff.mp (fitsIff.mp fits)
  refine checkLinkIff.mpr ⟨document.trans covers.document, positive,
    covers.sequences _ freeSequence, covers.ids _ freeId, ?_⟩
  intro child
  rw [covers.generations]
  exact parent child

theorem Covers.link {t now : RevisionTree} {known : Dict Int Nat} {r : Revision}
    (covers : Covers t known now) :
    Covers t (known.insert r.sequence r.generation) (now.link r) where
  document := covers.document
  sequences s absent := by
    rw [getLink] at absent
    split at absent
    · contradiction
    · exact covers.sequences s absent
  ids id absent := by
    rw [sequenceLink] at absent
    split at absent
    · contradiction
    · exact covers.ids id absent
  generations s := by
    unfold generation?
    rw [Dict.findInsert, getLink]
    split
    · rfl
    · exact covers.generations s

theorem checkChainGrows {t now grown : RevisionTree} {known : Dict Int Nat} {chain : List Revision}
    (covers : Covers t known now) (grows : Grows now chain grown) :
    t.checkChain known chain = .ok () := by
  induction grows generalizing known with
  | nil => rfl
  | cons fits next ih =>
    unfold checkChain
    rw [covers.check fits]
    exact ih (covers.link)

def pathOf (id : RevisionId) (history : List RevisionId) : List RevisionId :=
  if history = [] then [id] else history

def Descends (id : RevisionId) (path : List RevisionId) : Prop :=
  path.head? = some id ∧ path.IsChain fun a b => b.generation + 1 = a.generation

theorem brokenPairIff {ids : List RevisionId} :
    brokenPair? ids = none ↔ ids.IsChain fun a b => b.generation + 1 = a.generation := by
  fun_induction brokenPair? ids with
  | case1 a b rest next ih => rw [ih, List.isChain_cons_cons, and_iff_right next]
  | case2 a b rest broken => simp [broken]
  | case3 ids short =>
    match ids, short with
    | [], _ => simp
    | [a], _ => simp
    | a :: b :: rest, short => exact absurd rfl (short a b rest)

theorem validateHistoryIff {t : RevisionTree} {id : RevisionId} {history path : List RevisionId} :
    t.validateHistory id history = .ok path ↔ path = pathOf id history ∧ Descends id path := by
  unfold validateHistory pathOf
  cases history with
  | nil =>
    simp only [Except.ok.injEq, if_true]
    constructor
    · rintro rfl
      exact ⟨rfl, rfl, .singleton id⟩
    · intro h
      obtain ⟨rfl, _⟩ := h
      rfl
  | cons first rest =>
    simp only [reduceCtorEq, if_false]
    by_cases same : first = id
    · rw [if_neg (not_not.mpr same)]
      cases broken : brokenPair? (first :: rest) with
      | some pair =>
        simp only [reduceCtorEq, false_iff]
        intro h
        obtain ⟨rfl, _, descends⟩ := h
        rw [brokenPairIff.mpr descends] at broken
        contradiction
      | none =>
        simp only [Except.ok.injEq]
        constructor
        · rintro rfl
          exact ⟨rfl, congrArg some same, brokenPairIff.mp broken⟩
        · intro h
          obtain ⟨rfl, _⟩ := h
          rfl
    · rw [if_pos same]
      simp only [reduceCtorEq, false_iff]
      intro h
      obtain ⟨rfl, head, _⟩ := h
      exact same (Option.some.inj head)

theorem splitKnownCut (t : RevisionTree) (ids : List RevisionId) :
    ∃ rest, ids = (t.splitKnown ids).1 ++ rest ∧
      (∀ id ∈ (t.splitKnown ids).1, t.sequenceOf? id.text = none) ∧
      ((rest = [] ∧ (t.splitKnown ids).2 = none) ∨
        ∃ k above s, rest = k :: above ∧ t.sequenceOf? k.text = some s ∧
          (t.splitKnown ids).2 = some s) := by
  induction ids with
  | nil => exact ⟨[], rfl, by simp [splitKnown], .inl ⟨rfl, rfl⟩⟩
  | cons id ids ih =>
    unfold splitKnown
    cases found : t.sequenceOf? id.text with
    | some s => exact ⟨id :: ids, rfl, by simp, .inr ⟨id, ids, s, rfl, found, rfl⟩⟩
    | none =>
      obtain ⟨rest, cut, unknown, ends⟩ := ih
      refine ⟨rest, congrArg (id :: ·) cut, ?_, ends⟩
      intro x member
      rcases List.mem_cons.mp member with rfl | member
      · exact found
      · exact unknown x member

def planOf (t : RevisionTree) (r : Revision) (path : List RevisionId) : ForeignPlan :=
  match t.sequenceOf? r.id.text with
  | some sequence => .present sequence
  | none =>
    .missing (t.splitKnown path.tail).2
      ((t.splitKnown path.tail).1.reverse.map t.stub ++ [t.adopt r])

theorem planForeignIff {t : RevisionTree} {r : Revision} {history : List RevisionId}
    {plan : ForeignPlan} :
    t.planForeign r history = .ok plan ↔
      r.projection = none ∧ r.document = t.document ∧ Descends r.id (pathOf r.id history) ∧
        plan = t.planOf r (pathOf r.id history) := by
  unfold planForeign
  by_cases full : r.projection = none
  · have notProjected : ¬ r.isProjected = true := by simp [Revision.isProjected, full]
    rw [if_neg notProjected, and_iff_right full]
    by_cases own : r.document = t.document
    · rw [if_neg (not_not.mpr own), and_iff_right own]
      cases checked : t.validateHistory r.id history with
      | error e =>
        have bad : ¬ Descends r.id (pathOf r.id history) := by
          intro descends
          rw [validateHistoryIff.mpr ⟨rfl, descends⟩] at checked
          contradiction
        simp [bind, Except.bind, bad]
      | ok path =>
        obtain ⟨rfl, descends⟩ := validateHistoryIff.mp checked
        rw [and_iff_right descends]
        simp only [bind, Except.bind]
        unfold planOf
        cases t.sequenceOf? r.id.text <;> simp [eq_comm]
    · simp [own]
  · have projected : r.isProjected = true := Option.isSome_iff_ne_none.mpr full
    simp [projected, full]

theorem stagedIds (t : RevisionTree) (r : Revision) (missing : List RevisionId) :
    (missing.reverse.map t.stub ++ [t.adopt r]).map (·.id) = (r.id :: missing).reverse := by
  simp [stub, adopt, Function.comp_def]

theorem memStaged {t : RevisionTree} {r x : Revision} {missing : List RevisionId} :
    x ∈ missing.reverse.map t.stub ++ [t.adopt r] ↔
      (∃ id ∈ missing, x = t.stub id) ∨ x = t.adopt r := by
  simp [eq_comm]

structure Cut (t : RevisionTree) (r : Revision) (path missing rest : List RevisionId)
    (known : Option Int) (chain : List Revision) : Prop where
  whole : path = (r.id :: missing) ++ rest
  chain : chain = missing.reverse.map t.stub ++ [t.adopt r]
  unknown : ∀ id ∈ r.id :: missing, t.sequenceOf? id.text = none
  ends : (rest = [] ∧ known = none) ∨
    ∃ k above s, rest = k :: above ∧ t.sequenceOf? k.text = some s ∧ known = some s

theorem planCut {t : RevisionTree} {r : Revision} {path : List RevisionId} {known : Option Int}
    {chain : List Revision} (head : path.head? = some r.id)
    (plan : t.planOf r path = .missing known chain) :
    ∃ missing rest, t.Cut r path missing rest known chain := by
  unfold planOf at plan
  cases found : t.sequenceOf? r.id.text with
  | some s => simp [found] at plan
  | none =>
    simp only [found, ForeignPlan.missing.injEq] at plan
    obtain ⟨rfl, rfl⟩ := plan
    obtain ⟨rest, cut, unknown, ends⟩ := splitKnownCut t path.tail
    refine ⟨(t.splitKnown path.tail).1, rest, ?_, rfl, ?_, ends⟩
    · rw [List.cons_append, ← cut]
      exact (List.cons_head?_tail head).symm
    · intro id member
      rcases List.mem_cons.mp member with rfl | later
      · exact found
      · exact unknown id later

theorem planPresent {t : RevisionTree} {r : Revision} {path : List RevisionId} {q : Int}
    (plan : t.planOf r path = .present q) : t.sequenceOf? r.id.text = some q := by
  unfold planOf at plan
  split at plan
  · rename_i found
    cases plan
    exact found
  · cases plan

theorem Cut.ids {t : RevisionTree} {r : Revision} {path missing rest : List RevisionId}
    {known : Option Int} {chain : List Revision} (cut : t.Cut r path missing rest known chain) :
    chain.map (·.id) = (r.id :: missing).reverse := by
  rw [cut.chain, stagedIds]

theorem Cut.steps {t : RevisionTree} {r : Revision} {path missing rest : List RevisionId}
    {known : Option Int} {chain : List Revision} {R : RevisionId → RevisionId → Prop}
    (cut : t.Cut r path missing rest known chain) (path : path.IsChain R) :
    chain.IsChain fun a b => R b.id a.id := by
  rw [cut.whole] at path
  have reversed : (r.id :: missing).reverse.IsChain fun a b => R b a :=
    List.isChain_reverse.mpr path.left_of_append
  rw [← cut.ids, List.isChain_map] at reversed
  exact reversed

theorem Cut.first {t : RevisionTree} {r x : Revision} {path missing rest : List RevisionId}
    {known : Option Int} {chain : List Revision} (cut : t.Cut r path missing rest known chain)
    (first : x ∈ chain.head?) : x.id ∈ (r.id :: missing).getLast? := by
  rw [← List.head?_reverse, ← cut.ids, List.head?_map]
  exact Option.mem_map_of_mem _ first

theorem Cut.known {t : RevisionTree} (wf : t.WellFormed) {r : Revision}
    {path missing rest : List RevisionId} {known : Option Int} {chain : List Revision}
    (cut : t.Cut r path missing rest known chain) (positive : 0 < known.getD noParent) :
    ∃ k above p, rest = k :: above ∧ t.get? (known.getD noParent) = some p ∧ p.id = k := by
  rcases cut.ends with ⟨_, rfl⟩ | ⟨k, above, s, same, here, rfl⟩
  · exact absurd positive (by decide)
  · obtain ⟨p, node, text⟩ := (wf.indexed k.text s).mp here
    exact ⟨k, above, p, same, node, RevisionId.ext_text text⟩

theorem planStaged {t : RevisionTree} {r : Revision} {path : List RevisionId} {known : Option Int}
    {chain : List Revision} (wf : t.WellFormed) (descends : Descends r.id path)
    (plan : t.planOf r path = .missing known chain) : t.Staged (known.getD noParent) chain := by
  obtain ⟨head, steps⟩ := descends
  obtain ⟨missing, rest, cut⟩ := planCut head plan
  refine ⟨?_, ?_, ?_, cut.steps steps, ?_⟩
  · intro x member
    rw [cut.chain] at member
    rcases memStaged.mp member with ⟨id, _, rfl⟩ | rfl <;> rfl
  · intro x member
    rw [cut.chain] at member
    rcases memStaged.mp member with ⟨id, _, rfl⟩ | rfl <;> rfl
  · intro x member
    refine cut.unknown x.id (List.mem_reverse.mp ?_)
    rw [← cut.ids]
    exact List.mem_map_of_mem member
  · intro positive x first
    obtain ⟨k, above, p, rfl, node, rfl⟩ := cut.known wf positive
    rw [cut.whole] at steps
    obtain ⟨_, _, joint⟩ := List.isChain_append.mp steps
    exact ⟨p, node, joint x.id (cut.first first) p.id rfl⟩

def FreeAnswer (t : RevisionTree) : Answer → Prop
  | .error _ => True
  | .ok none => False
  | .ok (some q) => 0 < q ∧ t.get? q = none

instance (t : RevisionTree) : DecidablePred t.FreeAnswer := fun a => by
  unfold FreeAnswer
  split <;> infer_instance

def sequenceIn : Answer → Option Int
  | .ok (some q) => some q
  | _ => none

structure Fresh (t : RevisionTree) (answers : List Answer) : Prop where
  free : ∀ a ∈ answers, t.FreeAnswer a
  once : (answers.filterMap sequenceIn).Nodup

instance (t : RevisionTree) (answers : List Answer) : Decidable (t.Fresh answers) :=
  decidable_of_iff ((∀ a ∈ answers, t.FreeAnswer a) ∧ (answers.filterMap sequenceIn).Nodup)
    ⟨fun both => ⟨both.1, both.2⟩, fun fresh => ⟨fresh.free, fresh.once⟩⟩

theorem sequencesIn (qs : List Int) :
    (qs.map fun q => (.ok (some q) : Answer)).filterMap sequenceIn = qs := by
  rw [List.filterMap_map]
  exact List.filterMap_some

theorem Fresh.freeFor {t : RevisionTree} {chain : List Revision} {qs : List Int}
    (fresh : t.Fresh (qs.map fun q => .ok (some q))) (length : qs.length = chain.length)
    (positive : ∀ q ∈ qs, 0 < q) : t.FreeFor chain qs where
  length := length
  positive := positive
  free q member := (fresh.free _ (List.mem_map.mpr ⟨q, member, rfl⟩)).2
  once := by
    have once := fresh.once
    rwa [sequencesIn] at once

def chainReport (t grown : RevisionTree) (known : Option Int) (chain : List Revision) :
    InsertReport :=
  ⟨((chain.getLast?).map (·.sequence)).getD noParent, chain.length, known.isNone, t.winner,
    grown.chooseWinner.winner⟩

theorem placeChainGrows {t grown : RevisionTree} {chain : List Revision} (known : Option Int)
    (grows : Grows t chain grown) :
    t.placeChain known.isNone chain =
      .ok (grown.chooseWinner, chainReport t grown known chain) := by
  unfold placeChain
  rw [checkChainGrows (Covers.start t) grows, ← growsFold grows]
  rfl

theorem commitChainFresh {σ : Type} {t : RevisionTree} {parent : Int} {chain : List Revision}
    (staged : t.Staged parent chain) (commit : Commit σ) (s : σ)
    (fresh : t.Fresh (t.commitChain commit.recorded parent chain (s, [])).2.2) :
    (∃ e, (t.commitChain commit.recorded parent chain (s, [])).1 = .error e ∧
        ∃ f, .error f ∈ (t.commitChain commit.recorded parent chain (s, [])).2.2) ∨
      ∃ qs, t.FreeFor chain qs ∧
        (t.commitChain commit.recorded parent chain (s, [])).1 = .ok (placed parent chain qs) := by
  obtain ⟨answers, log, outcome⟩ := commitChainRecorded commit t parent staged.new s []
  rw [List.nil_append] at log
  rw [log] at fresh ⊢
  rcases outcome with ⟨e, failed, a, member, bad⟩ | ⟨qs, rfl, length, positive, ok⟩
  · refine .inl ⟨e, failed, ?_⟩
    have free := fresh.free a member
    cases a with
    | error f => exact ⟨f, member⟩
    | ok given =>
      cases given with
      | none => exact absurd free id
      | some q => exact absurd ⟨q, rfl, free.1⟩ bad
  · exact .inr ⟨qs, fresh.freeFor length positive, ok⟩

theorem insertForeignRecorded {σ : Type} {t : RevisionTree} (wf : t.WellFormed)
    (commit : Commit σ) (s : σ) (r : Revision) (history : List RevisionId)
    (fresh : t.Fresh (t.insertForeign commit.recorded r history (s, [])).2.2) :
    (∃ e, (t.insertForeign commit.recorded r history (s, [])).1 = .error e ∧
        (t.planForeign r history = .error e ∨
          ∃ f, .error f ∈ (t.insertForeign commit.recorded r history (s, [])).2.2)) ∨
      (∃ q, t.planForeign r history = .ok (.present q) ∧
        (t.insertForeign commit.recorded r history (s, [])).1 = .ok (t, .alreadyPresent q)) ∨
      ∃ known chain qs grown, t.planForeign r history = .ok (.missing known chain) ∧
        t.FreeFor chain qs ∧ Grows t (placed (known.getD noParent) chain qs) grown ∧
        (t.insertForeign commit.recorded r history (s, [])).1 =
          .ok (grown.chooseWinner,
            .inserted (chainReport t grown known (placed (known.getD noParent) chain qs))) := by
  unfold insertForeign at fresh ⊢
  cases plan : t.planForeign r history with
  | error e => exact .inl ⟨e, rfl, .inl rfl⟩
  | ok wanted =>
    cases wanted with
    | present q => exact .inr (.inl ⟨q, rfl, rfl⟩)
    | missing known chain =>
      obtain ⟨_, _, descends, shape⟩ := planForeignIff.mp plan
      have staged := planStaged wf descends shape.symm
      have committed := commitChainFresh staged commit s
      simp only [plan] at fresh ⊢
      generalize t.commitChain commit.recorded (known.getD noParent) chain (s, []) = run
        at fresh committed ⊢
      obtain ⟨result, after⟩ := run
      dsimp only at committed
      cases result with
      | error e =>
        rcases committed fresh with ⟨_, _, asked⟩ | ⟨_, _, impossible⟩
        · exact .inl ⟨e, rfl, .inr asked⟩
        · cases impossible
      | ok chain =>
        rcases committed fresh with ⟨_, impossible, _⟩ | ⟨qs, free, same⟩
        · cases impossible
        · cases same
          obtain ⟨grown, grows⟩ := staged.grows free
          refine .inr (.inr ⟨known, _, qs, grown, rfl, free, grows, ?_⟩)
          simp only [placeChainGrows known grows]
          rfl

end RevForest.RevisionTree
