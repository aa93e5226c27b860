import RevForest.Proofs.Store.Durable

/-! Documents whose cached tree is behind what is stored of them. Loading a document fails by a
call only, as long as what is stored of it links up. A read lets no tree fall behind. A write
that failed is settled by a load, and the tree of its document is behind where a part of the
write is stored and that load fails too. -/
namespace RevForest

namespace Datastore
variable {β α γ ρ : Type} {v : Backend.View β} {s s' s'' u after : Datastore β} {d : DocumentId}
  {t : RevisionTree} {new : DocumentId → Prop}

def Lags (v : Backend.View β) (s : Datastore β) (d : DocumentId) : Prop :=
  ∃ t, s.cache.find? d = some t ∧ ¬ v.Current s.backend d t

/-- What is stored links up, and of all trees only these have fallen behind. -/
structure Follows (v : Backend.View β) (new : DocumentId → Prop) (s s' : Datastore β) : Prop where
  intact : v.Intact s'.backend
  sorted : s'.cache.Sorted
  lags : ∀ d, s'.Lags v d → s.Lags v d ∨ new d

abbrev Level (v : Backend.View β) (s s' : Datastore β) : Prop := s.Follows v (fun _ => False) s'

namespace Follows

theorem trans (first : s.Follows v new s') (later : s'.Follows v new s'') :
    s.Follows v new s'' where
  intact := later.intact
  sorted := later.sorted
  lags d late := by
    rcases later.lags d late with before | here
    · exact first.lags d before
    · exact .inr here

theorem mono {more : DocumentId → Prop} (follows : s.Follows v new s')
    (wider : ∀ d, new d → more d) : s.Follows v more s' :=
  ⟨follows.intact, follows.sorted, fun d late => (follows.lags d late).imp_right (wider d)⟩

theorem refl (intact : v.Intact s.backend) (sorted : s.cache.Sorted) : s.Follows v new s :=
  ⟨intact, sorted, fun _ => .inl⟩

theorem cached (follows : s.Follows v new s') (same : s''.backend = s'.backend)
    (sorted : s''.cache.Sorted)
    (trees : ∀ d t, s''.cache.find? d = some t →
      s'.cache.find? d = some t ∨ v.Current s'.backend d t) : s.Follows v new s'' where
  intact := same ▸ follows.intact
  sorted := sorted
  lags d late := by
    obtain ⟨t, found, stale⟩ := late
    rw [same] at stale
    rcases trees d t found with old | current
    · exact follows.lags d ⟨t, old, stale⟩
    · exact absurd current stale

theorem quiet (follows : s.Follows v new s') (quiet : s'.Quiet s'') : s.Follows v new s'' :=
  follows.cached quiet.backend (quiet.cache ▸ follows.sorted) fun _ _ found =>
    .inl (quiet.cache ▸ found)

theorem reply {o : Outcome β α} (follows : s.Follows v new o.2) (wrap : α → Reply) :
    s.Follows v new (o.reply wrap).2 := follows

theorem withParent (follows : s.Follows v new s') {document parent : String}
    {write : DocumentId → RevisionId → Outcome β Revision}
    (writes : ∀ d p, DocumentId.parse document = .ok d → RevisionId.parse parent = .ok p →
      s.Follows v new (write d p).2) :
    s.Follows v new (s'.withParent document parent write).2 := by
  unfold Datastore.withParent
  split
  · exact follows
  · split
    · exact follows
    · exact writes _ _ ‹_› ‹_›

theorem cacheTree (follows : s.Follows v new s') (current : v.Current s'.backend t.document t) :
    s.Follows v new (s'.cacheTree t) := by
  have inserted := Dict.sortedInsert follows.sorted t.document t
  obtain ⟨sorted, inside⟩ := Dict.findSublist inserted (Dict.dropOthersSublist t.document
    ((s'.cache.insert t.document t).size - s'.config.treeCacheCapacity) _)
  refine follows.cached rfl sorted fun d u found => ?_
  have there := inside d u found
  rw [Dict.findInsert] at there
  split at there
  · rename_i own
    cases there
    exact .inr (own ▸ current)
  · exact .inl there

theorem keepTree (follows : s.Follows v new s') (current : v.Current s'.backend t.document t) :
    s.Follows v new (s'.keepTree t) := by
  unfold Datastore.keepTree
  split
  · refine follows.cached rfl (Dict.sortedInsert follows.sorted _ _) fun d u found => ?_
    rw [Dict.findInsert] at found
    split at found
    · rename_i own
      cases found
      exact .inr (own ▸ current)
    · exact .inl found
  · exact follows

end Follows

theorem keptCurrent (current : v.Current s.backend t.document t) :
    ¬ (s.keepTree t).Lags v t.document := by
  rintro ⟨u, found, stale⟩
  rw [keepTreeBackend] at stale
  unfold Datastore.keepTree at found
  split at found
  · rw [Dict.findInsert, if_pos rfl] at found
    cases found
    exact stale current
  · rename_i absent
    rw [Bool.not_eq_true, Dict.notContains, found] at absent
    cases absent

theorem Follows.repaired (follows : s.Follows v (· = d) s') (level : s'.Level v s'')
    (current : ¬ s''.Lags v d) : s.Level v s'' where
  intact := level.intact
  sorted := level.sorted
  lags e late := by
    have before := (level.lags e late).resolve_right id
    rcases follows.lags e before with old | rfl
    · exact .inl old
    · exact absurd late current

variable [Backend β]

structure Asked (v : Backend.View β) (s s' : Datastore β) : Prop where
  questioned : Backend.Questioned s.backend s'.backend
  adds : v.Adds s.backend [] s'.backend
  cache : s'.cache = s.cache

theorem Asked.refl (usable : v.usable s.backend) : s.Asked v s := ⟨.now, .refl usable, rfl⟩

theorem Asked.trans (first : s.Asked v s') (later : s'.Asked v s'') : s.Asked v s'' :=
  ⟨first.questioned.trans later.questioned, first.adds.trans later.adds,
    later.cache.trans first.cache⟩

theorem Asked.quiet (asked : s.Asked v s') (quiet : s'.Quiet s'') : s.Asked v s'' := by
  obtain ⟨questioned, adds, cache⟩ := asked
  rw [← quiet.backend] at questioned adds
  exact ⟨questioned, adds, quiet.cache.trans cache⟩

inductive Called (v : Backend.View β) (s : Datastore β) (act : β → Except StoreError α × β) :
    Outcome β α → Prop where
  | fails {cause : StoreError} {s' : Datastore β} (silent : Backend.Silent s.backend)
      (asked : s.Asked v s') : Called v s act (.error (.storage cause), s')
  | answers {a : α} {s' : Datastore β} (asked : s.Asked v s')
      (gave : act s.backend = (.ok a, s'.backend)) : Called v s act (.ok a, s')

theorem called (laws : v.Durable) (usable : v.usable s.backend)
    {act : β → Except StoreError α × β} (asks : Backend.Asks act) :
    s.Called v act (s.call act) := by
  have adds := laws.asks asks usable
  have questioned := Backend.Questioned.now.asked (b := s.backend) asks
  unfold call
  cases gave : act s.backend with
  | mk answer after =>
    rw [gave] at adds questioned
    cases answer with
    | error cause =>
      exact .fails ⟨_, .now, _, act, cause, asks, congrArg Prod.fst gave⟩ ⟨questioned, adds, rfl⟩
    | ok a => exact .answers ⟨questioned, adds, rfl⟩ gave

inductive LoadsEntries (v : Backend.View β) (s : Datastore β) (d : DocumentId)
    (entries : List TreeEntry) : Outcome β (List Revision) → Prop where
  | fails {cause : StoreError} {s' : Datastore β} (silent : Backend.Silent s.backend)
      (asked : s.Asked v s') : LoadsEntries v s d entries (.error (.storage cause), s')
  | loads {rs : List Revision} {s' : Datastore β} (asked : s.Asked v s')
      (ids : rs.map (·.id) = entries.map (·.id))
      (stored : ∀ r ∈ rs, r ∈ v.stored s.backend d) : LoadsEntries v s d entries (.ok rs, s')

theorem loadsEntries (laws : v.Durable) (usable : v.usable s.backend) {entries : List TreeEntry}
    (known : ∀ e ∈ entries, ∃ r ∈ v.stored s.backend d, r.id = e.id) :
    s.LoadsEntries v d entries (loadAll d entries s) := by
  induction entries generalizing s with
  | nil => exact .loads (.refl usable) rfl (by simp)
  | cons e rest ih =>
    obtain ⟨⟨x, inside, same⟩, others⟩ := List.forall_mem_cons.mp known
    have asked := called laws usable (.loadRevision d e.id)
    unfold loadAll
    generalize s.call (Backend.loadRevision d e.id) = o at asked
    cases asked with
    | fails silent asked => exact .fails silent asked
    | @answers found u asked gave =>
      obtain ⟨hit, miss⟩ := laws.finds usable gave
      cases found with
      | none => exact absurd same (miss rfl x inside)
      | some r =>
        obtain ⟨stored, own⟩ := hit r rfl
        have later := ih asked.adds.usable fun e member => by
          rw [asked.adds.same]
          exact others e member
        dsimp only [Outcome.andThen]
        generalize loadAll d rest u = o at later
        cases later with
        | fails silent more => exact .fails (asked.questioned.silent silent) (asked.trans more)
        | loads more ids all =>
          refine .loads (asked.trans more) (congrArg₂ List.cons own ids) ?_
          refine List.forall_mem_cons.mpr ⟨stored, ?_⟩
          intro r member
          exact asked.adds.same d ▸ all r member

theorem loadedPerm {rs stored : List Revision} {entries : List TreeEntry}
    (apart : (stored.map (·.id)).Nodup) (listed : entries.Perm (stored.map TreeEntry.ofRevision))
    (ids : rs.map (·.id) = entries.map (·.id)) (inside : ∀ r ∈ rs, r ∈ stored) :
    rs.Perm stored := by
  have same : (entries.map (·.id)).Perm (stored.map (·.id)) := by
    have mapped := listed.map (·.id)
    rwa [List.map_map] at mapped
  have once : rs.Nodup := List.Nodup.of_map _ (ids ▸ same.nodup_iff.mpr apart)
  have length : stored.length ≤ rs.length := by
    have lengths := congrArg List.length ids
    rw [List.length_map, List.length_map, listed.length_eq, List.length_map] at lengths
    exact lengths.ge
  exact (List.subperm_of_subset once inside).perm_of_length_le length

inductive Loads (v : Backend.View β) (s : Datastore β) (d : DocumentId) :
    Outcome β (Option RevisionTree) → Prop where
  | fails {cause : StoreError} {s' : Datastore β} (silent : Backend.Silent s.backend)
      (asked : s.Asked v s') : Loads v s d (.error (.storage cause), s')
  | bare {s' : Datastore β} (asked : s.Asked v s') (nothing : v.stored s.backend d = []) :
      Loads v s d (.ok none, s')
  | builds {t : RevisionTree} {s' : Datastore β} (asked : s.Asked v s')
      (current : v.Current s.backend d t) : Loads v s d (.ok (some t), s')

theorem loads (laws : v.Durable) (intact : v.Intact s.backend) (d : DocumentId) :
    s.Loads v d (s.loadTree d) := by
  have listing := called laws intact.usable (.loadTree d)
  unfold loadTree
  generalize s.call (Backend.loadTree d) = o at listing
  cases listing with
  | fails silent asked => exact .fails silent asked
  | @answers entries u listed gave =>
    have perm := laws.lists intact.usable gave
    simp only [Outcome.andThen]
    split
    · rename_i none
      refine .bare listed ?_
      rw [List.isEmpty_iff.mp none] at perm
      exact List.map_eq_nil_iff.mp perm.nil_eq.symm
    · have keying := called laws listed.adds.usable (.documentKey d)
      generalize u.call (Backend.documentKey d) = o at keying
      cases keying with
      | fails silent asked => exact .fails (listed.questioned.silent silent) (listed.trans asked)
      | @answers key w keyed _ =>
        have asked := listed.trans keyed
        -- What is listed is stored, so no load of a listed revision finds nothing.
        have known : ∀ e ∈ entries, ∃ r ∈ v.stored w.backend d, r.id = e.id := by
          intro e member
          rw [asked.adds.same]
          obtain ⟨r, stored, rfl⟩ := List.mem_map.mp (perm.mem_iff.mp member)
          exact ⟨r, stored, rfl⟩
        have all := loadsEntries laws asked.adds.usable known
        dsimp only
        generalize loadAll d entries w = o at all
        cases all with
        | fails silent more =>
          exact .fails (asked.questioned.silent silent) (asked.trans more)
        | @loads rs _ more ids inside =>
          rw [asked.adds.same] at inside
          have whole := loadedPerm (intact.apart d) perm ids inside
          obtain ⟨t, same, current⟩ := intact.keyed d key
          have built : RevisionTree.ofRevisions d key rs = .ok t := by
            rw [← MemoryBackend.ofSorted, bornOrdered (intact.rising d) whole, ← same]
            exact current
          dsimp only
          rw [built]
          exact .builds ((asked.trans more).quiet (.note _ _ _ _)) current

theorem Asked.follows (asked : s.Asked v s') (intact : v.Intact s.backend)
    (sorted : s.cache.Sorted) : s.Follows v new s' where
  intact := intact.adds asked.adds
  sorted := asked.cache ▸ sorted
  lags d late := by
    obtain ⟨t, found, stale⟩ := late
    refine .inl ⟨t, asked.cache ▸ found, fun current => stale (current.same (asked.adds.same d))⟩

inductive Obtains (v : Backend.View β) (s : Datastore β) (d : DocumentId) :
    Outcome β RevisionTree → Prop where
  | fails {cause : StoreError} {s' : Datastore β} (level : s.Level v s') :
      Obtains v s d (.error (.storage cause), s')
  | gives {t : RevisionTree} {s' : Datastore β} (level : s.Level v s')
      (same : ∀ e, v.stored s'.backend e = v.stored s.backend e)
      (current : ¬ s.Lags v d → v.Current s'.backend d t) : Obtains v s d (.ok t, s')

theorem obtains (laws : v.Durable) (intact : v.Intact s.backend) (sorted : s.cache.Sorted)
    (d : DocumentId) (create : Bool) : s.Obtains v d (s.treeOf d create) := by
  unfold treeOf
  split
  · rename_i t found
    refine .gives (.refl intact sorted) (fun _ => rfl) fun caughtUp => ?_
    by_contra stale
    exact caughtUp ⟨t, found, stale⟩
  · have loaded := loads laws intact d
    generalize s.loadTree d = o at loaded
    cases loaded with
    | fails silent asked => exact .fails (asked.follows intact sorted)
    | @builds t u asked current =>
      have there := current.same (asked.adds.same d)
      refine .gives ((asked.follows intact sorted).cacheTree ?_) asked.adds.same fun _ => there
      rwa [there.document]
    | @bare u asked nothing =>
      have level : s.Level v u := asked.follows intact sorted
      have there {w : Datastore β} (asked : s.Asked v w) (key : Int) :
          v.Current w.backend d (.empty d key) := .bare ((asked.adds.same d).trans nothing) key
      dsimp only [Outcome.andThen]
      split
      · have keyed := called laws level.intact.usable (.documentKey d)
        generalize u.call (Backend.documentKey d) = o at keyed
        cases keyed with
        | fails silent more => exact .fails ((asked.trans more).follows intact sorted)
        | @answers key w more gave =>
          have both := asked.trans more
          exact .gives ((both.follows intact sorted).cacheTree (there both key)) both.adds.same
            fun _ => there both key
      · exact .gives level asked.adds.same fun _ => there asked _

theorem Follows.fetch (follows : s.Follows v new s') (laws : v.Durable) (d : DocumentId)
    (create : Bool) : s.Follows v new (s'.treeOf d create).2 := by
  have obtained := obtains laws follows.intact follows.sorted d create
  generalize s'.treeOf d create = o at obtained
  cases obtained with
  | fails level => exact follows.trans (level.mono fun _ => False.elim)
  | gives level same current => exact follows.trans (level.mono fun _ => False.elim)

theorem Follows.ask (follows : s.Follows v new s') (laws : v.Durable)
    {act : β → Except StoreError α × β} (asks : Backend.Asks act) :
    s.Follows v new (s'.call act).2 := by
  have asked := called laws follows.intact.usable asks
  generalize s'.call act = o at asked
  cases asked with
  | fails silent asked => exact follows.trans (asked.follows follows.intact follows.sorted)
  | answers asked gave => exact follows.trans (asked.follows follows.intact follows.sorted)

namespace Follows

theorem readTree (follows : s.Follows v new s') (laws : v.Durable) (document : String)
    (read : DocumentId → RevisionTree → Except DocumentError α) :
    s.Follows v new (s'.readTree document read).2 := by
  unfold Datastore.readTree
  split
  · exact follows
  · exact keepThen (follows.fetch laws _ false) fun t u follows => follows

theorem conflictedAmong (follows : s.Follows v new s') (laws : v.Durable)
    (ds : List DocumentId) : s.Follows v new (Datastore.conflictedAmong ds s').2 := by
  induction ds generalizing s' with
  | nil => exact follows
  | cons d ds ih =>
    refine keepThen (follows.fetch laws d false) fun t u follows => ?_
    exact keepThen (ih follows) fun found u follows => follows

theorem completed (follows : s.Follows v new s') (laws : v.Durable) (r : Revision) :
    s.Follows v new (s'.completed r).2 := by
  unfold Datastore.completed
  split
  · exact keepThen (follows.ask laws (.loadRevision _ _)) fun found u follows => follows
  · exact follows

theorem materialize (follows : s.Follows v new s') (laws : v.Durable) (r : Revision) :
    s.Follows v new (s'.materialize r).2 := by
  have done := follows.completed laws r
  unfold Datastore.materialize
  dsimp only
  split
  · exact done
  · generalize s'.completed r = o at done
    obtain ⟨answer, after⟩ := o
    cases answer with
    | ok full => exact done.quiet ((Quiet.count _ (by decide)).trans (.report _ _ _))
    | error e =>
      cases e with
      | documentNotFound d id => exact done.quiet (.note after _ _ _)
      | _ => exact done

theorem reads (follows : s.Follows v new s') (laws : v.Durable) {q : Request}
    (read : q.isRead = true) : s.Follows v new (s'.serve q).2 := by
  cases q with
  | create | update | save | delete | force | resolve => cases read
  | current document => exact (follows.readTree laws document _).reply _
  | revision document id => exact (follows.readTree laws document _).reply _
  | conflicted document => exact (follows.readTree laws document _).reply _
  | leaves document => exact (follows.readTree laws document _).reply _
  | conflicts document => exact (follows.readTree laws document _).reply _
  | history document id => exact (follows.readTree laws document _).reply _
  | since document since => exact (follows.readTree laws document _).reply _
  | conflictedDocuments =>
    exact reply (keepThen (follows.ask laws .documentIds)
      fun ds u follows => follows.conflictedAmong laws ds) _
  | project document fields =>
    exact reply (keepThen (follows.readTree laws document _) fun r u follows => follows) _
  | materialize r => exact follows.materialize laws r
  | lastSequence => exact follows.ask laws .lastSequence

end Follows

/-- More of the document is stored than its tree has, and the load that was to repair the tree
failed. -/
structure Stranded (v : Backend.View β) (s s' : Datastore β) (d : DocumentId)
    (front : List Revision) : Prop where
  some : front ≠ []
  stored : v.stored s'.backend d = v.stored s.backend d ++ front
  unloaded : ∃ (u u' : Datastore β) (cause : StoreError),
    v.stored u.backend d = v.stored s'.backend d ∧
      u.loadTree d = (.error (.storage cause), u') ∧ u'.Quiet s'

theorem Quiet.settle {e : DocumentError} (s : Datastore β) (t : RevisionTree)
    (plain : e.Recoverable) : s.Quiet (s.settle t e) := by
  unfold Datastore.settle
  split
  · exact (Quiet.count s (by decide)).trans (.note _ _ _ _)
  · exact absurd rfl (plain _)
  · exact .refl s

theorem settled (laws : v.Durable) {front : List Revision}
    (follows : s.Follows v (fun e => e = t.document ∧ front ≠ []) after)
    (stored : v.stored after.backend t.document = v.stored s.backend t.document ++ front)
    (cause : StoreError) :
    s.Follows v (fun e => e = t.document ∧
      s.Stranded v (after.settle t (.storage cause)) t.document front)
      (after.settle t (.storage cause)) := by
  unfold Datastore.settle
  dsimp only
  generalize named : Datastore.note _ _ _ _ = u
  have quiet : after.Quiet u := by
    rw [← named]
    exact (Quiet.count after (by decide)).trans (.note _ _ _ _)
  have follows := follows.quiet quiet
  have same : u.backend = after.backend := quiet.backend
  have loaded := loads laws follows.intact t.document
  unfold Datastore.reload
  generalize ran : u.loadTree t.document = o at loaded
  -- However the load succeeds, the tree that is put in place is the one of what is stored.
  have repaired {w : Datastore β} {fresh : RevisionTree} (asked : u.Asked v w)
      (current : v.Current u.backend t.document fresh) :
      s.Level v (w.keepTree fresh) := by
    have there := current.same (asked.adds.same t.document)
    have own := there.document
    have asked : u.Level v w := asked.follows follows.intact follows.sorted
    refine (follows.mono fun _ => And.left).repaired (asked.keepTree ?_) ?_
    · rwa [own]
    · rw [← own] at there ⊢
      exact keptCurrent there
  cases loaded with
  | bare asked nothing => exact (repaired asked (.bare nothing t.key)).mono fun _ => False.elim
  | builds asked current => exact (repaired asked current).mono fun _ => False.elim
  | @fails cause u' silent asked =>
    dsimp only
    generalize noted : Datastore.note _ _ _ _ = w
    have told : u'.Quiet w := noted ▸ .note u' _ _ _
    have all := (follows.trans (asked.follows follows.intact follows.sorted)).quiet told
    refine ⟨all.intact, all.sorted, fun e late => ?_⟩
    have unchanged : v.stored w.backend t.document = v.stored after.backend t.document := by
      rw [told.backend, asked.adds.same, same]
    rcases all.lags e late with before | ⟨rfl, some⟩
    · exact .inl before
    · refine .inr ⟨rfl, some, unchanged.trans stored, u, u', cause, ?_, ran, told⟩
      rw [unchanged, same]

end Datastore
end RevForest
