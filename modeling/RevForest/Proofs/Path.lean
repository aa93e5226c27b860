import Mathlib.Data.List.Basic
import RevForest.Proofs.Files

/-! The names of a path. The text of a path and its names say the same, and another extension
changes the last name and none before it. So a temporary file stands beside the file that it is
for, and what is read there depends on it only where the two have one name. -/
namespace RevForest.Path
open FileSystem (names isHere)

theorem splitPlain (cs : List Char) : ∀ part ∈ cs.splitOn '/', '/' ∉ part := by
  induction cs with
  | nil =>
    intro part member
    rw [List.splitOn_nil, List.mem_singleton] at member
    exact member ▸ List.not_mem_nil
  | cons c cs ih =>
    intro part member
    rw [List.splitOn_cons_eq_if_modifyHead] at member
    split at member
    · rcases List.mem_cons.mp member with rfl | later
      · exact List.not_mem_nil
      · exact ih part later
    · rename_i other
      cases parts : cs.splitOn '/' with
      | nil => exact absurd parts (List.splitOn_ne_nil _ _)
      | cons first rest =>
        rw [parts] at member ih
        rcases List.mem_cons.mp member with rfl | later
        · refine fun there => ih first List.mem_cons_self ?_
          exact (List.mem_cons.mp there).resolve_left fun same => other (beq_iff_eq.mpr same.symm)
        · exact ih part (List.mem_cons_of_mem _ later)

theorem namesPlain {path name : String} (member : name ∈ names path) : '/' ∉ name.toList := by
  obtain ⟨part, there, rfl⟩ := List.mem_map.mp member
  rw [String.toList_ofList]
  exact splitPlain _ part there

theorem namesJoin {ns : List String} (filled : ns ≠ []) (plain : ∀ n ∈ ns, '/' ∉ n.toList) :
    names (join ns) = ns := by
  have apart : ∀ part ∈ ns.map String.toList, '/' ∉ part := List.forall_mem_map.mpr plain
  have text : (join ns).toList = ['/'].intercalate (ns.map String.toList) :=
    String.toList_intercalate
  unfold names
  rw [text, List.splitOn_intercalate _ apart (fun none => filled (List.map_eq_nil_iff.mp none)),
    List.map_map]
  exact (List.map_congr_left fun n _ => String.ofList_toList).trans (List.map_id _)

theorem joinNames (path : String) : join (names path) = path := by
  refine String.toList_inj.mp ?_
  unfold join names
  rw [String.toList_intercalate, List.map_map]
  have parts : (path.toList.splitOn '/').map (String.toList ∘ String.ofList) =
      path.toList.splitOn '/' :=
    (List.map_congr_left fun _ _ => String.toList_ofList).trans (List.map_id _)
  rw [parts]
  exact List.intercalate_splitOn '/'

theorem startPlain {name : String} (plain : '/' ∉ name.toList) (filled : name ≠ "")
    (rest : List String) : Place.start (join (name :: rest)) = .working := by
  have first : (join (name :: rest)).toList.head? = name.toList.head? := by
    cases chars : name.toList with
    | nil => exact absurd (String.toList_eq_nil_iff.mp chars) filled
    | cons c cs =>
      cases rest with
      | nil => rw [join, String.intercalate_singleton, chars]
      | cons next rest =>
        rw [join, String.intercalate_cons_cons, String.append_assoc, String.toList_append, chars]
        rfl
  unfold Place.start
  rw [first, if_neg]
  exact fun slash => plain (List.mem_of_head? slash)

theorem startCons (name : String) {rest others : List String} (filled : rest ≠ [])
    (filled' : others ≠ []) :
    Place.start (join (name :: rest)) = Place.start (join (name :: others)) := by
  have first {rest : List String} (filled : rest ≠ []) :
      (join (name :: rest)).toList.head? = (name.toList ++ ['/']).head? := by
    obtain ⟨next, rest, rfl⟩ := List.exists_cons_of_ne_nil filled
    have slash : ("/" : String).toList = ['/'] := rfl
    rw [join, String.intercalate_cons_cons, String.toList_append, String.toList_append, slash]
    cases name.toList <;> rfl
  unfold Place.start
  rw [first filled, first filled']

structure Splits (path : String) (front : List String) (name : String) (back : List String) :
    Prop where
  names : FileSystem.names path = front ++ name :: back
  own : isHere name = false
  idle : ∀ n ∈ back, isHere n = true

variable {path name : String} {front back : List String}

theorem Splits.filled (splits : Splits path front name back) : path ≠ "" := by
  rintro rfl
  have member : name ∈ FileSystem.names "" := by
    rw [splits.names]
    exact List.mem_append_right _ List.mem_cons_self
  have none : name = "" := List.mem_singleton.mp member
  have own := splits.own
  rw [none] at own
  cases own

theorem Splits.trimmed (splits : Splits path front name back) :
    trim (FileSystem.names path) = front ++ [name] := by
  have dark : ¬ isHere name = true := Bool.eq_false_iff.mp splits.own
  have idle : ∀ n ∈ back.reverse, isHere n = true :=
    fun n member => splits.idle n (List.mem_reverse.mp member)
  unfold trim
  rw [splits.names, List.reverse_append, List.reverse_cons, List.append_assoc,
    List.dropWhile_append_of_pos idle]
  rw [List.singleton_append, List.dropWhile_cons_of_neg dark, List.reverse_cons,
    List.reverse_reverse]

theorem splitsOrNone (path : String) :
    trim (names path) = [] ∨ ∃ front name back, Splits path front name back := by
  have whole := (List.takeWhile_append_dropWhile (p := isHere) (l := (names path).reverse)).symm
  have own := List.head?_dropWhile_not isHere (names path).reverse
  cases kept : (names path).reverse.dropWhile isHere with
  | nil =>
    left
    rw [trim, kept]
    rfl
  | cons name before =>
    right
    rw [kept] at whole own
    have all := congrArg List.reverse whole
    rw [List.reverse_reverse, List.reverse_append, List.reverse_cons, List.append_assoc] at all
    refine ⟨before.reverse, name, _, all, own, fun n member => ?_⟩
    exact List.all_eq_true.mp List.all_takeWhile n (List.mem_reverse.mp member)

theorem Splits.plain (splits : Splits path front name back) :
    (∀ n ∈ front, '/' ∉ n.toList) ∧ '/' ∉ name.toList := by
  have plain : ∀ n ∈ front ++ name :: back, '/' ∉ n.toList := fun n member =>
    namesPlain (splits.names ▸ member)
  obtain ⟨before, after⟩ := List.forall_mem_append.mp plain
  exact ⟨before, after name List.mem_cons_self⟩

theorem Splits.start (splits : Splits path front name back) {other : String}
    (plain : '/' ∉ other.toList) (own : isHere other = false) :
    Place.start (join (front ++ [other])) = Place.start path := by
  have filled {n : String} (own : isHere n = false) : n ≠ "" := by
    rintro rfl
    cases own
  rw [← joinNames path, splits.names]
  cases front with
  | nil =>
    exact (startPlain plain (filled own) []).trans
      (startPlain splits.plain.2 (filled splits.own) back).symm
  | cons first rest =>
    exact startCons first (List.append_ne_nil_of_right_ne_nil _ (List.cons_ne_nil _ _))
      (List.append_ne_nil_of_right_ne_nil _ (List.cons_ne_nil _ _))

theorem Splits.startFront (splits : Splits path front name back) (filled : join front ≠ "") :
    Place.start (join front) = Place.start path := by
  rw [← joinNames path, splits.names]
  cases front with
  | nil => exact absurd rfl filled
  | cons first rest =>
    cases rest with
    | nil =>
      have plain := splits.plain.1 first List.mem_cons_self
      have filled : first ≠ "" := fun none => filled (none ▸ rfl)
      exact (startPlain plain filled []).trans (startPlain plain filled (name :: back)).symm
    | cons next rest => exact startCons first (List.cons_ne_nil _ _) (List.cons_ne_nil _ _)

theorem Splits.parent (splits : Splits path front name back) : parent path = join front := by
  unfold Path.parent
  rw [splits.trimmed, List.dropLast_concat]

theorem stemPlain (plain : '/' ∉ name.toList) : '/' ∉ (stem name).toList := by
  unfold stem
  dsimp only
  split
  · split
    · exact plain
    · rw [String.toList_ofList]
      intro there
      have kept := List.mem_of_mem_drop (List.mem_reverse.mp there)
      exact plain (List.mem_reverse.mp ((List.dropWhile_sublist _).subset kept))
  · exact plain

theorem Splits.extended (splits : Splits path front name back) (notUp : name ≠ "..")
    (extension : String) (plain : '/' ∉ extension.toList) (filled : extension ≠ "") :
    ∃ other, withExtension path extension = join (front ++ [other]) ∧ '/' ∉ other.toList ∧
      isHere other = false := by
  have last : (trim (FileSystem.names path)).getLast? = some name := by
    rw [splits.trimmed, List.getLast?_concat]
  have before : (trim (FileSystem.names path)).dropLast = front := by
    rw [splits.trimmed, List.dropLast_concat]
  unfold withExtension
  dsimp only
  rw [last, before]
  dsimp only
  rw [if_neg notUp]
  split
  · exact ⟨"..", rfl, by decide, by decide⟩
  · refine ⟨stem name ++ "." ++ extension, rfl, ?_, ?_⟩
    · rw [String.toList_append, String.toList_append, List.mem_append, List.mem_append, not_or,
        not_or]
      exact ⟨⟨stemPlain splits.plain.2, by decide⟩, plain⟩
    · have long : 1 < (stem name ++ "." ++ extension).toList.length := by
        have some : 0 < extension.toList.length :=
          List.length_pos_of_ne_nil fun none => filled (String.toList_eq_nil_iff.mp none)
        have dot : (".".toList).length = 1 := rfl
        rw [String.toList_append, String.toList_append, List.length_append, List.length_append, dot]
        omega
      have apart {s : String} (short : s.toList.length ≤ 1) :
          stem name ++ "." ++ extension ≠ s := by
        rintro same
        rw [same] at long
        omega
      unfold isHere
      rw [decide_eq_false (apart (s := "") (by decide)),
        decide_eq_false (apart (s := ".") (by decide))]
      rfl

theorem extendedNone (extension : String)
    (none : trim (names path) = [] ∨ ∃ front back, Splits path front ".." back) :
    withExtension path extension = path := by
  unfold withExtension
  rcases none with none | ⟨front, back, splits⟩
  · dsimp only
    rw [none]
    rfl
  · dsimp only
    rw [splits.trimmed, List.getLast?_concat]
    exact if_pos rfl

def last? (path : String) : Option String := (trim (names path)).getLast?

/-- The last name has the extension of temporary files already, or the path has none to extend. -/
def OwnTemporary (path : String) : Prop := last? (withExtension path "tmp") = last? path

instance (path : String) : Decidable (OwnTemporary path) :=
  inferInstanceAs (Decidable (_ = _))

structure Beside (path : String) (front : List String) (name : String) (back : List String)
    (other sibling : String) : Prop where
  splits : Splits path front name back
  notUp : name ≠ ".."
  split : Splits sibling front other []
  start : Place.start sibling = Place.start path

theorem temporaryPath (path : String) :
    (withExtension path "tmp" = path ∧ OwnTemporary path) ∨
      ∃ front name back other, Beside path front name back other (withExtension path "tmp") ∧
        (OwnTemporary path ↔ other = name) := by
  have same (kept : withExtension path "tmp" = path) : OwnTemporary path := by
    rw [OwnTemporary, kept]
  rcases splitsOrNone path with none | ⟨front, name, back, splits⟩
  · have kept := extendedNone "tmp" (.inl none)
    exact .inl ⟨kept, same kept⟩
  by_cases up : name = ".."
  · have kept := extendedNone "tmp" (.inr ⟨front, back, up ▸ splits⟩)
    exact .inl ⟨kept, same kept⟩
  right
  obtain ⟨other, extended, plain, own⟩ := splits.extended up "tmp" (by decide) (by decide)
  have filled : front ++ [other] ≠ [] := List.append_ne_nil_of_right_ne_nil _ (List.cons_ne_nil _ _)
  have all : ∀ n ∈ front ++ [other], '/' ∉ n.toList :=
    List.forall_mem_append.mpr ⟨splits.plain.1, List.forall_mem_singleton.mpr plain⟩
  have names : names (withExtension path "tmp") = front ++ [other] := by
    rw [extended, namesJoin filled all]
  have split : Splits (withExtension path "tmp") front other [] :=
    ⟨names, own, List.forall_mem_nil _⟩
  refine ⟨front, name, back, other, ⟨splits, up, split, extended ▸ splits.start plain own⟩, ?_⟩
  rw [OwnTemporary, last?, last?, split.trimmed, splits.trimmed, List.getLast?_concat,
    List.getLast?_concat, Option.some_inj]

theorem upApart (here : Place) (notUp : name ≠ "..") : here.up ≠ here ++ [name] := by
  unfold Place.up
  split
  · rename_i above
    intro same
    have member : name ∈ ".." :: here := same ▸ List.mem_append_right _ List.mem_cons_self
    rcases List.mem_cons.mp member with first | later
    · exact notUp first
    · exact notUp (of_decide_eq_true (List.all_eq_true.mp above name later))
  · split
    · rename_i root
      rw [← root]
      exact fun same => absurd (congrArg List.length same) (by simp)
    · intro same
      have length := congrArg List.length same
      rw [List.length_dropLast, List.length_append, List.length_singleton] at length
      omega

variable {other sibling : String} {fs later : FileSystem} {place : Place}

theorem Beside.way (beside : Beside path front name back other sibling)
    (leads : fs.Leads sibling place) :
    ∃ here, fs.follow (Place.start path) front = .ok here ∧ fs.entry? here = some .directory ∧
      (other = ".." ∧ place = here.up ∨
        other ≠ ".." ∧ ¬ FileSystem.maxNameBytes < other.utf8ByteSize ∧
          place = here ++ [other]) := by
  have located := leads.located
  unfold FileSystem.locate at located
  rw [if_neg beside.split.filled, FileSystem.readNames] at located
  split at located
  · cases located
  · split at located
    · cases located
    · have found : fs.follow (Place.start sibling) (FileSystem.names sibling) = .ok place := located
      rw [beside.split.names, beside.start, FileSystem.followAppend] at found
      cases front' : fs.follow (Place.start path) front with
      | error f =>
        rw [front'] at found
        cases found
      | ok here =>
        rw [front'] at found
        obtain ⟨there, same⟩ := FileSystem.followLast beside.split.own found
        exact ⟨here, rfl, there, same⟩

theorem Beside.readBytes (beside : Beside path front name back other sibling) (apart : other ≠ name)
    (leads : fs.Leads sibling place) {content : List UInt8}
    (filled : fs.Filled place content later) : later.readBytes path = fs.readBytes path := by
  obtain ⟨here, along, there, last⟩ := beside.way leads
  have elsewhere : here ++ [name] ≠ place := by
    rcases last with ⟨_, rfl⟩ | ⟨_, _, rfl⟩
    · exact (upApart here beside.notUp).symm
    · exact fun same => apart (List.singleton_inj.mp (List.append_cancel_left same)).symm
  have same := filled.elsewhere elsewhere
  have kept := (filled.keeps leads.fits).1
  obtain ⟨follows, still⟩ := FileSystem.followIdle same.symm beside.splits.idle
  have dark : ¬ isHere name = true := Bool.eq_false_iff.mp beside.splits.own
  -- Both ways go on from the same directory, by the same name.
  have onward : later.follow here (name :: back) = fs.follow here (name :: back) ∧
      ∀ place, fs.follow here (name :: back) = .ok place → place = here ++ [name] := by
    rw [FileSystem.follow, FileSystem.follow, there, kept here there]
    dsimp only
    rw [if_neg dark, if_neg dark, if_neg beside.notUp, if_neg beside.notUp]
    split
    · exact ⟨rfl, fun place found => by cases found⟩
    · exact ⟨follows.symm, still⟩
  have located : later.locate path = fs.locate path ∧
      ∀ place, fs.locate path = .ok place → place = here ++ [name] := by
    unfold FileSystem.locate
    split
    · exact ⟨rfl, fun place found => by cases found⟩
    · unfold FileSystem.readNames
      split
      · exact ⟨rfl, fun place found => by cases found⟩
      · split
        · exact ⟨rfl, fun place found => by cases found⟩
        · simp only [bind, Except.bind]
          rw [beside.splits.names, FileSystem.followAppend, FileSystem.followAppend, along,
            kept.follow along]
          exact onward
  unfold FileSystem.readBytes
  rw [located.1]
  cases found : fs.locate path with
  | error f => rfl
  | ok place =>
    cases located.2 place found
    simp only [bind, Except.bind]
    rw [same]

theorem readEmpty (located : ∀ p, later.locate path = .ok p → p = place)
    (found : later.locate path ≠ .error .missing) (there : later.entry? place = some (.file [])) :
    later.readText path ≠ .error .missing ∧
      ∀ text, later.readText path = .ok text → text = "" := by
  have empty : String.fromUTF8? ⟨([] : List UInt8).toArray⟩ = some "" := by decide
  unfold FileSystem.readText FileSystem.readBytes
  cases path' : later.locate path with
  | error f =>
    rw [path'] at found
    exact ⟨fun missing => found (congrArg Except.error (Except.error.inj missing)),
      fun text read => by cases read⟩
  | ok p =>
    cases located p path'
    simp only [bind, Except.bind, there, empty]
    exact ⟨fun same => (by cases same), fun text read => (Except.ok.inj read).symm⟩

theorem ownRead (own : OwnTemporary path) (leads : fs.Leads (withExtension path "tmp") place)
    (filled : fs.Filled place [] later) :
    later.readText path ≠ .error .missing ∧
      ∀ text, later.readText path = .ok text → text = "" := by
  have kept := (filled.keeps leads.fits).1
  rcases temporaryPath path with ⟨same, _⟩ | ⟨front, name, back, other, beside, ownIff⟩
  · rw [same] at leads
    have located := kept.locate leads.located
    refine readEmpty (fun p found => ?_) (fun missing => ?_) filled.there
    · exact Except.ok.inj (found.symm.trans located)
    · cases located.symm.trans missing
  · obtain rfl := ownIff.mp own
    obtain ⟨here, along, there, last⟩ := beside.way leads
    obtain ⟨_, short, rfl⟩ := last.resolve_left fun up => beside.notUp up.1
    have dark : ¬ isHere other = true := Bool.eq_false_iff.mp beside.splits.own
    -- Behind the name nothing goes on from a file.
    have onward : later.follow here (other :: back) ≠ .error .missing ∧
        ∀ p, later.follow here (other :: back) = .ok p → p = here ++ [other] := by
      have idle : ∀ p, later.follow (here ++ [other]) back = .ok p → p = here ++ [other] :=
        (FileSystem.followIdle rfl beside.splits.idle).2
      rw [FileSystem.follow, kept here there]
      dsimp only
      rw [if_neg dark, if_neg beside.notUp, if_neg short]
      refine ⟨?_, idle⟩
      cases back with
      | nil => exact fun missing => by cases missing
      | cons n rest =>
        rw [FileSystem.follow, filled.there]
        exact fun missing => by cases missing
    have located : later.locate path ≠ .error .missing ∧
        ∀ p, later.locate path = .ok p → p = here ++ [other] := by
      unfold FileSystem.locate
      rw [if_neg beside.splits.filled, FileSystem.readNames]
      split
      · exact ⟨fun missing => (by cases missing), fun p found => by cases found⟩
      · split
        · exact ⟨fun missing => (by cases missing), fun p found => by cases found⟩
        · simp only [bind, Except.bind]
          rw [beside.splits.names, FileSystem.followAppend, kept.follow along]
          exact onward
    exact readEmpty located.2 located.1 filled.there

end RevForest.Path
