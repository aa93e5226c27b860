import RevForest.Copies
/-!
The full map of a revision is computed when it is first read and kept until the body changes. A
copy starts without one, whether or not the revision that it is copied from has one.
-/
namespace RevForest

structure MappedRevision where
  revision : Revision
  full : Option (Dict String Json) := none

namespace MappedRevision

def fullMap (m : MappedRevision) : Dict String Json × MappedRevision :=
  let full := m.full.getD m.revision.fullMap
  (full, { m with full := some full })

def documentJson (m : MappedRevision) : String × MappedRevision :=
  let (full, m) := m.fullMap
  ((Json.ofDict full).render, m)

/-- Only a new body drops the map: nothing in it comes from what other edits change. -/
def edited (m : MappedRevision) (e : ContentEdit) : MappedRevision :=
  { revision := m.revision.edited e
    full := match e with
      | .body _ => none
      | _ => m.full }

def copy (m : MappedRevision) : MappedRevision := { revision := m.revision }

def project (m : MappedRevision) (fields : List String) : MappedRevision :=
  { revision := m.revision.project fields }

end MappedRevision

inductive Use where
  | command (command : Command)
  | readMap (i : Nat)
  | readJson (i : Nat)

inductive Reading where
  | map (full : Dict String Json)
  | json (text : String)

namespace Use

def perform (ms : List MappedRevision) : Command → List MappedRevision
  | .copy i => ms ++ (ms[i]?.map (·.copy)).toList
  | .project i fields => ms ++ (ms[i]?.map (·.project fields)).toList
  | .edit i e => ms.modify i (·.edited e)
  | .detach _ | .editLoose _ _ => ms

def read {α : Type} (ms : List MappedRevision) (i : Nat)
    (look : MappedRevision → α × MappedRevision) : Option α × List MappedRevision :=
  match ms[i]? with
  | none => (none, ms)
  | some m => (some (look m).1, ms.set i (look m).2)

def step (ms : List MappedRevision) : Use → Option Reading × List MappedRevision
  | .command c => (none, perform ms c)
  | .readMap i =>
    let (full, ms) := read ms i (·.fullMap)
    (full.map .map, ms)
  | .readJson i =>
    let (text, ms) := read ms i (·.documentJson)
    (text.map .json, ms)

def run (ms : List MappedRevision) : List Use → List (Option Reading)
  | [] => []
  | use :: rest =>
    let (answer, ms) := use.step ms
    answer :: run ms rest

end Use
end RevForest
