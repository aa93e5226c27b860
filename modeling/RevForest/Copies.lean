import RevForest.Revision
/-!
Revisions as callers hold them. Every revision has a flag of its own for edits, and its attachments
have a hook that raises a flag when they change. A copy gets a new flag and a new hook; attachments
that are copied alone get no hook.
-/
namespace RevForest

inductive ContentEdit where
  | body (body : DocumentBody)
  | attachments (entries : Dict String Attachment)
  | change (edit : AttachmentEdit)
  | sequence (sequence : Int)

def Revision.edited (r : Revision) : ContentEdit → Revision
  | .body body => r.setBody body
  | .attachments entries => r.setAttachments entries
  | .change edit => (r.editAttachments edit).1
  | .sequence sequence => (r.initializeSequence sequence).1

structure WatchedMap where
  map : AttachmentMap
  hook : Option Nat

structure Copy where
  /-- What is not shared; its attachments and its dirty flag are not read. -/
  kept : Revision
  attachments : WatchedMap
  flag : Nat

inductive Command where
  | copy (i : Nat)
  | project (i : Nat) (fields : List String)
  | edit (i : Nat) (edit : ContentEdit)
  | detach (i : Nat)
  | editLoose (j : Nat) (edit : AttachmentEdit)

structure Desk where
  flags : List Bool
  copies : List Copy
  loose : List WatchedMap

namespace Desk

def shown (k : Desk) (c : Copy) : Revision :=
  { c.kept with attachments := c.attachments.map, dirty := k.flags.getD c.flag false }

def values (k : Desk) : List Revision := k.copies.map k.shown

def assemble (k : Desk) (r : Revision) : Desk :=
  let flag := k.flags.length
  { k with
    flags := k.flags ++ [r.dirty]
    copies := k.copies ++ [{ kept := r, attachments := ⟨r.attachments, some flag⟩, flag }] }

def of (r : Revision) : Desk := assemble ⟨[], [], []⟩ r

def raise (k : Desk) : Option Nat → Desk
  | none => k
  | some flag => { k with flags := k.flags.set flag true }

def put (k : Desk) (i : Nat) (c : Copy) : Desk := { k with copies := k.copies.set i c }

def edit (k : Desk) (i : Nat) (c : Copy) : ContentEdit → Desk
  | .body body => (k.put i { c with kept := { c.kept with body } }).raise (some c.flag)
  | .attachments entries =>
    (k.put i { c with attachments := ⟨.ofDict entries, some c.flag⟩ }).raise (some c.flag)
  | .change edit =>
    let done := c.attachments.map.edit edit
    (k.put i { c with attachments := { c.attachments with map := done.map } }).raise
      (if done.changed then c.attachments.hook else none)
  | .sequence sequence => k.put i { c with kept := (c.kept.initializeSequence sequence).1 }

def step (k : Desk) : Command → Desk
  | .copy i =>
    match k.copies[i]? with
    | none => k
    | some c => k.assemble (k.shown c)
  | .project i fields =>
    match k.copies[i]? with
    | none => k
    | some c => k.assemble ((k.shown c).project fields)
  | .edit i edit =>
    match k.copies[i]? with
    | none => k
    | some c => k.edit i c edit
  | .detach i =>
    match k.copies[i]? with
    | none => k
    | some c => { k with loose := k.loose ++ [{ c.attachments with hook := none }] }
  | .editLoose j edit =>
    match k.loose[j]? with
    | none => k
    | some m =>
      let done := m.map.edit edit
      { k with loose := k.loose.set j { m with map := done.map } }.raise
        (if done.changed then m.hook else none)

def run (k : Desk) (commands : List Command) : Desk := commands.foldl step k

end Desk
end RevForest
