import RevForest.Revision
import RevForest.Sequence
/-!
What a store needs of the place where revisions are kept: one counter of sequences for all
documents, and the revisions that were persisted. Any operation may fail, and any may change the
place. The one given here keeps revisions in memory, in the order of their sequences.
-/
namespace RevForest

structure TreeEntry where
  sequence : Int
  parent : Int
  id : RevisionId
  deleted : Bool
  deriving DecidableEq, Repr

def TreeEntry.ofRevision (r : Revision) : TreeEntry := ⟨r.sequence, r.parent, r.id, r.deleted⟩

class Backend (β : Type) where
  nextSequence : β → Except StoreError Int × β
  lastSequence : β → Except StoreError Int × β
  documentKey : DocumentId → β → Except StoreError Int × β
  loadRevision : DocumentId → RevisionId → β → Except StoreError (Option Revision) × β
  loadTree : DocumentId → β → Except StoreError (List TreeEntry) × β
  persist : Revision → β → Except StoreError Unit × β
  documentIds : β → Except StoreError (List DocumentId) × β

structure MemoryBackend where
  counter : SequenceCounter
  revisions : Dict Int Revision
  byDocument : Dict DocumentId (List Int)
  keys : Dict DocumentId Int
  failNext : Bool
  deriving Repr

namespace MemoryBackend

def empty : MemoryBackend :=
  { counter := .start, revisions := Dict.empty, byDocument := Dict.empty, keys := Dict.empty,
    failNext := false }

def failNextSequence (m : MemoryBackend) : MemoryBackend := { m with failNext := true }

def revisionCount (m : MemoryBackend) : Nat := m.revisions.size

def changesSince (m : MemoryBackend) (since : Int) : List Revision :=
  let first := if since < maxSequence then since + 1 else maxSequence
  (m.revisions.entries.filter fun e => first ≤ e.1).map (·.2)

def nextSequence (m : MemoryBackend) : Except StoreError Int × MemoryBackend :=
  if m.failNext then
    (.error (.sequenceAllocation "injected allocation failure"), { m with failNext := false })
  else
    match m.counter.allocate with
    | .error e => (.error e, m)
    | .ok (sequence, counter) => (.ok sequence, { m with counter })

def lastSequence (m : MemoryBackend) : Int := m.counter.highest?.getD 0

def documentKey (m : MemoryBackend) (document : DocumentId) : Int × MemoryBackend :=
  match m.keys.find? document with
  | some key => (key, m)
  | none =>
    let key : Int := m.keys.size + 1
    (key, { m with keys := m.keys.insert document key })

def revisionsOf (m : MemoryBackend) (document : DocumentId) : List Revision :=
  ((m.byDocument.find? document).getD []).filterMap m.revisions.find?

def loadRevision? (m : MemoryBackend) (document : DocumentId) (id : RevisionId) :
    Option Revision :=
  (m.revisionsOf document).find? fun r => r.id = id

def loadTree (m : MemoryBackend) (document : DocumentId) : List TreeEntry :=
  ((m.revisionsOf document).map TreeEntry.ofRevision).mergeSort fun a b =>
    decide (a.sequence ≤ b.sequence)

def persist (m : MemoryBackend) (r : Revision) : Except StoreError MemoryBackend :=
  if r.sequence ≤ 0 then
    .error (.persistFailed r.sequence s!"revision {r.id.text} has no sequence")
  else if r.isProjected then
    .error (.persistFailed r.sequence "projected revisions are never persisted")
  else if m.revisions.contains r.sequence then .ok m
  else do
    let counter ←
      if m.counter.highest < r.sequence then m.counter.observe r.sequence else .ok m.counter
    .ok { m with
      counter
      revisions := m.revisions.insert r.sequence r
      byDocument := m.byDocument.insert r.document
        ((m.byDocument.find? r.document).getD [] ++ [r.sequence]) }

def documentIds (m : MemoryBackend) : List DocumentId := m.byDocument.keys

instance : Backend MemoryBackend where
  nextSequence := nextSequence
  lastSequence m := (.ok m.lastSequence, m)
  documentKey document m :=
    let (key, m) := m.documentKey document
    (.ok key, m)
  loadRevision document id m := (.ok (m.loadRevision? document id), m)
  loadTree document m := (.ok (m.loadTree document), m)
  persist r m :=
    match m.persist r with
    | .error e => (.error e, m)
    | .ok m => (.ok (), m)
  documentIds m := (.ok m.documentIds, m)

end MemoryBackend
end RevForest
