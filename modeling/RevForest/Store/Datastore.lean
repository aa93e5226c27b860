import RevForest.Log
import RevForest.Log.Metrics
import RevForest.Store.Backend
import RevForest.Store.Config
import RevForest.Tree.Insert
/-!
A store of documents on top of a backend. The tree of a document is built from its stored revisions
when it is first asked for and cached after that. Every operation takes the store and gives an
answer or an error together with the store it leaves behind.
-/
namespace RevForest

structure Datastore (β : Type) where
  config : DatastoreConfig
  digest : ContentDigest
  backend : β
  cache : Dict DocumentId RevisionTree
  metrics : Metrics
  log : Log

namespace Datastore
variable {β : Type} [Backend β] {α γ : Type}

abbrev Outcome (β α : Type) := Except DocumentError α × Datastore β

def Outcome.andThen (o : Outcome β α) (next : α → Datastore β → Outcome β γ) : Outcome β γ :=
  match o with
  | (.error e, s) => (.error e, s)
  | (.ok a, s) => next a s

def call (s : Datastore β) (act : β → Except StoreError α × β) : Outcome β α :=
  match act s.backend with
  | (.error e, backend) => (.error (.storage e), { s with backend })
  | (.ok a, backend) => (.ok a, { s with backend })

def count (s : Datastore β) (c : Counter) : Datastore β :=
  { s with metrics := s.metrics.increment c }

def report (s : Datastore β) (e : Event) (fields : List (String × String)) : Datastore β :=
  { s with log := s.log.event e fields }

def note (s : Datastore β) (severity : Severity) (e : Event) (fields : List (String × String)) :
    Datastore β :=
  { s with log := s.log.write severity e.name fields }

/-- Opens a store. A valid configuration sets the log level before the backend is first asked. -/
def connect (config : DatastoreConfig) (digest : ContentDigest) (backend : β) (log : Log) :
    Except DocumentError (Datastore β) × β × Log :=
  match config.validate with
  | .error e => (.error (.storage e), backend, log)
  | .ok () =>
    let log := log.setLeast config.severity
    match Backend.lastSequence backend with
    | (.error e, backend) => (.error (.storage e), backend, log)
    | (.ok last, backend) =>
      let log := log.event .datastoreOpened [("last_sequence", toString last)]
      (.ok { config, digest, backend, cache := Dict.empty, metrics := {}, log }, backend, log)

def configuredDigest (config : DatastoreConfig) : ContentDigest :=
  ContentDigest.sha256 config.digestLength

def lastSequence (s : Datastore β) : Outcome β Int := s.call Backend.lastSequence

def loadAll (document : DocumentId) : List TreeEntry → Datastore β → Outcome β (List Revision)
  | [], s => (.ok [], s)
  | entry :: rest, s =>
    (s.call (Backend.loadRevision document entry.id)).andThen fun found s =>
      match found with
      | none =>
        (.error (.malformedRevisionTree document.text
          s!"stored revision {entry.id.text} cannot be loaded"), s)
      | some r => (loadAll document rest s).andThen fun rs s => (.ok (r :: rs), s)

def loadTree (s : Datastore β) (document : DocumentId) : Outcome β (Option RevisionTree) :=
  (s.call (Backend.loadTree document)).andThen fun entries s =>
    if entries.isEmpty then (.ok none, s)
    else
      (s.call (Backend.documentKey document)).andThen fun key s =>
        (loadAll document entries s).andThen fun revisions s =>
          match RevisionTree.ofRevisions document key revisions with
          | .error e => (.error e, s)
          | .ok t =>
            (.ok (some t), s.note .trace .treeLoaded
              [("document_id", document.text), ("revisions", toString t.size)])

/-- Drops so many entries, the first ones in key order, but never that of `keep`. -/
def dropOthers (keep : DocumentId) :
    Nat → List (DocumentId × RevisionTree) → List (DocumentId × RevisionTree)
  | 0, es => es
  | _ + 1, [] => []
  | n + 1, e :: es =>
    if e.1 = keep then e :: dropOthers keep (n + 1) es else dropOthers keep n es

def cacheTree (s : Datastore β) (t : RevisionTree) : Datastore β :=
  let cache := s.cache.insert t.document t
  let excess := cache.size - s.config.treeCacheCapacity
  { s with cache := ⟨dropOthers t.document excess cache.entries⟩ }

def detachedKey : Int := 0

/-- The tree of a document. A document with nothing stored gets a cached tree of its own only if
one is to be made for it; otherwise it has an empty tree that is not kept. -/
def treeOf (s : Datastore β) (document : DocumentId) (create : Bool) : Outcome β RevisionTree :=
  match s.cache.find? document with
  | some t => (.ok t, s)
  | none =>
    (s.loadTree document).andThen fun found s =>
      match found with
      | some t => (.ok t, s.cacheTree t)
      | none =>
        if create then
          (s.call (Backend.documentKey document)).andThen fun key s =>
            let t := RevisionTree.empty document key
            (.ok t, s.cacheTree t)
        else (.ok (RevisionTree.empty document detachedKey), s)

def keepTree (s : Datastore β) (t : RevisionTree) : Datastore β :=
  if s.cache.contains t.document then { s with cache := s.cache.insert t.document t } else s

def readTree (s : Datastore β) (document : String)
    (read : DocumentId → RevisionTree → Except DocumentError α) : Outcome β α :=
  match DocumentId.parse document with
  | .error e => (.error e, s)
  | .ok d => (s.treeOf d false).andThen fun t s => (read d t, s)

def getDocument (s : Datastore β) (document : String) : Outcome β Revision :=
  s.readTree document fun d t =>
    match t.current? with
    | none => .error (.documentNotFound d.text none)
    | some r => .ok r

def getRevision (s : Datastore β) (document id : String) : Outcome β Revision :=
  s.readTree document fun d t =>
    match t.find? id with
    | none => .error (.documentNotFound d.text (some id))
    | some r => .ok r

def isConflicted (s : Datastore β) (document : String) : Outcome β Bool :=
  s.readTree document fun _ t => .ok t.isConflicted

def leaves (s : Datastore β) (document : String) : Outcome β (List Revision) :=
  s.readTree document fun _ t => .ok t.leaves

def conflicts (s : Datastore β) (document : String) : Outcome β (List Revision) :=
  s.readTree document fun _ t => .ok t.conflicts

def history (s : Datastore β) (document id : String) : Outcome β (List RevisionId) :=
  s.readTree document fun _ t => t.history id

def since (s : Datastore β) (document : String) (since : Int) : Outcome β (List Revision) :=
  s.readTree document fun _ t => .ok (t.since since)

def conflictedAmong : List DocumentId → Datastore β → Outcome β (List DocumentId)
  | [], s => (.ok [], s)
  | d :: ds, s =>
    (s.treeOf d false).andThen fun t s =>
      (conflictedAmong ds s).andThen fun found s =>
        (.ok (if t.isConflicted then d :: found else found), s)

def conflictedDocuments (s : Datastore β) : Outcome β (List DocumentId) :=
  (s.call Backend.documentIds).andThen conflictedAmong

def project (s : Datastore β) (document : String) (fields : List String) : Outcome β Revision :=
  (s.getDocument document).andThen fun r s => (.ok (r.project fields), s)

def completed (s : Datastore β) (r : Revision) : Outcome β Revision :=
  if r.isProjected then
    (s.call (Backend.loadRevision r.document r.id)).andThen fun found s =>
      (r.mutableCopy fun _ _ => .ok found, s)
  else (r.mutableCopy fun _ _ => .ok none, s)

def materialize (s : Datastore β) (r : Revision) : Outcome β Revision :=
  let fields := [("document_id", r.document.text), ("revision_id", r.id.text)]
  if !r.isProjected then s.completed r
  else
    match s.completed r with
    | (.ok full, s) =>
      (.ok full, (s.count .projectionsMaterialized).report .projectionMaterialized fields)
    | (.error (.documentNotFound d id), s) =>
      (.error (.documentNotFound d id), s.note .warn .projectionSourceMissing fields)
    | (.error e, s) => (.error e, s)

end Datastore
end RevForest
