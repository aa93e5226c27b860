import RevForest.Store.Backend
/-!
A memory backend on which calls can be made to fail. Each operation has a queue of outcomes; a call
takes the first one, and a call that finds its queue empty works as usual. So does a call that
finds an outcome of another operation. Scripts of faults name operations and outcomes by words.
-/
namespace RevForest

inductive BackendOperation where
  | nextSequence
  | lastSequence
  | documentKey
  | loadRevision
  | loadTree
  | persist
  | documentIds
  deriving DecidableEq, Repr

namespace BackendOperation

def all : List BackendOperation :=
  [.nextSequence, .lastSequence, .documentKey, .loadRevision, .loadTree, .persist, .documentIds]

def name : BackendOperation → String
  | .nextSequence => "next_sequence"
  | .lastSequence => "last_sequence"
  | .documentKey => "internal_document_key"
  | .loadRevision => "load_revision"
  | .loadTree => "load_tree"
  | .persist => "persist"
  | .documentIds => "document_ids"

end BackendOperation

inductive BackendFault where
  | pass
  | fail (error : Int → StoreError)
  | answer (sequence : Int)
  | missing
  | drop
  | storeAndFail (error : Int → StoreError)

def BackendFault.ofWord (op : BackendOperation) (word : String) : BackendFault :=
  match op, word with
  | .loadRevision, "missing" => .missing
  | .loadTree, "missing" => .missing
  | .persist, "drop" => .drop
  | .persist, "stored_then_failed" => .storeAndFail fun _ => .io "scripted"
  | _, "pass" => .pass
  | _, "serialization" => .fail fun _ => .serialization "scripted"
  | _, "sequence" => .fail fun _ => .sequenceAllocation "scripted"
  | _, "persist_failed" => .fail fun sequence => .persistFailed sequence "scripted"
  | _, _ => .fail fun _ => .io "scripted"

structure FaultyBackend where
  memory : MemoryBackend
  queues : BackendOperation → List BackendFault

namespace FaultyBackend

def ofMemory (memory : MemoryBackend) : FaultyBackend := ⟨memory, fun _ => []⟩

def setQueue (b : FaultyBackend) (op : BackendOperation) (queue : List BackendFault) :
    FaultyBackend :=
  { b with queues := fun o => if o = op then queue else b.queues o }

def take (b : FaultyBackend) (op : BackendOperation) : BackendFault × FaultyBackend :=
  match b.queues op with
  | [] => (.pass, b)
  | f :: rest => (f, b.setQueue op rest)

def run {α : Type} (b : FaultyBackend)
    (act : MemoryBackend → Except StoreError α × MemoryBackend) :
    Except StoreError α × FaultyBackend :=
  let (r, memory) := act b.memory
  (r, { b with memory })

instance : Backend FaultyBackend where
  nextSequence b :=
    match b.take .nextSequence with
    | (.fail error, b) => (.error (error 0), b)
    | (.answer sequence, b) => (.ok sequence, b)
    | (_, b) => b.run Backend.nextSequence
  lastSequence b :=
    match b.take .lastSequence with
    | (.fail error, b) => (.error (error 0), b)
    | (_, b) => b.run Backend.lastSequence
  documentKey document b :=
    match b.take .documentKey with
    | (.fail error, b) => (.error (error 0), b)
    | (_, b) => b.run (Backend.documentKey document)
  loadRevision document id b :=
    match b.take .loadRevision with
    | (.fail error, b) => (.error (error 0), b)
    | (.missing, b) => (.ok none, b)
    | (_, b) => b.run (Backend.loadRevision document id)
  loadTree document b :=
    match b.take .loadTree with
    | (.fail error, b) => (.error (error 0), b)
    | (.missing, b) => (.ok [], b)
    | (_, b) => b.run (Backend.loadTree document)
  persist r b :=
    match b.take .persist with
    | (.fail error, b) => (.error (error r.sequence), b)
    | (.drop, b) => (.ok (), b)
    | (.storeAndFail error, b) =>
      match b.run (Backend.persist r) with
      | (.ok (), b) => (.error (error r.sequence), b)
      | failed => failed
    | (_, b) => b.run (Backend.persist r)
  documentIds b :=
    match b.take .documentIds with
    | (.fail error, b) => (.error (error 0), b)
    | (_, b) => b.run Backend.documentIds

end FaultyBackend
end RevForest
