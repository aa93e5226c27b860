import RevForest.Identifier
import RevForest.Log.Event
/-!
The log: the lines that were severe enough to be written, and the least severity that is. A line is
a JSON object with the event first, then its severity, then the fields in the order of their keys.
Fields of one key keep their order.
-/
namespace RevForest

namespace LogLine

/-- Controls of both blocks are escaped, so a line holds no line break of any kind but its last. -/
def escape (c : Char) : List Char :=
  if c = '"' then ['\\', '"']
  else if c = '\\' then ['\\', '\\']
  else if c = '\n' then ['\\', 'n']
  else if c = '\r' then ['\\', 'r']
  else if c = '\t' then ['\\', 't']
  else if isControl c then
    ['\\', 'u', '0', '0', (c.toNat / 16).digitChar, (c.toNat % 16).digitChar]
  else [c]

def quoted (s : String) : List Char := '"' :: s.toList.flatMap escape ++ ['"']

def member (key value : String) : List Char := quoted key ++ ':' :: quoted value

def sortFields (fields : List (String × String)) : List (String × String) :=
  fields.mergeSort fun a b => !decide (b.1 < a.1)

def members (fields : List (String × String)) : List Char :=
  fields.flatMap fun f => ',' :: member f.1 f.2

def write (severity : Severity) (event : String) (fields : List (String × String)) : List Char :=
  '{' :: member "event" event ++ members (("severity", severity.name) :: sortFields fields) ++
    ['}', '\n']

def format (severity : Severity) (event : String) (fields : List (String × String)) : String :=
  String.ofList (write severity event fields)

end LogLine

structure LogRecord where
  severity : Severity
  line : String
  deriving DecidableEq, Repr

structure Log where
  least : Severity
  records : List LogRecord
  deriving DecidableEq, Repr

namespace Log

def empty : Log := ⟨.info, []⟩

def enabled (l : Log) (severity : Severity) : Bool := l.least.rank ≤ severity.rank

def setLeast (l : Log) (severity : Severity) : Log := { l with least := severity }

def write (l : Log) (severity : Severity) (event : String) (fields : List (String × String)) :
    Log :=
  if l.enabled severity then
    { l with records := l.records ++ [⟨severity, LogLine.format severity event fields⟩] }
  else l

def event (l : Log) (e : Event) (fields : List (String × String)) : Log :=
  l.write (if e.isFatal then .fatal else .info) e.name fields

def since (l : Log) (count : Nat) : Log := { l with records := l.records.drop count }

def output (l : Log) : List String := (l.records.filter (!·.severity.isError)).map (·.line)

def errors (l : Log) : List String := (l.records.filter (·.severity.isError)).map (·.line)

end Log
end RevForest
