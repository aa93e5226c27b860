import RevForest.Dict
import RevForest.Text.Utf8
/-!
A file system as a map from places to contents. A place is the list of names on the way to it from
the working directory, which is the empty list, or from the root, which is a slash alone. A place
above the working directory has `..` in front, once for each directory to go up. The working
directory, those above it and the root are always there; every other directory is an entry of its
own. Paths are texts with `/` between names. Names and paths have a greatest length in bytes, and no
path holds the zero character.
-/
namespace RevForest

inductive FileFault where
  | missing
  | isDirectory
  | notDirectory
  | notText
  | zeroInPath
  | tooLong
  | refused
  deriving DecidableEq, Repr

def FileFault.message : FileFault → String
  | .missing => "no such file or directory"
  | .isDirectory => "is a directory"
  | .notDirectory => "not a directory"
  | .notText => "not valid text"
  | .zeroInPath => "zero character in a path"
  | .tooLong => "path or name too long"
  | .refused => "device error"

inductive FileEntry where
  | directory
  | file (content : List UInt8)
  deriving DecidableEq, Repr

abbrev Place := List String

namespace Place

def working : Place := []

def root : Place := ["/"]

def isAbove (place : Place) : Bool := place.all (· = "..")

def up (place : Place) : Place :=
  if place.isAbove then ".." :: place else if place = root then root else place.dropLast

def start (path : String) : Place := if path.toList.head? = some '/' then root else working

def isBelow (place : Place) : Bool := place.head? ≠ some ".." && place.head? ≠ some "/"

end Place

structure FileSystem where
  entries : Dict Place FileEntry
  deriving DecidableEq, Repr

namespace FileSystem

def empty : FileSystem := ⟨Dict.empty⟩

def entry? (fs : FileSystem) (place : Place) : Option FileEntry :=
  if place.isAbove || place = .root then some .directory else fs.entries.find? place

def maxNameBytes : Nat := 255

def maxPathBytes : Nat := 4095

def names (path : String) : List String := (path.toList.splitOn '/').map String.ofList

def isHere (name : String) : Bool := name = "" || name = "."

def readNames (path : String) : Except FileFault (List String) :=
  if path.toList.contains '\x00' then .error .zeroInPath
  else if maxPathBytes < path.utf8ByteSize then .error .tooLong
  else .ok (names path)

/-- Follows names from a place on; all but the last must lead through directories. Only a directory
that is there finds a name too long. -/
def follow (fs : FileSystem) (here : Place) : List String → Except FileFault Place
  | [] => .ok here
  | name :: rest =>
    match fs.entry? here with
    | none => .error .missing
    | some (.file _) => .error .notDirectory
    | some .directory =>
      if isHere name then fs.follow here rest
      else if name = ".." then fs.follow here.up rest
      else if maxNameBytes < name.utf8ByteSize then .error .tooLong
      else fs.follow (here ++ [name]) rest

def locate (fs : FileSystem) (path : String) : Except FileFault Place := do
  if path = "" then .error .missing else fs.follow (.start path) (← readNames path)

def readBytes (fs : FileSystem) (path : String) : Except FileFault (List UInt8) := do
  match fs.entry? (← fs.locate path) with
  | none => .error .missing
  | some .directory => .error .isDirectory
  | some (.file content) => .ok content

def readText (fs : FileSystem) (path : String) : Except FileFault String := do
  match String.fromUTF8? ⟨(← fs.readBytes path).toArray⟩ with
  | none => .error .notText
  | some s => .ok s

def put (fs : FileSystem) (place : Place) (entry : FileEntry) : FileSystem :=
  ⟨fs.entries.insert place entry⟩

/-- Makes each directory on the way that is missing. Those made stay when a later one cannot be. -/
def createAlong (fs : FileSystem) (here : Place) :
    List String → Except FileFault Unit × FileSystem
  | [] => (.ok (), fs)
  | name :: rest =>
    if isHere name then fs.createAlong here rest
    else if name = ".." then fs.createAlong here.up rest
    else if maxNameBytes < name.utf8ByteSize then (.error .tooLong, fs)
    else
      let next := here ++ [name]
      match fs.entry? next with
      | some .directory => fs.createAlong next rest
      | some (.file _) => (.error .notDirectory, fs)
      | none => (fs.put next .directory).createAlong next rest

def createDirectories (fs : FileSystem) (path : String) : Except FileFault Unit × FileSystem :=
  match readNames path with
  | .error f => (.error f, fs)
  | .ok names => fs.createAlong (.start path) names

def truncate (fs : FileSystem) (path : String) : Except FileFault FileSystem := do
  let place ← fs.locate path
  match fs.entry? place with
  | some .directory => .error .isDirectory
  | _ => .ok (fs.put place (.file []))

def write (fs : FileSystem) (path : String) (content : List UInt8) :
    Except FileFault FileSystem := do
  let place ← fs.locate path
  match fs.entry? place with
  | some (.file _) => .ok (fs.put place (.file content))
  | some .directory => .error .isDirectory
  | none => .error .missing

def writeFile (fs : FileSystem) (path : String) (content : List UInt8) :
    Except FileFault FileSystem := do
  (← fs.truncate path).write path content

def rename (fs : FileSystem) (source target : String) : Except FileFault FileSystem := do
  let old ← fs.locate source
  let content ← fs.readBytes source
  let new ← fs.locate target
  match fs.entry? new with
  | some .directory => .error .isDirectory
  | _ =>
    if old = new then .ok fs
    else .ok ((⟨fs.entries.erase old⟩ : FileSystem).put new (.file content))

def listing (fs : FileSystem) : List (String × Option String) :=
  (fs.entries.entries.filter (·.1.isBelow)).map fun (place, entry) =>
    let path := String.intercalate "/" place
    match entry with
    | .directory => (path ++ "/", none)
    | .file content => (path, some (Utf8.lossy content))

end FileSystem

namespace Path

def trim (names : List String) : List String :=
  (names.reverse.dropWhile FileSystem.isHere).reverse

def join (names : List String) : String := String.intercalate "/" names

def parent (path : String) : String := join (trim (FileSystem.names path)).dropLast

def stem (name : String) : String :=
  let cs := name.toList
  if cs.contains '.' then
    let front := ((cs.reverse.dropWhile (· ≠ '.')).drop 1).reverse
    if front.isEmpty then name else String.ofList front
  else name

/-- The path with another extension; a path that ends in no name stays as it is. The old extension
is cut off the text first: where that leaves `..`, as of `..a`, no name is left to extend. -/
def withExtension (path extension : String) : String :=
  let all := FileSystem.names path
  let names := trim all
  match names.getLast? with
  | none => path
  | some name =>
    if name = ".." then path
    else if stem name = "." && all.getLast? = some name then join (names.dropLast ++ [".."])
    else join (names.dropLast ++ [stem name ++ "." ++ extension])

end Path
end RevForest
