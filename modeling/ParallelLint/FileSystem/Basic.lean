import ParallelLint.FileSystem.Error
import ParallelLint.Path
import ParallelLint.Text.Utf8

set_option autoImplicit false

/-!
A file system as a value. Entries are kept by the names on the way from the root; a path finds its
entry step by step, through symbolic links, from the root or from the working directory.
-/
namespace ParallelLint
open Text

/-- The names on the way from the root, which is the empty list. -/
abbrev Location := List String

inductive Entry where
  /-- `modified` is in nanoseconds from the epoch and may lie before it. -/
  | file (bytes : Bytes) (modified : Int)
  | directory
  | link (target : String)
  deriving DecidableEq, Repr

structure Listing where
  size : UInt64
  modified : Int
  deriving DecidableEq, Repr

/-- What a system keeps beside the entries. The permissions are those to read and to write what is
in a file; that a directory may not be changed, or that there is no room, does not happen here. -/
class Attributes where
  listing : Location → Listing
  /-- The size of a directory from its former one and its present names. -/
  reckon : UInt64 → List String → UInt64
  unreadable : Location → Option FileError
  unwritable : Location → Option FileError

instance Attributes.plain : Attributes where
  listing _ := ⟨4096, 0⟩
  reckon size _ := size
  unreadable _ := none
  unwritable _ := none

structure FileSystem where
  entries : List (Location × Entry)
  workingDirectory : Location
  clock : Int
  [attributes : Attributes]

instance : Inhabited FileSystem := ⟨⟨[], [], 0⟩⟩

/-- What is told of what a path leads to. -/
inductive Status where
  | file (bytes : Bytes) (modified : Int)
  | closed (bytes : Bytes) (modified : Int) (error : FileError)
  | directory (listing : Listing)
  deriving DecidableEq, Repr

namespace Status

def size : Status → Nat
  | file bytes _ | closed bytes .. => bytes.length
  | directory listing => listing.size.toNat

def modified : Status → Int
  | file _ modified | closed _ modified _ => modified
  | directory listing => listing.modified

def isFile : Status → Bool
  | file .. | closed .. => true
  | directory _ => false

end Status

/-- Where a path leads: to an entry, or to a free name in a directory. -/
inductive Place where
  | found (location : Location)
  | free (location : Location)
  deriving DecidableEq, Repr

/-- A step of a walk. A slash at the end of a path is one as well, since it asks for a directory. -/
inductive Step where
  | here | up | slash
  | name (text : String)
  deriving DecidableEq, Repr

/-- What a path is wanted for, which decides how its last name is taken. -/
inductive Purpose where
  | entry
  | content
  /-- The same, for a file that may have to be made. No slash may follow its name, which is not
  looked up in that case. -/
  | output
  deriving DecidableEq, Repr

namespace FileSystem

def entry? (fs : FileSystem) (location : Location) : Option Entry :=
  if location.isEmpty then some .directory else fs.entries.lookup location

def stepOf (segment : String) : Step :=
  if segment = "." then .here else if segment = ".." then .up else .name segment

def steps (p : Path) : List Step :=
  let walked := (p.segments.filter (· ≠ "")).map stepOf
  if p.text.toList.getLast? = some '/' then walked ++ [.slash] else walked

def origin (fs : FileSystem) (p : Path) : Location :=
  if p.isAbsolute then [] else fs.workingDirectory

def linkOrigin (target : String) (directory : Location) : Location :=
  if (⟨target⟩ : Path).isAbsolute then [] else directory

def onlySlashes (rest : List Step) : Bool := !rest.isEmpty && rest.all (· = .slash)

/-- Takes the steps from a location. Every link that is followed uses up one of `links`. -/
def walk (fs : FileSystem) (purpose : Purpose) (links : Nat) (here : Location)
    (todo : List Step) : Except FileError Place :=
  match todo with
  | [] => .ok (.found here)
  | step :: rest =>
    match fs.entry? here with
    | some .directory =>
      match step with
      | .here | .slash => fs.walk purpose links here rest
      | .up => fs.walk purpose links here.dropLast rest
      | .name name =>
        if purpose = .output && onlySlashes rest then .error .isADirectory
        else if 255 < name.utf8ByteSize then .error .nameTooLong
        else match fs.entry? (here ++ [name]) with
          | none => if rest.isEmpty then .ok (.free (here ++ [name])) else .error .notFound
          | some (.link target) =>
            if rest.isEmpty && purpose = .entry then .ok (.found (here ++ [name]))
            else match links with
              | 0 => .error .tooManyLinks
              | links + 1 =>
                fs.walk purpose links (linkOrigin target here) (steps ⟨target⟩ ++ rest)
          | some _ => fs.walk purpose links (here ++ [name]) rest
    | _ => .error .notADirectory
termination_by (links, todo.length)

def hasZero (p : Path) : Bool := p.text.toList.contains (Char.ofNat 0)

/-- What no system call accepts as a path. -/
def refused? (p : Path) : Option FileError :=
  if hasZero p then some .zeroInName
  else if p.text = "" then some .notFound
  else if 4096 ≤ p.text.utf8ByteSize then some .nameTooLong
  else none

def linkLimit : Nat := 40

def follow (fs : FileSystem) (p : Path) (purpose : Purpose) (todo : List Step) :
    Except FileError Place :=
  match refused? p with
  | some e => .error e
  | none => fs.walk purpose linkLimit (fs.origin p) todo

def place (fs : FileSystem) (p : Path) (purpose : Purpose) : Except FileError Place :=
  fs.follow p purpose (steps p)

def locate (fs : FileSystem) (p : Path) : Except FileError Location :=
  match fs.place p .content with
  | .ok (.found location) => .ok location
  | .ok (.free _) => .error .notFound
  | .error e => .error e

/-- What is told of the entry at a location, unless it is a link. -/
def statusAt? (fs : FileSystem) (location : Location) : Option Status :=
  match fs.entry? location with
  | some (.file bytes modified) =>
    match fs.attributes.unreadable location with
    | none => some (.file bytes modified)
    | some e => some (.closed bytes modified e)
  | some .directory => some (.directory (fs.attributes.listing location))
  | _ => none

def status (fs : FileSystem) (p : Path) : Except FileError Status :=
  match fs.locate p with
  | .ok location =>
    match fs.statusAt? location with
    | some status => .ok status
    | none => .error .notFound
  | .error e => .error e

def contains (fs : FileSystem) (p : Path) : Bool := (fs.status p).isOk

def isFile (fs : FileSystem) (p : Path) : Bool :=
  match fs.status p with
  | .ok status => status.isFile
  | .error _ => false

def isDirectory (fs : FileSystem) (p : Path) : Bool :=
  match fs.status p with
  | .ok (.directory _) => true
  | _ => false

def read (fs : FileSystem) (p : Path) : Except FileError Bytes :=
  match fs.status p with
  | .ok (.file bytes _) => .ok bytes
  | .ok (.closed _ _ e) => .error e
  | .ok (.directory _) => .error .isADirectory
  | .error e => .error e

def notUtf8 : FileError := .described .invalidData "stream did not contain valid UTF-8"

def readText (fs : FileSystem) (p : Path) : Except FileError String :=
  match fs.read p with
  | .ok bytes =>
    match decode bytes with
    | .ok text => .ok text
    | .error _ => .error notUtf8
  | .error e => .error e

def absolutePath (location : Location) : Path := ⟨"/" ++ Path.joinSegments location⟩

def currentDirectory (fs : FileSystem) : Path := absolutePath fs.workingDirectory

end FileSystem
end ParallelLint
