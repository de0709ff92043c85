set_option autoImplicit false

/-!
Slash-separated paths. A path keeps the text it was written with, but is compared by its parts:
repeated slashes, slashes at the end and `.` steps that are not at the very beginning say nothing.
Parents and remainders are cut out of the text, so that what they keep stays as it was written.
-/
namespace ParallelLint
open Std

structure Path where
  text : String
  deriving DecidableEq, Repr, Inhabited

namespace Path

inductive Part where
  | root | here | up
  | name (text : String)
  deriving DecidableEq, Repr

def Part.rank : Part → Nat
  | .root => 0
  | .here => 1
  | .up => 2
  | .name _ => 3

def Part.text : Part → String
  | .root => "/"
  | .here => "."
  | .up => ".."
  | .name text => text

instance : Ord Part := ⟨compareLex (compareOn Part.rank) (compareOn Part.text)⟩

instance : TransOrd Part :=
  inferInstanceAs (TransCmp (compareLex (compareOn Part.rank) (compareOn Part.text)))

def splitSlash : List Char → List (List Char)
  | [] => [[]]
  | c :: rest =>
    if c = '/' then [] :: splitSlash rest
    else match splitSlash rest with
      | [] => [[c]]
      | first :: more => (c :: first) :: more

def segments (p : Path) : List String := (splitSlash p.text.toList).map String.ofList

def isAbsolute (p : Path) : Bool := p.text.toList.head? = some '/'

def isVoid (segment : String) : Bool := segment = "" || segment = "."

def dropVoidEnd (segments : List String) : List String :=
  (segments.reverse.dropWhile isVoid).reverse

def partOf (segment : String) : Part := if segment = ".." then .up else .name segment

def innerParts (segments : List String) : List Part :=
  (segments.filter fun s => !isVoid s).map partOf

/-- What stands before the first segment of its own: the leading part, if there is one, its text
and the segments after it. -/
def opening (p : Path) : Option Part × String × List String :=
  match p.segments with
  | "" :: rest => if p.isAbsolute then (some .root, "/", rest) else (none, "", [])
  | "." :: rest => (some .here, ".", rest)
  | segments => (none, "", segments)

def parts (p : Path) : List Part :=
  p.opening.1.toList ++ innerParts p.opening.2.2

instance : Ord Path := ⟨compareOn parts⟩

instance : TransOrd Path := inferInstanceAs (TransCmp (compareOn parts))

def same (p q : Path) : Bool := p.parts = q.parts

def joinSegments (segments : List String) : String := String.intercalate "/" segments

/-- The opening with inner segments behind it. -/
def reopen (lead : Option Part) (text : String) (inner : List String) : Path :=
  ⟨match lead, inner with
    | some .here, _ :: _ => text ++ "/" ++ joinSegments inner
    | _, _ => text ++ joinSegments inner⟩

def parent? (p : Path) : Option Path :=
  let (lead, text, inner) := p.opening
  match dropVoidEnd inner with
  | [] => if lead = some .here then some ⟨""⟩ else none
  | kept => some (reopen lead text (dropVoidEnd kept.dropLast))

def upwardWithin : Nat → Path → List Path
  | 0, p => [p]
  | n + 1, p =>
    match p.parent? with
    | some q => if q.text = "" then [p] else p :: upwardWithin n q
    | none => [p]

def upward (p : Path) : List Path := upwardWithin p.parts.length p

def dropParts : Nat → List String → List String
  | 0, segments => segments
  | _, [] => []
  | n + 1, s :: rest => if isVoid s then dropParts (n + 1) rest else dropParts n rest

/-- What follows the parts of `base`, if the path begins with them. -/
def relativeTo? (p base : Path) : Option Path :=
  let (lead, text, inner) := p.opening
  if !base.parts.isPrefixOf p.parts then none
  else if base.parts.isEmpty then some (reopen lead text (dropVoidEnd inner))
  else
    let rest := dropParts (base.parts.length - lead.toList.length) inner
    some ⟨joinSegments (dropVoidEnd (rest.dropWhile isVoid))⟩

def join (p q : Path) : Path :=
  if q.isAbsolute then q
  else if p.text = "" || p.text.toList.getLast? = some '/' then ⟨p.text ++ q.text⟩
  else ⟨p.text ++ "/" ++ q.text⟩

def fileName? (p : Path) : Option String :=
  match p.parts.getLast? with
  | some (.name text) => some text
  | _ => none

/-- What follows the last dot of the file name, when something precedes that dot. -/
def extension? (p : Path) : Option String :=
  p.fileName?.bind fun name =>
    let reversed := name.toList.reverse
    let after := reversed.takeWhile (· ≠ '.')
    match reversed.dropWhile (· ≠ '.') with
    | _ :: _ :: _ => some (String.ofList after.reverse)
    | _ => none

def ofParts (parts : List Part) : Path :=
  match parts with
  | .root :: rest => ⟨"/" ++ joinSegments (rest.map Part.text)⟩
  | parts => ⟨joinSegments (parts.map Part.text)⟩

def normalize (p : Path) : Path := ofParts p.parts

def hasName (p : Path) (name : String) : Bool := p.parts.contains (.name name)

end Path
end ParallelLint
