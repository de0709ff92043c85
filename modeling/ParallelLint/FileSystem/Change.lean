import ParallelLint.FileSystem.Basic

set_option autoImplicit false

/-!
Operations that change a file system. What fails leaves the entries as they were, except that
directories made for others below them stay.
-/
namespace ParallelLint.FileSystem
open ParallelLint.Text

def putEntry (location : Location) (entry : Entry) :
    List (Location × Entry) → List (Location × Entry)
  | [] => [(location, entry)]
  | (l, e) :: rest =>
    if l = location then (l, entry) :: rest else (l, e) :: putEntry location entry rest

def namesIn (fs : FileSystem) (directory : Location) : List String :=
  fs.entries.filterMap fun e => if e.1.dropLast = directory then e.1.getLast? else none

/-- Stamps a directory in which a name has come, gone or got another entry. -/
def relist (fs : FileSystem) (directory : Location) : FileSystem :=
  let stamped := fun listing : Listing =>
    Listing.mk (fs.attributes.reckon listing.size (fs.namesIn directory)) fs.clock
  { fs with
    attributes :=
      { fs.attributes with
        listing := fun l =>
          if l = directory then stamped (fs.attributes.listing l) else fs.attributes.listing l } }

def permit (fs : FileSystem) (location : Location) : FileSystem :=
  { fs with
    attributes :=
      { fs.attributes with
        unreadable := fun l => if l = location then none else fs.attributes.unreadable l
        unwritable := fun l => if l = location then none else fs.attributes.unwritable l } }

def put (fs : FileSystem) (location : Location) (entry : Entry) : FileSystem :=
  { fs with entries := putEntry location entry fs.entries }

def set (fs : FileSystem) (location : Location) (entry : Entry) : FileSystem :=
  ((fs.put location entry).permit location).relist location.dropLast

def erase (fs : FileSystem) (location : Location) : FileSystem :=
  ({ fs with entries := fs.entries.filter fun e => !location.isPrefixOf e.1 } : FileSystem).relist
    location.dropLast

def endsInSlash (p : Path) : Bool := (steps p).getLast? = some .slash

def stepsToEntry (p : Path) : List Step :=
  match (steps p).reverse with
  | .slash :: .name name :: before => (.name name :: before).reverse
  | _ => steps p

def endsInName (p : Path) : Bool :=
  match (stepsToEntry p).getLast? with
  | some (.name _) => true
  | _ => false

/-- Where the entry of that name is or can be, whatever slashes stand behind the name. -/
def placeOfEntry (fs : FileSystem) (p : Path) : Except FileError Place :=
  fs.follow p .entry (stepsToEntry p)

/-- Writes a whole file where that is allowed, creating it if its name is free. -/
def write (fs : FileSystem) (p : Path) (bytes : Bytes) : Except FileError FileSystem :=
  match fs.place p .output with
  | .error e => .error e
  | .ok (.free location) =>
    match fs.attributes.unwritable location with
    | some e => .error e
    | none => .ok (fs.set location (.file bytes fs.clock))
  | .ok (.found location) =>
    match fs.entry? location, fs.attributes.unwritable location with
    | some (.file ..), none => .ok (fs.put location (.file bytes fs.clock))
    | some (.file ..), some e => .error e
    | _, _ => .error .isADirectory

/-- Puts a finished file in the place of `p` in one step; a link there is replaced, not followed.
The operation behind it has an error number of its own for a zero in the name. -/
def replace (fs : FileSystem) (p : Path) (bytes : Bytes) : Except FileError FileSystem :=
  match fs.placeOfEntry p with
  | .error e => .error (if e = .zeroInName then .invalidArgument else e)
  | .ok place =>
    if !endsInName p then .error .busy
    else if endsInSlash p then .error .notADirectory
    else match place with
      | .free location => .ok (fs.set location (.file bytes fs.clock))
      | .found location =>
        if fs.entry? location = some .directory then .error .isADirectory
        else .ok (fs.set location (.file bytes fs.clock))

def remove (fs : FileSystem) (p : Path) : Except FileError FileSystem :=
  match fs.placeOfEntry p with
  | .error e => .error e
  | .ok (.free _) => .error .notFound
  | .ok (.found location) =>
    if !endsInName p || fs.entry? location = some .directory then .error .isADirectory
    else if endsInSlash p then .error .notADirectory
    else .ok (fs.erase location)

def createDirectory (fs : FileSystem) (p : Path) : Except FileError FileSystem :=
  match fs.placeOfEntry p with
  | .error e => .error e
  | .ok (.found _) => .error .alreadyExists
  | .ok (.free location) => .ok ((fs.set location .directory).relist location)

/-- Creates a directory under parents that exist, unless it is there already. -/
def ensureDirectory (fs : FileSystem) (p : Path) : Except FileError Unit × FileSystem :=
  match fs.createDirectory p with
  | .ok made => (.ok (), made)
  | .error e => (if fs.isDirectory p then .ok () else .error e, fs)

def createDirectoriesWithin (fs : FileSystem) (p : Path) :
    Nat → Except FileError Unit × FileSystem
  | 0 => (.ok (), fs)
  | depth + 1 =>
    if p.text = "" then (.ok (), fs)
    else match fs.ensureDirectory p with
      | (.error e, fs) =>
        if e.kind ≠ .notFound then (.error e, fs)
        else match p.parent? with
          | none => (.error e, fs)
          | some parent =>
            match fs.createDirectoriesWithin parent depth with
            | (.ok (), fs) => fs.ensureDirectory p
            | failed => failed
      | done => done

/-- Creates a directory and its missing parents. Those made before a failure stay. -/
def createDirectories (fs : FileSystem) (p : Path) : Except FileError Unit × FileSystem :=
  fs.createDirectoriesWithin p (p.parts.length + 1)

def createLink (fs : FileSystem) (p : Path) (target : String) : Except FileError FileSystem :=
  match if hasZero p then some .zeroInName else refused? ⟨target⟩, fs.placeOfEntry p with
  | some e, _ | none, .error e => .error e
  | none, .ok (.found _) => .error .alreadyExists
  | none, .ok (.free location) =>
    if endsInSlash p then .error .notFound else .ok (fs.set location (.link target))

def removeAll (fs : FileSystem) (p : Path) : Except FileError FileSystem :=
  match fs.place p .entry with
  | .error e => .error e
  | .ok (.free _) => .error .notFound
  | .ok (.found location) => .ok (fs.erase location)

def relistAt (fs : FileSystem) (p : Path) : FileSystem :=
  match fs.locate p with
  | .ok location => fs.relist location
  | .error _ => fs

def touch (fs : FileSystem) (p : Path) (modified : Int) : Except FileError FileSystem :=
  match fs.locate p with
  | .error e => .error e
  | .ok location =>
    match fs.entry? location with
    | some (.file bytes _) => .ok (fs.put location (.file bytes modified))
    | _ =>
      let listing := fun l =>
        let kept := fs.attributes.listing l
        if l = location then ⟨kept.size, modified⟩ else kept
      .ok { fs with attributes := { fs.attributes with listing } }

end ParallelLint.FileSystem
