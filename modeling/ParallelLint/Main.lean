import ParallelLint.CommandLine.Run

set_option autoImplicit false

/-!
The program itself. What a run may look at is read from the disk into a file system, the run is
made there, and what it has changed is written back. No rule of the program stands here.
-/
namespace ParallelLint.Disk

def nameOf (location : Location) : String := (FileSystem.absolutePath location).text

def nanoseconds (time : IO.FS.SystemTime) : Int := time.sec * 1000000000 + time.nsec.toNat

def put (location : Location) (entry : Entry) (fs : FileSystem) : FileSystem :=
  { fs with entries := (location, entry) :: fs.entries }

def list (location : Location) (listing : Listing) (fs : FileSystem) : FileSystem :=
  let kept := fs.attributes.listing
  let listing := fun l => if l = location then listing else kept l
  { fs with attributes := { fs.attributes with listing } }

def close (location : Location) (reading writing : Option FileError) (fs : FileSystem) :
    FileSystem :=
  let kept := fs.attributes
  let unreadable := fun l => if l = location then reading else kept.unreadable l
  let unwritable := fun l => if l = location then writing else kept.unwritable l
  { fs with attributes := { kept with unreadable, unwritable } }

def errorOf : IO.Error → FileError
  | .alreadyExists _ code _ | .interrupted _ code _ | .noFileOrDirectory _ code _
  | .invalidArgument _ code _ | .permissionDenied _ code _ | .resourceExhausted _ code _
  | .inappropriateType _ code _ | .noSuchThing _ code _ | .otherError code _
  | .resourceBusy code _ | .resourceVanished code _ | .unsupportedOperation code _
  | .hardwareFault code _ | .unsatisfiedConstraints code _ | .illegalOperation code _
  | .protocolError code _ | .timeExpired code _ => .system code.toNat
  | .unexpectedEof => .plain .unexpectedEnd
  | .userError text => .described .other text

def metadata (location : Location) : IO IO.FS.Metadata := do
  ((← IO.currentDir) / nameOf location).symlinkMetadata

def namesIn (location : Location) : IO (List String) := do
  return (← ((← IO.currentDir) / nameOf location).readDir).toList.map (·.fileName)

def targetOf (location : Location) : IO Path := do
  return ⟨(← IO.FS.realPath (nameOf location)).toString⟩

def attempt {α : Type} (read : IO α) : IO (Option α) := do
  match ← read.toBaseIO with
  | .ok found => return some found
  | .error _ => return none

def failure {α : Type} (operation : IO α) : IO (Option FileError) := do
  match ← operation.toBaseIO with
  | .ok _ => return none
  | .error e => return some (errorOf e)

/-- Reads a file. Of one that cannot be read no more than its size and time is known. -/
def loadFile (location : Location) (found : IO.FS.Metadata) (fs : FileSystem) :
    IO FileSystem := do
  let modified := nanoseconds found.modified
  match ← (IO.FS.readBinFile (nameOf location)).toBaseIO with
  | .ok bytes =>
    let writing ← failure (IO.FS.Handle.mk (nameOf location) .readWrite)
    return close location none writing (put location (.file bytes.toList modified) fs)
  | .error e =>
    let unknown := List.replicate found.byteSize.toNat 0
    return close location (some (errorOf e)) none (put location (.file unknown modified) fs)

mutual

/-- Reads what is at a location, with everything below a directory if `deep`. Files and links that
have been read stay as they are, so no link is followed twice. -/
partial def load (deep : Bool) (location : Location) (fs : FileSystem) : IO FileSystem := do
  match fs.entry? location, ← attempt (metadata location) with
  | some .directory, some found | none, some found@{ type := .dir, .. } =>
    let fs := if (fs.entry? location).isSome then fs else put location .directory fs
    let fs := list location ⟨found.byteSize, nanoseconds found.modified⟩ fs
    let names ← if deep then attempt (namesIn location) else pure none
    (names.getD []).foldlM (fun fs name => load true (location ++ [name]) fs) fs
  | none, some { type := .symlink, .. } =>
    match ← attempt (targetOf location) with
    | none => return fs
    | some target => loadPath (put location (.link target.text) fs) target
  | none, some found@{ type := .file, .. } => loadFile location found fs
  | _, _ => return fs

partial def loadPath (fs : FileSystem) (p : Path) : IO FileSystem :=
  p.upward.reverse.foldlM (fun fs directory => do
    let fs ← loadPlace (directory.same p) fs directory
    loadPlace false fs (directory.join Nearest.fileName)) fs

partial def loadPlace (deep : Bool) (fs : FileSystem) (p : Path) : IO FileSystem :=
  match fs.place p .entry with
  | .ok (.found location) | .ok (.free location) => load deep location fs
  | .error _ => return fs

end

def namedIn (argument : String) : List Path :=
  let value := String.ofList ((argument.toList.dropWhile (· ≠ '=')).drop 1)
  [⟨argument⟩, ⟨value⟩].filter fun p => p.text ≠ ""

def cached (arguments : List String) (fs : FileSystem) : List Path :=
  match CommandLine.Arguments.read arguments with
  | .error _ => []
  | .ok a =>
    let options := a.options fs.currentDirectory
    let file := Cache.locate fs options.cacheLocation options.directory
    match Cache.load fs file options.cacheStrategy with
    | .ok cache => cache.entries.entries.map Prod.fst
    | .error _ => []

def snapshot (arguments : List String) : IO FileSystem := do
  let here : Path := ⟨(← IO.currentDir).toString⟩
  let workingDirectory := here.segments.filter (· ≠ "")
  let fs ← (here :: arguments.flatMap namedIn).foldlM loadPath ⟨[], workingDirectory, 0⟩
  (cached arguments fs).foldlM loadPath fs

def commit (before after : FileSystem) : IO Unit := do
  for (location, entry) in after.entries do
    if before.entry? location ≠ some entry then
      match entry with
      | .directory => IO.FS.createDirAll (nameOf location)
      | .file bytes _ => IO.FS.writeBinFile (nameOf location) ⟨bytes.toArray⟩
      | .link _ => pure ()
  for (location, _) in before.entries do
    if (after.entry? location).isNone then IO.FS.removeFile (nameOf location)

def parallelism : IO Nat := do
  let text ← attempt (IO.FS.readFile "/proc/cpuinfo")
  return max 1 ((text.getD "").splitOn "\nprocessor").length

end Disk

namespace CommandLine

def seconds (milliseconds : Nat) : String :=
  let hundredths := (milliseconds + 5) / 10
  let places := Number.naturalText (hundredths % 100)
  let zeros := String.ofList (List.replicate (2 - places.length) '0')
  Number.naturalText (hundredths / 100) ++ "." ++ zeros ++ places

def Screen.print (screen : Screen) (milliseconds : Nat) : IO Unit := do
  IO.print screen.stdout
  for note in screen.notes do
    IO.eprintln note
  if let some (start, rest) := screen.closing then
    IO.eprintln (start ++ " in " ++ seconds milliseconds ++ "s" ++ rest)
  if !screen.causes.isEmpty then
    IO.eprintln "Error: "
  for (cause, index) in screen.causes.zipIdx do
    IO.eprintln ("   " ++ Number.naturalText index ++ ": " ++ cause)

end CommandLine
end ParallelLint

open ParallelLint in
def main (arguments : List String) : IO UInt32 := do
  let start ← IO.monoMsNow
  let before ← Disk.snapshot arguments
  let (screen, after) := CommandLine.run arguments (← Disk.parallelism) [] before
  match ← (Disk.commit before after).toBaseIO with
  | .ok () =>
    screen.print ((← IO.monoMsNow) - start)
    return screen.code.toUInt32
  | .error e =>
    IO.eprintln ("Error: " ++ toString e)
    return 2
