import ParallelLint.FileSystem.Basic

set_option autoImplicit false

namespace ParallelLint.FileSystem

def namesBelow? (directory location : Location) : Option (List String) :=
  if directory.isPrefixOf location then some (location.drop directory.length) else none

def isFileEntry : Entry → Bool
  | .file .. => true
  | _ => false

/-- The files below a directory that no directory with a skipped name leads to, each as the names
on the way. -/
def filesBelow (fs : FileSystem) (skipped : List String) (directory : Location) :
    List (List String) :=
  fs.entries.filterMap fun e =>
    match namesBelow? directory e.1 with
    | some (name :: names) =>
      if isFileEntry e.2 && !(name :: names).dropLast.any skipped.contains then some (name :: names)
      else none
    | _ => none

/-- The regular files that a walk from `start` meets, as normalized paths. The start may have to be
skipped itself. -/
def walkFiles (fs : FileSystem) (skipped : List String) (start : Path) : List Path :=
  match fs.place start .entry with
  | .ok (.found location) =>
    if (fs.entry? location).any isFileEntry then [start.normalize]
    else if fs.entry? location = some .directory && start.fileName?.any skipped.contains then []
    else match fs.locate start with
      | .ok directory =>
        if fs.entry? directory = some .directory then
          (fs.filesBelow skipped directory).map fun names =>
            (start.join ⟨Path.joinSegments names⟩).normalize
        else []
      | .error _ => []
  | _ => []

def allFiles (fs : FileSystem) (directory : Location) : List (List String) :=
  fs.filesBelow [] directory

end ParallelLint.FileSystem
