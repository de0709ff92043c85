import ParallelLint.Collection.Sorted
import ParallelLint.Error
import ParallelLint.FileSystem.Walk
import ParallelLint.Glob.Match
import ParallelLint.Options.Basic
import ParallelLint.Task.Basic

set_option autoImplicit false

/-!
From patterns to tasks. A pattern names a file, a directory whose files of certain extensions are
meant, or else is a glob over the files of the working directory. Files that are named are kept
even if they are to be ignored, and then marked; files that are found are not.
-/
namespace ParallelLint

structure Selection where
  directory : Path
  ignore : List Glob
  extensions : List String
  errorOnUnmatched : Bool

namespace Selection

/-- Directories that are never entered, and always ignored. -/
def skippedDirectories : List String := ["node_modules", ".git"]

def readGlob (pattern : String) : Except LintError Glob :=
  match Glob.read pattern with
  | .ok glob => .ok glob
  | .error fault =>
    .error (.invalidConfig s!"invalid pattern \"{pattern}\": {Glob.faultText pattern fault}")

def ofOptions (o : Options) : Except LintError Selection :=
  match o.ignorePatterns.mapM readGlob with
  | .ok ignore =>
    .ok ⟨o.directory, ignore, o.extensions.map Options.bareExtension, o.errorOnUnmatchedPattern⟩
  | .error e => .error e

def relative (s : Selection) (path : Path) : Path := (path.relativeTo? s.directory).getD path

def isIgnored (s : Selection) (path : Path) : Bool :=
  skippedDirectories.any (s.relative path).hasName || Glob.anyFits s.ignore (s.relative path)

def hasExtension (s : Selection) (path : Path) : Bool :=
  path.extension?.any s.extensions.contains

def walk (fs : FileSystem) (start : Path) : List Path := fs.walkFiles skippedDirectories start

def fitsEither (s : Selection) (glob : Glob) (path : Path) : Bool :=
  glob.fits (s.relative path) || glob.fits path

def filesOf (s : Selection) (fs : FileSystem) (pattern : String) :
    Except LintError (List (Path × Bool)) :=
  let target := (s.directory.join ⟨pattern⟩).normalize
  if fs.isFile target then .ok [(target, s.isIgnored target)]
  else if fs.isDirectory target then
    .ok (((walk fs target).filter fun file => !s.isIgnored file && s.hasExtension file).map
      fun file => (file, false))
  else match readGlob pattern with
    | .error e => .error e
    | .ok glob =>
      .ok (((walk fs s.directory).filter fun file =>
        s.fitsEither glob file && !s.isIgnored file).map fun file => (file, false))

/-- A file that several patterns stand for keeps the mark it got first. -/
def addAll (found : Sorted Path Bool) (files : List (Path × Bool)) : Sorted Path Bool :=
  files.foldl (fun found file => found.insertIfAbsent file.1 file.2) found

def expandFrom (s : Selection) (fs : FileSystem) (found : Sorted Path Bool) :
    List String → Except LintError (Sorted Path Bool)
  | [] => .ok found
  | pattern :: rest =>
    match s.filesOf fs pattern with
    | .error e => .error e
    | .ok files =>
      if files.isEmpty && s.errorOnUnmatched then .error (.noFilesFound pattern)
      else s.expandFrom fs (addAll found files) rest

def expand (s : Selection) (fs : FileSystem) (patterns : List String) :
    Except LintError (List Task) :=
  match s.expandFrom fs .empty patterns with
  | .ok found => .ok (Task.number found.entries)
  | .error e => .error e

end Selection
end ParallelLint
