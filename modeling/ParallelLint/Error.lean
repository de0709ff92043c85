import ParallelLint.FileSystem.Error
import ParallelLint.Path

set_option autoImplicit false

namespace ParallelLint

inductive LintError where
  | permissionDenied (path : Path)
  | notFound (path : Path)
  | io (path : Path) (cause : FileError)
  | configLoad (path : Path) (detail : String)
  | analyzer (path : Path) (detail : String)
  | workerPanicked (worker : Nat) (detail : String)
  | poolStart (detail : String)
  | noFilesFound (pattern : String)
  | invalidConfig (detail : String)
  deriving DecidableEq, Repr

namespace LintError

def ofFile (path : Path) (cause : FileError) : LintError :=
  match cause.kind with
  | .permissionDenied => .permissionDenied path
  | .notFound => .notFound path
  | _ => .io path cause

def message : LintError → String
  | .permissionDenied path => s!"Permission denied: {path.text}"
  | .notFound path => s!"Path not found: {path.text}"
  | .io path cause => s!"I/O error at {path.text}: {cause.message}"
  | .configLoad path detail => s!"Failed to load configuration {path.text}: {detail}"
  | .analyzer path detail => s!"Analyzer failed on {path.text}: {detail}"
  | .workerPanicked worker detail => s!"Worker {worker} panicked: {detail}"
  | .poolStart detail => s!"Failed to start worker pool: {detail}"
  | .noFilesFound pattern => s!"No files matching the pattern \"{pattern}\" were found"
  | .invalidConfig detail => s!"Invalid configuration: {detail}"

end LintError
end ParallelLint
