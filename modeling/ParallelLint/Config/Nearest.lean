import ParallelLint.Config.Toml
import ParallelLint.FileSystem.Basic

set_option autoImplicit false

/-!
The configuration of a file is the base configuration with the nearest configuration file laid
over it, looked for in the directory of the file and its parents up to a root. What has been found
for a directory or in a file is kept, and not looked for again.
-/
namespace ParallelLint

structure Nearest where
  base : Config
  root : Option Path
  byDirectory : Sorted Path ResolvedConfig
  byFile : Sorted Path ResolvedConfig

namespace Nearest

def fresh (base : Config) (root : Option Path) : Nearest := ⟨base, root, .empty, .empty⟩

def fileName : Path := ⟨".lintpool.toml"⟩

def loadedFiles (r : Nearest) : Nat := r.byFile.size

def baseConfig (r : Nearest) : ResolvedConfig := .ofConfig r.base none

def remember (r : Nearest) (directory : Path) (found : ResolvedConfig) : Nearest :=
  { r with byDirectory := r.byDirectory.insert directory found }

def readConfig (fs : FileSystem) (base : Config) (file : Path) :
    Except LintError ResolvedConfig :=
  match fs.readText file with
  | .error e => .error (.ofFile file e)
  | .ok text =>
    match Config.load file text with
    | .error e => .error e
    | .ok own => .ok (.ofConfig (base.mergedWith own) (some file))

def loadFile (fs : FileSystem) (r : Nearest) (file : Path) :
    Except LintError (ResolvedConfig × Nearest) :=
  match r.byFile.find? file with
  | some found => .ok (found, r)
  | none =>
    match readConfig fs r.base file with
    | .ok found => .ok (found, { r with byFile := r.byFile.insert file found })
    | .error e => .error e

def isRoot (r : Nearest) (directory : Path) : Bool := r.root.any directory.same

/-- Looks through directories, the innermost first. -/
def resolveIn (fs : FileSystem) (r : Nearest) :
    List Path → Except LintError (ResolvedConfig × Nearest)
  | [] => .ok (r.baseConfig, r)
  | directory :: outer =>
    match r.byDirectory.find? directory with
    | some found => .ok (found, r)
    | none =>
      let answer :=
        if fs.isFile (directory.join fileName) then loadFile fs r (directory.join fileName)
        else if r.isRoot directory then .ok (r.baseConfig, r)
        else resolveIn fs r outer
      match answer with
      | .ok (found, r) => .ok (found, r.remember directory found)
      | .error e => .error e

def directories (file : Path) : List Path :=
  match file.parent? with
  | some directory => if directory.text = "" then [⟨"."⟩] else directory.upward
  | none => [⟨"."⟩]

def resolve (fs : FileSystem) (r : Nearest) (file : Path) :
    Except LintError (ResolvedConfig × Nearest) :=
  resolveIn fs r (directories file)

end Nearest
end ParallelLint
