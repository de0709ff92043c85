import ParallelLint.Options.CacheStrategy
import ParallelLint.Options.Concurrency
import ParallelLint.Options.FixMode
import ParallelLint.Path

set_option autoImplicit false

namespace ParallelLint

structure Options where
  directory : Path
  concurrency : Concurrency
  cache : Bool
  cacheLocation : Path
  cacheStrategy : CacheStrategy
  fix : FixMode
  /-- Whether files that are named although they are ignored get a notice. -/
  warnIgnored : Bool
  ignorePatterns : List String
  extensions : List String
  errorOnUnmatchedPattern : Bool
  deriving Inhabited

def defaultCacheFile : Path := ⟨".lintpoolcache"⟩

def defaultExtensions : List String := ["txt", "md"]

namespace Options

def standard (directory : Path) : Options where
  directory
  concurrency := .off
  cache := false
  cacheLocation := defaultCacheFile
  cacheStrategy := .metadata
  fix := .off
  warnIgnored := true
  ignorePatterns := []
  extensions := defaultExtensions
  errorOnUnmatchedPattern := true

inductive Fault where
  | emptyDirectory
  | emptyCacheLocation
  | emptyExtension
  deriving DecidableEq, Repr

def Fault.message : Fault → String
  | .emptyDirectory => "Working directory cannot be empty"
  | .emptyCacheLocation => "Cache location cannot be empty"
  | .emptyExtension => "Extensions cannot be empty"

def bareExtension (extension : String) : String :=
  String.ofList (extension.toList.dropWhile (· = '.'))

/-- Of several faults, the first in the order of the options counts. -/
def check (o : Options) : Except Fault Options :=
  if o.directory.text = "" then .error .emptyDirectory
  else if o.cacheLocation.text = "" then .error .emptyCacheLocation
  else if o.extensions.any fun e => bareExtension e = "" then .error .emptyExtension
  else .ok o

end Options
end ParallelLint
