import ParallelLint.Collection.Sorted
import ParallelLint.Config.Written
import ParallelLint.Result
import ParallelLint.Signature

set_option autoImplicit false

/-!
Caches of results. An entry answers for a file as long as the signature of the file and the
fingerprint of its configuration are those it was stored with. Entries do not hold the source, only
whether there was one; it is read again with every answer.
-/
namespace ParallelLint

structure CacheEntry where
  signature : Signature
  fingerprint : Fingerprint
  result : LintResult
  hadSource : Bool
  deriving DecidableEq, Repr, Inhabited

structure Cache where
  path : Path
  strategy : CacheStrategy
  entries : Sorted Path CacheEntry
  deriving Inhabited

namespace Cache

def empty (path : Path) (strategy : CacheStrategy) : Cache := ⟨path, strategy, .empty⟩

def size (c : Cache) : Nat := c.entries.size

def entry? (c : Cache) (path : Path) : Option CacheEntry := c.entries.find? path

/-- The result of an entry with the present text of the file, when it had a source. -/
def restore (fs : FileSystem) (path : Path) (e : CacheEntry) : Option LintResult :=
  if e.hadSource then
    match fs.readText path with
    | .ok source => some { e.result with source := some source }
    | .error _ => none
  else some e.result

def lookup (c : Cache) (fs : FileSystem) (path : Path) (config : Fingerprint) :
    Option LintResult :=
  match c.entry? path with
  | none => none
  | some e =>
    match Signature.compute fs path c.strategy with
    | .error _ => none
    | .ok signature =>
      if signature = e.signature && e.fingerprint = config then restore fs path e else none

def store (c : Cache) (path : Path) (signature : Signature) (config : Fingerprint)
    (result : LintResult) : Cache :=
  let e := ⟨signature, config, { result with source := none }, result.source.isSome⟩
  { c with entries := c.entries.insert path e }

def prune (c : Cache) (fs : FileSystem) : Cache :=
  { c with entries := c.entries.filter fs.contains }

end Cache
end ParallelLint
