import ParallelLint.Cache.Basic
import ParallelLint.FileSystem.Change

set_option autoImplicit false

/-!
Cache files: one JSON document with a version, the strategy and the entries. A file that is not
such a document, or of another version or strategy, counts as an empty cache.
-/
namespace ParallelLint
open Json

def CacheEntry.toJson (e : CacheEntry) : Json :=
  .object ([("signature", e.signature.toJson), ("config_fingerprint", .string e.fingerprint.hex),
    ("result", e.result.toJson)] ++
    if e.hadSource then [("had_source", .bool true)] else [])

def CacheEntry.read : Decoder CacheEntry := fun depth tree =>
  match readRecord ["signature", "config_fingerprint", "result", "had_source"] 3 depth tree with
  | some (depth, [signature, fingerprint, result, hadSource]) => do
    let signature ← required Signature.read depth signature
    let fingerprint ← required readString depth fingerprint
    let result ← required LintResult.read depth result
    let hadSource ← defaulted false readBool depth hadSource
    pure ⟨signature, ⟨fingerprint⟩, result, hadSource⟩
  | _ => none

namespace Cache

def formatVersion : Nat := 1

def toJson (c : Cache) : Json :=
  .object [("version", .ofNat formatVersion), ("strategy", .string c.strategy.text),
    ("entries", .object (c.entries.entries.map fun e => (e.1.text, e.2.toJson)))]

def bytes (c : Cache) : Text.Bytes := Text.bytesOf c.toJson.compact

structure Document where
  version : Nat
  strategy : CacheStrategy
  entries : List (String × CacheEntry)

def Document.read : Decoder Document := fun depth tree =>
  match readRecord ["version", "strategy", "entries"] 3 depth tree with
  | some (depth, [version, strategy, entries]) => do
    let version ← required readNatural depth version
    let strategy ← required CacheStrategy.read depth strategy
    let entries ← required (readFields CacheEntry.read) depth entries
    pure ⟨version, strategy, entries⟩
  | _ => none

def ofBytes (path : Path) (strategy : CacheStrategy) (bytes : Text.Bytes) : Cache :=
  match decode? Document.read bytes with
  | some document =>
    if document.version = formatVersion && document.strategy = strategy then
      ⟨path, strategy, .ofList (document.entries.map fun e => (⟨e.1⟩, e.2))⟩
    else empty path strategy
  | none => empty path strategy

/-- A file that is not there counts as an empty cache too. -/
def load (fs : FileSystem) (path : Path) (strategy : CacheStrategy) : Except LintError Cache :=
  match fs.read path with
  | .ok bytes => .ok (ofBytes path strategy bytes)
  | .error e => if e.kind = .notFound then .ok (empty path strategy) else .error (.ofFile path e)

def directory (c : Cache) : Path :=
  match c.path.parent? with
  | some parent => if parent.text = "" then ⟨"."⟩ else parent
  | none => ⟨"."⟩

/-- Puts the whole file in its place in one step, below directories that are made as needed. The
file is finished under a name of its own, which is taken away when it cannot be put in its place. -/
def save (c : Cache) (fs : FileSystem) : Except LintError Unit × FileSystem :=
  match fs.createDirectories c.directory with
  | (.error e, fs) => (.error (.ofFile c.directory e), fs)
  | (.ok (), prepared) =>
    match prepared.replace c.path c.bytes with
    | .error e => (.error (.ofFile c.path e), prepared.relistAt c.directory)
    | .ok saved => (.ok (), saved)

end Cache
end ParallelLint
