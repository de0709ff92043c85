import ParallelLint.Digest.Blake3
import ParallelLint.FileSystem.Basic
import ParallelLint.Json.Decode
import ParallelLint.Message
import ParallelLint.Options.CacheStrategy

set_option autoImplicit false

/-!
Signatures of files: what is compared to see whether a file has changed. A signature that comes
with the bytes of a file describes no later state than the one in which they were read.
-/
namespace ParallelLint
open Text Json

structure Signature where
  size : Nat
  modified : Option Nat
  hash : Option String
  deriving DecidableEq, Repr, Inhabited

namespace Signature

/-- Times before the epoch count as the epoch, later ones modulo 64 bits. -/
def timeStamp (modified : Int) : Nat := modified.toNat % UInt64.size

/-- By size and time, which are told of directories and of files that cannot be read as well. -/
def ofStatus (status : Status) : Signature := ⟨status.size, some (timeStamp status.modified), none⟩

def ofBytes (size : Nat) (bytes : Bytes) : Signature := ⟨size, none, some (Blake3.hashHex bytes)⟩

def compute (fs : FileSystem) (path : Path) (strategy : CacheStrategy) :
    Except FileError Signature :=
  match fs.status path with
  | .error e => .error e
  | .ok status =>
    match strategy with
    | .metadata => .ok (ofStatus status)
    | .content => (fs.read path).map (ofBytes status.size)

/-- The bytes of a file with a signature for them. The status is taken first, and what is read may
already be a later state. -/
def readAcross (before after : FileSystem) (path : Path) (strategy : CacheStrategy) :
    Except FileError (Bytes × Signature) :=
  match before.status path with
  | .error e => .error e
  | .ok status =>
    match after.read path with
    | .error e => .error e
    | .ok bytes =>
      match strategy with
      | .metadata => .ok (bytes, ofStatus status)
      | .content => .ok (bytes, ofBytes bytes.length bytes)

def readAt (fs : FileSystem) (path : Path) (strategy : CacheStrategy) :
    Except FileError (Bytes × Signature) :=
  readAcross fs fs path strategy

def toJson (s : Signature) : Json :=
  .object ([("size", .ofNat s.size)] ++
    optionalField "modified_ns" .ofNat s.modified ++
    optionalField "content_hash" .string s.hash)

def read : Decoder Signature := fun depth tree =>
  match readRecord ["size", "modified_ns", "content_hash"] 1 depth tree with
  | some (depth, [size, modified, hash]) => do
    let size ← required readNatural depth size
    let modified ← defaulted none (readOption readNatural) depth modified
    let hash ← defaulted none (readOption readString) depth hash
    pure ⟨size, modified, hash⟩
  | _ => none

end Signature
end ParallelLint
