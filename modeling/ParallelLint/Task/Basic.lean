import ParallelLint.Json.Decode
import ParallelLint.Path

set_option autoImplicit false

namespace ParallelLint
open Json

structure Task where
  index : Nat
  path : Path
  /-- Named by the user although it is to be ignored. -/
  ignored : Bool
  deriving DecidableEq, Repr, Inhabited

namespace Task

def number (files : List (Path × Bool)) : List Task :=
  files.zipIdx.map fun file => ⟨file.2, file.1.1, file.1.2⟩

def misnumbered? (tasks : List Task) : Option (Nat × Task) :=
  (tasks.zipIdx.find? fun task => task.1.index ≠ task.2).map fun task => (task.2, task.1)

def toJson (t : Task) : Json :=
  .object [("index", .ofNat t.index), ("file_path", .string t.path.text),
    ("ignored", .bool t.ignored)]

def read : Decoder Task := fun depth tree =>
  match readRecord ["index", "file_path", "ignored"] 3 depth tree with
  | some (depth, [index, path, ignored]) => do
    let index ← required readNatural depth index
    let path ← required readString depth path
    let ignored ← required readBool depth ignored
    pure ⟨index, ⟨path⟩, ignored⟩
  | _ => none

end Task
end ParallelLint
