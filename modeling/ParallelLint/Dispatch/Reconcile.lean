import ParallelLint.Dispatch.Merge

set_option autoImplicit false

namespace ParallelLint

structure CacheChanges where
  stored : Nat
  pruned : Nat
  deriving DecidableEq, Repr, Inhabited

namespace Cache
variable {σ : Type}

/-- The task and the signature of a result that is to be stored: of a file that is not ignored, was
read, and whose text stays as it was read. -/
def storable? (tasks : List Task) (m : Merged) : Option (Task × Signature) :=
  match m.signature, tasks[m.index]? with
  | some signature, some task =>
    if task.ignored || m.report.result.output.isSome then none else some (task, signature)
  | _, _ => none

structure Storing (σ : Type) where
  cache : Cache
  stored : Nat
  state : σ

/-- Stores results one by one. Those before a failure stay stored. -/
def storeAll (resolver : Resolver σ) (fs : FileSystem) (tasks : List Task) (s : Storing σ) :
    List Merged → Except LintError Unit × Storing σ
  | [] => (.ok (), s)
  | m :: rest =>
    match storable? tasks m with
    | none => storeAll resolver fs tasks s rest
    | some (task, signature) =>
      match resolver.resolve fs s.state task.path with
      | (.error e, state) => (.error e, { s with state })
      | (.ok none, state) => storeAll resolver fs tasks { s with state } rest
      | (.ok (some config), state) =>
        let cache := s.cache.store task.path signature config.fingerprint m.report.result
        storeAll resolver fs tasks ⟨cache, s.stored + 1, state⟩ rest

def reconcile (resolver : Resolver σ) (fs : FileSystem) (tasks : List Task) (cache : Cache)
    (merged : List Merged) (state : σ) : Except LintError CacheChanges × Cache × σ :=
  match storeAll resolver fs tasks ⟨cache, 0, state⟩ merged with
  | (.error e, s) => (.error e, s.cache, s.state)
  | (.ok (), s) =>
    let kept := s.cache.prune fs
    (.ok ⟨s.stored, s.cache.size - kept.size⟩, kept, s.state)

end Cache
end ParallelLint
