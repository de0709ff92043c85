import ParallelLint.Options.Concurrency

set_option autoImplicit false

namespace ParallelLint.WorkerCount

def tasksPerWorker : Nat := 35

def leastPool : Nat := 2

/-- At most half of the parallel threads, and one worker to every 35 tasks. -/
def automatic (parallelism tasks : Nat) : Nat :=
  min (max (parallelism / 2) 1) (max ((tasks + tasksPerWorker - 1) / tasksPerWorker) 1)

def requested (parallelism tasks : Nat) : Concurrency → Nat
  | .off => 1
  | .auto => automatic parallelism tasks
  | .fixed n => max n 1

def ofConcurrency (parallelism : Nat) (c : Concurrency) (tasks : Nat) : Nat :=
  min (requested parallelism tasks c) (max tasks 1)

def usesPool (workers : Nat) : Bool := leastPool ≤ workers

end ParallelLint.WorkerCount
