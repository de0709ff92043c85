import ParallelLint.Dispatch.Worker
import ParallelLint.Dispatch.WorkerCount

set_option autoImplicit false

/-!
Supervisors run a number of workers once. The first worker that breaks down makes the run fail, and
exhausts the cursor so that the others take no more tasks.
-/
namespace ParallelLint

inductive PoolState where
  | idle | running | completed | failed
  deriving DecidableEq, Repr, Inhabited

structure Supervisor where
  workers : Nat
  state : PoolState
  deriving DecidableEq, Repr, Inhabited

structure Pool (σ : Type) where
  shared : Shared σ
  state : PoolState
  firstError : Option LintError
  workers : List Worker

structure Output where
  outcomes : List Outcome
  stats : Stats
  deriving DecidableEq, Repr, Inhabited

def Output.ofReports (reports : List (List Outcome × Stats)) : Output :=
  ⟨reports.flatMap Prod.fst, (reports.map Prod.snd).foldl Stats.add .zero⟩

def Breakdown.toError (worker : Nat) : Breakdown → LintError
  | .failed error => error
  | .crashed detail => .workerPanicked worker (detail.getD "unknown panic payload")

namespace Pool
variable {σ : Type}

def start (workers : Nat) (shared : Shared σ) : Pool σ :=
  ⟨shared, .running, none, (List.range workers).map Worker.fresh⟩

/-- The cause of a failure is kept, unless there is one already. -/
def keepError (p : Pool σ) (worker : Nat) (cause : Breakdown) : Pool σ :=
  { p with firstError := p.firstError.or (some (cause.toError worker)) }

def exhaust (ctx : Context σ) (p : Pool σ) : Pool σ :=
  { p with shared := { p.shared with cursor := p.shared.cursor.exhaust ctx.count } }

/-- One step of one worker. A breakdown takes three more: the run is marked as failed, the cursor
is exhausted, and the cause is reported. -/
def stepWorker (ctx : Context σ) (p : Pool σ) (w : Worker) : Pool σ × Worker :=
  match w.phase with
  | .broken cause => ({ p with state := .failed }, { w with phase := .failing cause })
  | .failing cause => (p.exhaust ctx, { w with phase := .stopping cause })
  | .stopping cause => (p.keepError w.id cause, { w with phase := .failed })
  | _ =>
    let (shared, w) := w.step ctx p.shared
    ({ p with shared }, w)

def step (ctx : Context σ) (p : Pool σ) (i : Nat) : Pool σ :=
  match p.workers[i]? with
  | some w =>
    let (p, w) := p.stepWorker ctx w
    { p with workers := p.workers.set i w }
  | none => p

def runWorker (ctx : Context σ) (p : Pool σ) (w : Worker) : Pool σ × Worker :=
  let (shared, w) := w.run ctx p.shared
  let (p, w) := Pool.stepWorker ctx { p with shared } w
  let (p, w) := p.stepWorker ctx w
  p.stepWorker ctx w

def runFrom (ctx : Context σ) (p : Pool σ) (i : Nat) : List Worker → Pool σ
  | [] => p
  | w :: rest =>
    let (p, w) := p.runWorker ctx w
    runFrom ctx { p with workers := p.workers.set i w } (i + 1) rest

/-- Makes the steps of a schedule, a list of worker numbers, and then all steps that are left. -/
def run (ctx : Context σ) (schedule : List Nat) (p : Pool σ) : Pool σ :=
  let p := schedule.foldl (Pool.step ctx) p
  p.runFrom ctx 0 p.workers

def reports (p : Pool σ) : List (List Outcome × Stats) :=
  (p.workers.filter fun w => w.phase = .done).map fun w => (w.batch.reverse, w.stats)

def output (p : Pool σ) : Output := .ofReports p.reports

def finish (p : Pool σ) : PoolState := if p.state = .failed then .failed else .completed

end Pool

namespace Supervisor
variable {σ : Type}

def ofCount (workers : Nat) : Supervisor := ⟨max workers 1, .idle⟩

/-- Runs the workers in the order of a schedule. A supervisor runs only once. -/
def run (sup : Supervisor) (ctx : Context σ) (schedule : List Nat) (shared : Shared σ) :
    Except LintError Output × Supervisor × Shared σ :=
  if sup.state ≠ .idle then (.error (.poolStart "supervisor has already run"), sup, shared)
  else
    let p := (Pool.start sup.workers shared).run ctx schedule
    let answer := match p.firstError with
      | some e => .error e
      | none => .ok p.output
    (answer, { sup with state := p.finish }, p.shared)

end Supervisor
end ParallelLint
