import ParallelLint.Dispatch.Supervisor

set_option autoImplicit false

namespace ParallelLint
variable {σ : Type}

structure Job (σ : Type) where
  ctx : Context σ
  shared : Shared σ
  refusal : Option String

def Worker.isOver (w : Worker) : Bool :=
  match w.phase with
  | .done | .failed => true
  | .ready | .holding _ | .broken _ | .failing _ | .stopping _ => false

def Pool.answer (p : Pool σ) : Except LintError Output :=
  match p.firstError with
  | some e => .error e
  | none => .ok p.output

namespace Supervisor

def spent : LintError := .poolStart "supervisor has already run"

/-- A single worker needs no threads. -/
def refusal? (sup : Supervisor) (job : Job σ) : Option LintError :=
  if WorkerCount.usesPool sup.workers then job.refusal.map .poolStart else none

def runJob (sup : Supervisor) (job : Job σ) (schedule : List Nat) :
    Except LintError Output × Supervisor × Shared σ :=
  if sup.state ≠ .idle then (.error spent, sup, job.shared)
  else
    match sup.refusal? job with
    | some e => (.error e, { sup with state := .failed }, job.shared)
    | none => sup.run job.ctx schedule job.shared

def runJobs (sup : Supervisor) :
    List (Job σ × List Nat) → List (Except LintError Output × Shared σ) × Supervisor
  | [] => ([], sup)
  | (job, schedule) :: rest =>
    let (answer, sup, shared) := sup.runJob job schedule
    let (answers, sup) := sup.runJobs rest
    ((answer, shared) :: answers, sup)

end Supervisor

/-- How far the one job has come that a supervisor takes. -/
inductive Progress (σ : Type) where
  | none
  | admitted (job : Job σ)
  | working (ctx : Context σ) (p : Pool σ)
  | returned (answer : Except LintError Output) (shared : Shared σ)

/-- A supervisor at some moment. -/
structure Session (σ : Type) where
  sup : Supervisor
  progress : Progress σ

namespace Session

inductive Event (σ : Type) where
  | call (job : Job σ)
  /-- The admitted job is started, or ended when all of its workers are over. -/
  | proceed
  | work (worker : Nat)

def ofCount (workers : Nat) : Session σ := ⟨.ofCount workers, .none⟩

/-- Whoever calls when the supervisor is not idle is answered at once. -/
def call (s : Session σ) (job : Job σ) : Option (Except LintError Output) × Session σ :=
  if s.sup.state ≠ .idle then (some (.error Supervisor.spent), s)
  else (none, ⟨{ s.sup with state := .running }, .admitted job⟩)

def proceed (s : Session σ) : Session σ :=
  match s.progress with
  | .admitted job =>
    match s.sup.refusal? job with
    | some e => ⟨{ s.sup with state := .failed }, .returned (.error e) job.shared⟩
    | none => ⟨s.sup, .working job.ctx (Pool.start s.sup.workers job.shared)⟩
  | .working _ p =>
    if p.workers.all Worker.isOver then
      ⟨{ s.sup with state := p.finish }, .returned p.answer p.shared⟩
    else s
  | .none | .returned _ _ => s

def work (s : Session σ) (worker : Nat) : Session σ :=
  match s.progress with
  | .working ctx p =>
    ⟨{ s.sup with state := (p.step ctx worker).state }, .working ctx (p.step ctx worker)⟩
  | .none | .admitted _ | .returned _ _ => s

def step (s : Session σ) : Event σ → Session σ
  | .call job => (s.call job).2
  | .proceed => s.proceed
  | .work worker => s.work worker

def play (s : Session σ) (events : List (Event σ)) : Session σ := events.foldl step s

def states (s : Session σ) : List (Event σ) → List PoolState
  | [] => [s.sup.state]
  | e :: rest => s.sup.state :: (s.step e).states rest

end Session
end ParallelLint
