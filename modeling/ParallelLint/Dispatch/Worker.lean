import ParallelLint.Dispatch.Cursor
import ParallelLint.Dispatch.Processing

set_option autoImplicit false

/-!
Workers. A worker takes a number from the cursor, processes the task of that number, and goes on
until it takes one that has no task. Each of these is a step, and the steps of several workers may
come in any order.
-/
namespace ParallelLint

inductive Phase where
  | ready
  | holding (task : Task)
  /-- Processing broke down, and nobody has been told yet. -/
  | broken (cause : Breakdown)
  /-- The run is marked as failed, but tasks can still be taken. -/
  | failing (cause : Breakdown)
  /-- No more tasks can be taken, but the cause is not reported. -/
  | stopping (cause : Breakdown)
  | done
  | failed
  deriving DecidableEq, Repr, Inhabited

structure Worker where
  id : Nat
  phase : Phase
  /-- The outcomes so far, the last one first. -/
  batch : List Outcome
  stats : Stats
  deriving DecidableEq, Repr, Inhabited

/-- What workers have in common. -/
structure Shared (σ : Type) where
  cursor : Cursor
  world : World σ

namespace Worker
variable {σ : Type}

def fresh (id : Nat) : Worker := ⟨id, .ready, [], .zero⟩

def take (ctx : Context σ) (s : Shared σ) (w : Worker) : Shared σ × Worker :=
  let (index, cursor) := s.cursor.claim
  let phase :=
    if index < ctx.count then (ctx.tasks[index.toNat]?).elim .done .holding else .done
  ({ s with cursor }, { w with phase })

def work (ctx : Context σ) (s : Shared σ) (w : Worker) (task : Task) : Shared σ × Worker :=
  match ctx.process task s.world with
  | (.ok (outcome, stats), world) =>
    ({ s with world },
      { w with phase := .ready, batch := outcome :: w.batch, stats := w.stats.add stats })
  | (.error cause, world) => ({ s with world }, { w with phase := .broken cause })

def step (ctx : Context σ) (s : Shared σ) (w : Worker) : Shared σ × Worker :=
  match w.phase with
  | .ready => take ctx s w
  | .holding task => work ctx s w task
  | .broken _ | .failing _ | .stopping _ | .done | .failed => (s, w)

def isActive (w : Worker) : Bool :=
  match w.phase with
  | .ready | .holding _ => true
  | _ => false

/-- A bound on the steps that are left. -/
def stepsLeft (ctx : Context σ) (s : Shared σ) (w : Worker) : Nat :=
  let free := ctx.count.toNat - s.cursor.next.toNat
  match w.phase with
  | .ready => 2 * free + 1
  | .holding _ => 2 * free + 2
  | .broken _ | .failing _ | .stopping _ | .done | .failed => 0

theorem claim_toNat {c : Cursor} {n : UInt64} (h : c.next < n) :
    c.claim.2.next.toNat = c.next.toNat + 1 := by
  have below := UInt64.lt_iff_toNat_lt.1 h
  have bound := n.toNat_lt
  simp only [Cursor.claim, UInt64.toNat_add]
  have one : (1 : UInt64).toNat = 1 := rfl
  rw [one]
  omega

theorem stepsLeft_step (ctx : Context σ) (s : Shared σ) (w : Worker) (h : w.isActive = true) :
    stepsLeft ctx (step ctx s w).1 (step ctx s w).2 < stepsLeft ctx s w := by
  match hp : w.phase with
  | .ready =>
    simp only [step, hp, take, stepsLeft]
    by_cases below : s.cursor.next < ctx.count
    · have next := claim_toNat below
      have less := UInt64.lt_iff_toNat_lt.1 below
      simp only [Cursor.claim] at next ⊢
      simp only [below, ite_true, next]
      cases ctx.tasks[s.cursor.next.toNat]? with
      | none => simp
      | some task => simp only [Option.elim_some]; omega
    · simp [Cursor.claim, below]
  | .holding task =>
    simp only [step, hp, stepsLeft, work]
    match ctx.process task s.world with
    | (.ok _, world) => simp
    | (.error _, world) => simp
  | .broken _ | .failing _ | .stopping _ | .done | .failed => simp [isActive, hp] at h

def run (ctx : Context σ) (s : Shared σ) (w : Worker) : Shared σ × Worker :=
  if _active : w.isActive then run ctx (step ctx s w).1 (step ctx s w).2 else (s, w)
termination_by stepsLeft ctx s w
decreasing_by exact stepsLeft_step ctx s w _active

def report (w : Worker) : Except Breakdown (List Outcome × Stats) :=
  match w.phase with
  | .broken cause => .error cause
  | _ => .ok (w.batch.reverse, w.stats)

end Worker
end ParallelLint
