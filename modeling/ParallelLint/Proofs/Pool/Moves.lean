import Mathlib.Logic.Relation
import ParallelLint.Dispatch.Supervisor

set_option autoImplicit false

/-!
The steps of a pool, one rule to each thing that a worker can do. A run of a pool is a sequence of
such steps whatever its schedule is, and ends with every worker over.
-/
namespace ParallelLint
variable {σ : Type}

/-- The number of the tasks fits the cursor. -/
def Context.Countable (ctx : Context σ) : Prop := ctx.tasks.length < UInt64.size

theorem Context.count_toNat {ctx : Context σ} (h : ctx.Countable) :
    ctx.count.toNat = ctx.tasks.length :=
  UInt64.toNat_ofNat_of_lt' h

def Worker.IsOver (w : Worker) : Prop := w.phase = .done ∨ w.phase = .failed

namespace Pool

/-- The pool after a number has been taken from the cursor. -/
def claimed (p : Pool σ) : Pool σ :=
  { p with shared := { p.shared with cursor := p.shared.cursor.claim.2 } }

def inWorld (p : Pool σ) (world : World σ) : Pool σ := { p with shared := { p.shared with world } }

@[simp] theorem inWorld_cursor (p : Pool σ) (world : World σ) :
    (p.inWorld world).shared.cursor = p.shared.cursor := rfl

@[simp] theorem keepError_cursor (p : Pool σ) (worker : Nat) (cause : Breakdown) :
    (p.keepError worker cause).shared.cursor = p.shared.cursor := rfl

/-- One step of one worker: the pool, but for the list of its workers, and the worker before and
after it. -/
inductive Move (ctx : Context σ) (p : Pool σ) (w : Worker) : Pool σ → Worker → Prop where
  | claim {task : Task} (ready : w.phase = .ready) (below : p.shared.cursor.next < ctx.count)
      (found : ctx.tasks[p.shared.cursor.next.toNat]? = some task) :
      Move ctx p w p.claimed { w with phase := .holding task }
  | leave (ready : w.phase = .ready) (beyond : ctx.count ≤ p.shared.cursor.next) :
      Move ctx p w p.claimed { w with phase := .done }
  | finish {task : Task} {outcome : Outcome} {stats : Stats} (holding : w.phase = .holding task)
      (answer : (ctx.process task p.shared.world).1 = .ok (outcome, stats)) :
      Move ctx p w (p.inWorld (ctx.process task p.shared.world).2)
        { w with phase := .ready, batch := outcome :: w.batch, stats := w.stats.add stats }
  | breakDown {task : Task} {cause : Breakdown} (holding : w.phase = .holding task)
      (answer : (ctx.process task p.shared.world).1 = .error cause) :
      Move ctx p w (p.inWorld (ctx.process task p.shared.world).2) { w with phase := .broken cause }
  | mark {cause : Breakdown} (broken : w.phase = .broken cause) :
      Move ctx p w { p with state := .failed } { w with phase := .failing cause }
  | exhaust {cause : Breakdown} (failing : w.phase = .failing cause) :
      Move ctx p w (p.exhaust ctx) { w with phase := .stopping cause }
  | report {cause : Breakdown} (stopping : w.phase = .stopping cause) :
      Move ctx p w (p.keepError w.id cause) { w with phase := .failed }

/-- One step of any of the workers. -/
inductive Step (ctx : Context σ) (p : Pool σ) : Pool σ → Prop where
  | move {before rest : List Worker} {w w' : Worker} {p' : Pool σ}
      (workers : p.workers = before ++ w :: rest) (move : Move ctx p w p' w') :
      Step ctx p { p' with workers := before ++ w' :: rest }

abbrev Reaches (ctx : Context σ) : Pool σ → Pool σ → Prop := Relation.ReflTransGen (Step ctx)

theorem work_moves {ctx : Context σ} {p : Pool σ} {w : Worker} {task : Task}
    (h : w.phase = .holding task) :
    Move ctx p w { p with shared := (w.work ctx p.shared task).1 }
      (w.work ctx p.shared task).2 := by
  unfold Worker.work
  cases answer : ctx.process task p.shared.world with
  | mk result world =>
    have hw : (ctx.process task p.shared.world).2 = world := by rw [answer]
    subst hw
    cases result with
    | error cause => exact .breakDown h (by rw [answer])
    | ok done => exact .finish h (by rw [answer])

theorem take_moves {ctx : Context σ} (countable : ctx.Countable) {p : Pool σ} {w : Worker}
    (h : w.phase = .ready) :
    Move ctx p w { p with shared := (w.take ctx p.shared).1 } (w.take ctx p.shared).2 := by
  by_cases below : p.shared.cursor.next < ctx.count
  · have inside : p.shared.cursor.next.toNat < ctx.tasks.length := by
      rw [← Context.count_toNat countable]
      exact UInt64.lt_iff_toNat_lt.1 below
    have found := List.getElem?_eq_getElem inside
    have move := Move.claim (w := w) h below found
    simpa only [Worker.take, below, ite_true, found, Option.elim_some, claimed, Cursor.claim]
      using move
  · have move := Move.leave (w := w) h (UInt64.not_lt.1 below)
    simpa only [Worker.take, below, ite_false, claimed, Cursor.claim] using move

theorem active_moves {ctx : Context σ} (countable : ctx.Countable) {p : Pool σ} {w : Worker}
    (active : w.isActive = true) :
    Move ctx p w { p with shared := (w.step ctx p.shared).1 } (w.step ctx p.shared).2 := by
  cases h : w.phase with
  | ready => simpa only [Worker.step, h] using take_moves countable h
  | holding task => simpa only [Worker.step, h] using work_moves h
  | broken | failing | stopping | done | failed => simp [Worker.isActive, h] at active

theorem stepWorker_active {ctx : Context σ} {p : Pool σ} {w : Worker} (active : w.isActive = true) :
    p.stepWorker ctx w =
      ({ p with shared := (w.step ctx p.shared).1 }, (w.step ctx p.shared).2) := by
  cases h : w.phase with
  | ready | holding => simp only [stepWorker, h]
  | broken | failing | stopping | done | failed => simp [Worker.isActive, h] at active

theorem stepWorker_over {ctx : Context σ} {p : Pool σ} {w : Worker} (stopped : w.IsOver) :
    p.stepWorker ctx w = (p, w) := by
  rcases stopped with h | h <;> simp [stepWorker, Worker.step, h]

theorem stepWorker_moves {ctx : Context σ} (countable : ctx.Countable) {p : Pool σ} {w : Worker}
    (h : ¬ w.IsOver) : Move ctx p w (p.stepWorker ctx w).1 (p.stepWorker ctx w).2 := by
  cases hp : w.phase with
  | ready | holding =>
    have active : w.isActive = true := by simp [Worker.isActive, hp]
    rw [stepWorker_active active]
    exact active_moves countable active
  | broken cause => simpa only [stepWorker, hp] using Move.mark (p := p) hp
  | failing cause => simpa only [stepWorker, hp] using Move.exhaust (p := p) hp
  | stopping cause => simpa only [stepWorker, hp] using Move.report (p := p) hp
  | done => exact absurd (.inl hp) h
  | failed => exact absurd (.inr hp) h

theorem stepWorker_workers (ctx : Context σ) (p : Pool σ) (w : Worker) :
    (p.stepWorker ctx w).1.workers = p.workers := by
  cases h : w.phase <;> simp [stepWorker, h, exhaust, keepError]

/-- Steps of workers do not look at the list of workers. -/
theorem stepWorker_among (ctx : Context σ) (p : Pool σ) (w : Worker) (among : List Worker) :
    Pool.stepWorker ctx { p with workers := among } w =
      ({ (p.stepWorker ctx w).1 with workers := among }, (p.stepWorker ctx w).2) := by
  cases h : w.phase <;> simp [stepWorker, h, exhaust, keepError]

theorem stepWorker_reaches {ctx : Context σ} (countable : ctx.Countable) (p : Pool σ) (w : Worker)
    (before rest : List Worker) :
    Reaches ctx { p with workers := before ++ w :: rest }
      { (p.stepWorker ctx w).1 with workers := before ++ (p.stepWorker ctx w).2 :: rest } := by
  by_cases stopped : w.IsOver
  · rw [stepWorker_over stopped]
  · have move := stepWorker_moves countable (p := { p with workers := before ++ w :: rest }) stopped
    rw [stepWorker_among] at move
    have stepped := Step.move rfl move
    exact .single stepped

theorem split_at {α : Type} {xs : List α} {i : Nat} {x : α} (h : xs[i]? = some x) (y : α) :
    xs = xs.take i ++ x :: xs.drop (i + 1) ∧ xs.set i y = xs.take i ++ y :: xs.drop (i + 1) := by
  obtain ⟨inside, found⟩ := List.getElem?_eq_some_iff.1 h
  constructor
  · rw [← found, ← List.drop_eq_getElem_cons inside, List.take_append_drop]
  · rw [List.set_eq_take_append_cons_drop, if_pos inside]

theorem step_reaches {ctx : Context σ} (countable : ctx.Countable) (p : Pool σ) (i : Nat) :
    Reaches ctx p (p.step ctx i) := by
  unfold step
  cases h : p.workers[i]? with
  | none => exact .refl
  | some w =>
    obtain ⟨workers, changed⟩ := split_at h (p.stepWorker ctx w).2
    have moved := stepWorker_reaches countable p w (p.workers.take i) (p.workers.drop (i + 1))
    rw [← workers, ← changed] at moved
    simpa only [stepWorker_workers] using moved

theorem steps_reach {ctx : Context σ} (countable : ctx.Countable) (schedule : List Nat)
    (p : Pool σ) : Reaches ctx p (schedule.foldl (Pool.step ctx) p) := by
  induction schedule generalizing p with
  | nil => exact .refl
  | cons i rest ih => exact (step_reaches countable p i).trans (ih _)

theorem workerRun_reaches {ctx : Context σ} (countable : ctx.Countable) (s : Shared σ) (w : Worker)
    (p : Pool σ) (before rest : List Worker) :
    Reaches ctx { p with shared := s, workers := before ++ w :: rest }
      { p with shared := (w.run ctx s).1, workers := before ++ (w.run ctx s).2 :: rest } := by
  induction s, w using Worker.run.induct ctx with
  | case1 s w active ih =>
    rw [Worker.run, dif_pos active]
    have move := active_moves countable active
      (p := { p with shared := s, workers := before ++ w :: rest })
    exact .head (.move rfl move) ih
  | case2 s w idle => rw [Worker.run, dif_neg idle]

theorem workerRun_idle (ctx : Context σ) (s : Shared σ) (w : Worker) :
    (w.run ctx s).2.isActive = false := by
  induction s, w using Worker.run.induct ctx with
  | case1 s w active ih => rw [Worker.run, dif_pos active]; exact ih
  | case2 s w idle => rw [Worker.run, dif_neg idle]; simpa using idle

/-- Three steps are enough for whatever is to be reported. -/
theorem runWorker_over (ctx : Context σ) (p : Pool σ) (w : Worker) :
    (p.runWorker ctx w).2.IsOver := by
  have idle := workerRun_idle ctx p.shared w
  unfold runWorker
  cases h : (w.run ctx p.shared).2.phase with
  | ready | holding => simp [Worker.isActive, h] at idle
  | broken | failing | stopping | done | failed =>
    simp [stepWorker, Worker.step, h, Worker.IsOver]

theorem runWorker_reaches {ctx : Context σ} (countable : ctx.Countable) (p : Pool σ) (w : Worker)
    (before rest : List Worker) :
    Reaches ctx { p with workers := before ++ w :: rest }
      { (p.runWorker ctx w).1 with workers := before ++ (p.runWorker ctx w).2 :: rest } := by
  let ran : Pool σ := { p with shared := (w.run ctx p.shared).1 }
  let first := ran.stepWorker ctx (w.run ctx p.shared).2
  let second := first.1.stepWorker ctx first.2
  have h₀ := workerRun_reaches countable p.shared w p before rest
  have h₁ := stepWorker_reaches countable ran (w.run ctx p.shared).2 before rest
  have h₂ := stepWorker_reaches countable first.1 first.2 before rest
  have h₃ := stepWorker_reaches countable second.1 second.2 before rest
  exact ((h₀.trans h₁).trans h₂).trans h₃

theorem runWorker_workers (ctx : Context σ) (p : Pool σ) (w : Worker) :
    (p.runWorker ctx w).1.workers = p.workers := by
  simp only [runWorker, stepWorker_workers]

theorem runFrom_reaches {ctx : Context σ} (countable : ctx.Countable) (p : Pool σ)
    (before rest : List Worker) (workers : p.workers = before ++ rest)
    (stopped : ∀ w ∈ before, w.IsOver) :
    Reaches ctx p (p.runFrom ctx before.length rest) ∧
      ∀ w ∈ (p.runFrom ctx before.length rest).workers, w.IsOver := by
  induction rest generalizing p before with
  | nil => exact ⟨.refl, by simpa [runFrom, workers] using stopped⟩
  | cons w rest ih =>
    have moved := runWorker_reaches countable p w before rest
    rw [← workers] at moved
    let p' : Pool σ :=
      { (p.runWorker ctx w).1 with workers := before ++ (p.runWorker ctx w).2 :: rest }
    have changed : (p.runWorker ctx w).1.workers.set before.length (p.runWorker ctx w).2 =
        before ++ (p.runWorker ctx w).2 :: rest := by
      simp [runWorker_workers, workers]
    obtain ⟨reached, ended⟩ := ih p' (before ++ [(p.runWorker ctx w).2]) (by simp [p'])
      (by
        intro v hv
        rcases List.mem_append.1 hv with hv | hv
        · exact stopped v hv
        · rw [List.mem_singleton.1 hv]
          exact runWorker_over ctx p w)
    simp only [runFrom, changed]
    rw [List.length_append, List.length_singleton] at reached ended
    exact ⟨moved.trans reached, ended⟩

/-- Whatever the schedule, a run is a sequence of steps at whose end all workers are over. -/
theorem run_reaches {ctx : Context σ} (countable : ctx.Countable) (schedule : List Nat)
    (p : Pool σ) :
    Reaches ctx p (p.run ctx schedule) ∧ ∀ w ∈ (p.run ctx schedule).workers, w.IsOver := by
  obtain ⟨reached, stopped⟩ := runFrom_reaches countable (schedule.foldl (Pool.step ctx) p) [] _ rfl
    (by simp)
  exact ⟨(steps_reach countable schedule p).trans reached, stopped⟩

end Pool
end ParallelLint
