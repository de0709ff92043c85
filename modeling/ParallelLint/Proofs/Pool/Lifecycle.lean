import ParallelLint.Dispatch.Lifecycle
import ParallelLint.Proofs.Pool.Failures
import ParallelLint.Proofs.Pool.Turns

set_option autoImplicit false

/-!
The states of a supervisor over time. They go from idle over running to one of two ends, and the end
is told by what the one run returns. Every other call is refused and changes nothing.
-/
namespace ParallelLint
variable {σ : Type}

theorem Worker.isOver_iff (w : Worker) : w.isOver = true ↔ w.IsOver := by
  unfold isOver IsOver
  cases w.phase <;> simp

theorem Worker.step_quiet (ctx : Context σ) (s : Shared σ) {w : Worker}
    (active : w.isActive = true) :
    Pool.hasMarked (w.step ctx s).2 = false ∧ (w.step ctx s).2.phase ≠ .failed := by
  cases h : w.phase with
  | ready =>
    by_cases below : s.cursor.next < ctx.count
    · cases found : ctx.tasks[s.cursor.next.toNat]? <;>
        simp [step, h, take, Cursor.claim, below, found, Pool.hasMarked]
    · simp [step, h, take, Cursor.claim, below, Pool.hasMarked]
  | holding task =>
    simp only [step, h, work]
    split <;> simp [Pool.hasMarked]
  | broken | failing | stopping | done | failed => simp [isActive, h] at active

namespace Pool

/-- Whether the run is marked as failed and has an error is told by the phases of its workers. -/
structure Told (p : Pool σ) : Prop where
  state : p.state = if p.workers.any hasMarked then .failed else .running
  reported : p.firstError.isSome = p.workers.any fun w => w.phase = .failed

theorem start_told (workers : Nat) (shared : Shared σ) : (Pool.start workers shared).Told where
  state := by simp [Pool.start, hasMarked, Worker.fresh]
  reported := by simp [Pool.start, Worker.fresh]

theorem stepWorker_told (ctx : Context σ) {p : Pool σ} {w : Worker} {marked reported : Bool}
    (state : p.state = if hasMarked w || marked then .failed else .running)
    (error : p.firstError.isSome = (decide (w.phase = .failed) || reported)) :
    let q := p.stepWorker ctx w
    (q.1.state = if hasMarked q.2 || marked then .failed else .running) ∧
      q.1.firstError.isSome = (decide (q.2.phase = .failed) || reported) := by
  intro q
  cases h : w.phase with
  | ready | holding =>
    have active : w.isActive = true := by simp [Worker.isActive, h]
    obtain ⟨unmarked, unreported⟩ := w.step_quiet ctx p.shared active
    simp only [q, stepWorker_active active, unmarked, unreported, decide_false]
    simp only [hasMarked, h] at state
    simp only [h, reduceCtorEq, decide_false] at error
    exact ⟨state, error⟩
  | broken cause | failing cause | stopping cause =>
    simp only [hasMarked, h] at state
    simp only [h, reduceCtorEq, decide_false] at error
    simp [q, stepWorker, h, hasMarked, keepError, exhaust, state, error]
  | done | failed =>
    have ended : w.IsOver := by simp [Worker.IsOver, h]
    simp only [q, stepWorker_over ended]
    exact ⟨state, error⟩

theorem Told.step {p : Pool σ} (told : p.Told) (ctx : Context σ) (i : Nat) :
    (p.step ctx i).Told := by
  rcases step_cases ctx p i with ⟨-, same⟩ | ⟨before, w, rest, -, workers, turn⟩
  · rwa [same]
  · have state := told.state
    have reported := told.reported
    rw [any_split workers] at state reported
    obtain ⟨state', reported'⟩ := stepWorker_told ctx state reported
    have split := any_split (p := p.step ctx i) (by rw [turn])
    constructor
    · rw [split, turn]
      exact state'
    · rw [split, turn]
      exact reported'

theorem Told.state_or {p : Pool σ} (told : p.Told) : p.state = .running ∨ p.state = .failed := by
  rw [told.state]
  split
  · exact .inr rfl
  · exact .inl rfl

theorem step_state (ctx : Context σ) (p : Pool σ) (i : Nat) :
    (p.step ctx i).state = p.state ∨ (p.step ctx i).state = .failed := by
  rcases step_cases ctx p i with ⟨-, same⟩ | ⟨before, w, rest, -, -, turn⟩
  · exact .inl (by rw [same])
  · rw [turn]
    cases h : w.phase <;> simp [stepWorker, h, exhaust, keepError]

theorem Told.finish {p : Pool σ} (told : p.Told) (stopped : ∀ w ∈ p.workers, w.IsOver) :
    (∃ output, p.answer = .ok output ∧ p.finish = .completed) ∨
      ∃ e, p.answer = .error e ∧ p.finish = .failed := by
  -- among workers that are over, those that have marked the run are those that have reported
  have same : p.workers.any hasMarked = p.workers.any fun w => w.phase = .failed := by
    rw [Bool.eq_iff_iff, List.any_eq_true, List.any_eq_true]
    refine exists_congr fun w => and_congr_right fun hw => ?_
    rcases stopped w hw with h | h <;> simp [hasMarked, h]
  have state := told.state
  rw [same, ← told.reported] at state
  cases known : p.firstError with
  | none =>
    refine .inl ⟨p.output, by rw [answer, known], ?_⟩
    rw [Pool.finish, state, known]
    rfl
  | some e =>
    refine .inr ⟨e, by rw [answer, known], ?_⟩
    rw [Pool.finish, state, known]
    rfl

end Pool

/-- How the state of a supervisor may change. -/
inductive PoolState.Next : PoolState → PoolState → Prop where
  | stay (state : PoolState) : Next state state
  | start : Next .idle .running
  | complete : Next .running .completed
  | fail : Next .running .failed

theorem PoolState.Next.idle {before after : PoolState} (next : Next before after)
    (idle : after = .idle) : before = .idle := by
  cases next with
  | stay => exact idle
  | start | complete | fail => cases idle

namespace Session

def Agrees (s : Session σ) : Prop :=
  match s.progress with
  | .none => s.sup.state = .idle
  | .admitted _ => s.sup.state = .running
  | .working _ _ => s.sup.state = .running ∨ s.sup.state = .failed
  | .returned (.ok _) _ => s.sup.state = .completed
  | .returned (.error _) _ => s.sup.state = .failed

/-- What holds at every moment of a session. -/
structure Valid (s : Session σ) : Prop where
  agrees : s.Agrees
  told : ∀ ctx p, s.progress = .working ctx p → s.sup.state = p.state ∧ p.Told

theorem ofCount_valid (workers : Nat) : (ofCount workers : Session σ).Valid where
  agrees := rfl
  told := by simp [ofCount]

theorem Agrees.idle {s : Session σ} (h : s.Agrees) : s.sup.state = .idle ↔ s.progress = .none := by
  unfold Agrees at h
  rcases s with ⟨sup, progress⟩
  rcases progress with _ | job | ⟨ctx, p⟩ | ⟨answer, shared⟩
  · simpa using h
  · simp_all
  · rcases h with h | h <;> simp_all
  · cases answer <;> simp_all

theorem call_refused {s : Session σ} (h : s.sup.state ≠ .idle) (job : Job σ) :
    s.call job = (some (.error Supervisor.spent), s) := if_pos h

theorem call_admitted {s : Session σ} (h : s.sup.state = .idle) (job : Job σ) :
    s.call job = (none, ⟨{ s.sup with state := .running }, .admitted job⟩) :=
  if_neg (not_not.2 h)

theorem Valid.call {s : Session σ} (h : s.Valid) (job : Job σ) :
    (s.call job).2.Valid ∧ PoolState.Next s.sup.state (s.call job).2.sup.state := by
  by_cases idle : s.sup.state = .idle
  · rw [call_admitted idle, idle]
    exact ⟨⟨rfl, by simp⟩, .start⟩
  · rw [call_refused idle]
    exact ⟨h, .stay _⟩

theorem Valid.proceed {s : Session σ} (h : s.Valid) :
    s.proceed.Valid ∧ PoolState.Next s.sup.state s.proceed.sup.state := by
  have agrees := h.agrees
  have told := h.told
  rcases s with ⟨sup, progress⟩
  rcases progress with _ | job | ⟨ctx, p⟩ | ⟨answer, shared⟩
  · exact ⟨h, .stay _⟩
  · have running : sup.state = .running := agrees
    simp only [Session.proceed]
    cases sup.refusal? job with
    | some e => exact ⟨⟨rfl, by simp⟩, by rw [running]; exact .fail⟩
    | none =>
      refine ⟨⟨.inl running, ?_⟩, .stay _⟩
      rintro _ _ ⟨⟩
      exact ⟨running, Pool.start_told _ _⟩
  · obtain ⟨state, told⟩ := told ctx p rfl
    simp only [Session.proceed]
    split
    · rename_i ended
      have stopped : ∀ w ∈ p.workers, w.IsOver := fun w hw =>
        w.isOver_iff.1 (List.all_eq_true.1 ended w hw)
      have before : p.state = .running ∨ p.state = .failed := told.state_or
      rw [← state] at before
      -- a run that is marked as failed has an error
      rcases told.finish stopped with ⟨output, ok, finish⟩ | ⟨e, error, finish⟩
      · refine ⟨⟨by simp only [Agrees, ok, finish], by simp⟩, ?_⟩
        have running : sup.state = .running := by
          rcases before with running | failed
          · exact running
          · rw [state] at failed
            simp [Pool.finish, failed] at finish
        simp only [finish, running]
        exact .complete
      · refine ⟨⟨by simp only [Agrees, error, finish], by simp⟩, ?_⟩
        simp only [finish]
        rcases before with running | failed
        · rw [running]
          exact .fail
        · rw [failed]
          exact .stay _
    · exact ⟨h, .stay _⟩
  · exact ⟨h, .stay _⟩

theorem Valid.work {s : Session σ} (h : s.Valid) (worker : Nat) :
    (s.work worker).Valid ∧ PoolState.Next s.sup.state (s.work worker).sup.state := by
  have told := h.told
  rcases s with ⟨sup, progress⟩
  rcases progress with _ | job | ⟨ctx, p⟩ | ⟨answer, shared⟩
  · exact ⟨h, .stay _⟩
  · exact ⟨h, .stay _⟩
  · obtain ⟨state, told⟩ := told ctx p rfl
    have later := told.step ctx worker
    refine ⟨⟨later.state_or, ?_⟩, ?_⟩
    · rintro _ _ ⟨⟩
      exact ⟨rfl, later⟩
    · have before : sup.state = .running ∨ sup.state = .failed := h.agrees
      have now : sup.state = p.state := state
      simp only [Session.work]
      rcases Pool.step_state ctx p worker with same | failed
      · rw [same, now]
        exact .stay _
      · rw [failed]
        rcases before with before | before <;> rw [before]
        · exact .fail
        · exact .stay _
  · exact ⟨h, .stay _⟩

theorem Valid.step {s : Session σ} (h : s.Valid) (e : Event σ) :
    (s.step e).Valid ∧ PoolState.Next s.sup.state (s.step e).sup.state := by
  cases e with
  | call job => exact h.call job
  | proceed => exact h.proceed
  | work worker => exact h.work worker

theorem Valid.play {s : Session σ} (h : s.Valid) (events : List (Event σ)) :
    (s.play events).Valid := by
  induction events generalizing s with
  | nil => exact h
  | cons e rest ih => exact ih (h.step e).1

theorem Valid.states {s : Session σ} (h : s.Valid) (events : List (Event σ)) :
    (s.states events).IsChain PoolState.Next := by
  induction events generalizing s with
  | nil => exact .singleton _
  | cons e rest ih =>
    obtain ⟨valid, next⟩ := h.step e
    have later := ih valid
    unfold Session.states at later ⊢
    cases rest <;> exact .cons_cons next later

theorem Valid.busy {s : Session σ} (h : s.Valid) (started : s.progress ≠ .none) (e : Event σ) :
    (s.step e).progress ≠ .none := by
  have valid := (h.step e).1
  have next := (h.step e).2
  rw [ne_eq, ← valid.agrees.idle]
  rw [ne_eq, ← h.agrees.idle] at started
  exact fun idle => started (next.idle idle)

theorem Valid.called {s : Session σ} (h : s.Valid) (job : Job σ) :
    (s.step (.call job)).progress ≠ .none := by
  by_cases idle : s.sup.state = .idle
  · rw [Session.step, call_admitted idle]
    simp
  · have started : s.progress ≠ .none := fun none => idle (h.agrees.idle.2 none)
    exact h.busy started _

theorem Valid.started {s : Session σ} (h : s.Valid) {events : List (Event σ)}
    (asked : s.progress ≠ .none ∨ ∃ job, .call job ∈ events) :
    (s.play events).progress ≠ .none := by
  induction events generalizing s with
  | nil => simpa [Session.play] using asked
  | cons e rest ih =>
    refine ih (h.step e).1 ?_
    rcases asked with started | ⟨job, asked⟩
    · exact .inl (h.busy started e)
    · rcases List.mem_cons.1 asked with rfl | later
      · exact .inl (h.called job)
      · exact .inr ⟨job, later⟩

theorem play_append (s : Session σ) (first second : List (Event σ)) :
    s.play (first ++ second) = (s.play first).play second := List.foldl_append

theorem play_turns (sup : Supervisor) (ctx : Context σ) (p : Pool σ) (schedule : List Nat)
    (same : sup.state = p.state) :
    play ⟨sup, .working ctx p⟩ (schedule.map .work) =
      ⟨{ sup with state := (p.turns ctx schedule).state }, .working ctx (p.turns ctx schedule)⟩ := by
  induction schedule generalizing sup p with
  | nil =>
    change _ = (⟨{ sup with state := p.state }, .working ctx p⟩ : Session σ)
    rw [← same]
    rfl
  | cons i rest ih => exact ih { sup with state := (p.step ctx i).state } (p.step ctx i) rfl

theorem proceed_over (sup : Supervisor) (ctx : Context σ) (p : Pool σ)
    (stopped : ∀ w ∈ p.workers, w.IsOver) :
    proceed ⟨sup, .working ctx p⟩ =
      ⟨{ sup with state := p.finish }, .returned p.answer p.shared⟩ := by
  have ended : p.workers.all Worker.isOver = true :=
    List.all_eq_true.2 fun w hw => w.isOver_iff.2 (stopped w hw)
  simp only [proceed, ended, ite_true]

theorem play_run (sup : Supervisor) (ctx : Context σ) (p : Pool σ) (schedule : List Nat)
    (same : sup.state = p.state) :
    ∃ rest, play ⟨sup, .working ctx p⟩ ((schedule ++ rest).map .work ++ [.proceed]) =
      ⟨{ sup with state := (p.run ctx schedule).finish },
        .returned (p.run ctx schedule).answer (p.run ctx schedule).shared⟩ := by
  obtain ⟨⟨rest, turns⟩, stopped⟩ := p.run_turns ctx schedule
  refine ⟨rest, ?_⟩
  rw [turns] at stopped ⊢
  rw [play_append, play_turns sup ctx p _ same]
  exact proceed_over _ ctx _ stopped

theorem play_returned (sup : Supervisor) (answer : Except LintError Output) (shared : Shared σ)
    (schedule : List Nat) :
    play ⟨sup, .returned answer shared⟩ (schedule.map .work ++ [.proceed]) =
      ⟨sup, .returned answer shared⟩ := by
  induction schedule with
  | nil => rfl
  | cons i rest ih => exact ih

end Session

namespace Supervisor

theorem run_idle {sup : Supervisor} (idle : sup.state = .idle) (ctx : Context σ)
    (schedule : List Nat) (shared : Shared σ) :
    let p := (Pool.start sup.workers shared).run ctx schedule
    sup.run ctx schedule shared = (p.answer, { sup with state := p.finish }, p.shared) :=
  if_neg (not_not.2 idle)

theorem runJob_refused {sup : Supervisor} (h : sup.state ≠ .idle) (job : Job σ)
    (schedule : List Nat) : sup.runJob job schedule = (.error spent, sup, job.shared) := if_pos h

theorem runJob_play {sup : Supervisor} (idle : sup.state = .idle) (job : Job σ)
    (schedule : List Nat) :
    let ran := sup.runJob job schedule
    ∃ rest, Session.play ⟨sup, .none⟩
        (.call job :: .proceed :: ((schedule ++ rest).map .work ++ [.proceed])) =
      ⟨ran.2.1, .returned ran.1 ran.2.2⟩ := by
  intro ran
  have admitted : Session.step ⟨sup, .none⟩ (.call job) =
      ⟨{ sup with state := .running }, .admitted job⟩ := by
    rw [Session.step, Session.call_admitted idle]
  change ∃ rest, Session.play ((Session.step ⟨sup, .none⟩ (.call job)).step .proceed) _ = _
  rw [admitted, Session.step, Session.proceed]
  have same : refusal? { sup with state := .running } job = sup.refusal? job := rfl
  simp only [ran, runJob, idle, ne_eq, not_true_eq_false, ite_false, same]
  cases sup.refusal? job with
  | some e => exact ⟨[], Session.play_returned _ _ _ _⟩
  | none =>
    simp only [run_idle idle]
    exact Session.play_run { sup with state := .running } job.ctx _ schedule rfl

theorem runJobs_refused {sup : Supervisor} (h : sup.state ≠ .idle)
    (jobs : List (Job σ × List Nat)) :
    sup.runJobs jobs = (jobs.map fun asked => (.error spent, asked.1.shared), sup) := by
  induction jobs with
  | nil => rfl
  | cons asked rest ih => simp only [runJobs, runJob_refused h, ih, List.map_cons]

end Supervisor

theorem Session.Valid.returns {s : Session σ} (h : s.Valid) (started : s.progress ≠ .none) :
    ∃ more, (∀ job, .call job ∉ more) ∧
      ∃ answer shared, (s.play more).progress = .returned answer shared := by
  have working : ∀ sup ctx (p : Pool σ), sup.state = p.state → ∃ more, (∀ job, .call job ∉ more) ∧
      ∃ answer shared, (Session.play ⟨sup, .working ctx p⟩ more).progress =
        .returned answer shared := by
    intro sup ctx p same
    obtain ⟨rest, ran⟩ := Session.play_run sup ctx p [] same
    exact ⟨_, by simp, _, _, congrArg Session.progress ran⟩
  rcases s with ⟨sup, progress⟩
  rcases progress with _ | job | ⟨ctx, p⟩ | ⟨answer, shared⟩
  · exact absurd rfl started
  · have running : sup.state = .running := h.agrees
    cases refused : sup.refusal? job with
    | some e =>
      refine ⟨[.proceed], by simp, .error e, job.shared, ?_⟩
      simp [Session.play, Session.step, Session.proceed, refused]
    | none =>
      obtain ⟨more, calls, ended⟩ :=
        working sup job.ctx (Pool.start sup.workers job.shared) running
      refine ⟨.proceed :: more, by simpa using calls, ?_⟩
      have begun : Session.step ⟨sup, .admitted job⟩ .proceed =
          ⟨sup, .working job.ctx (Pool.start sup.workers job.shared)⟩ := by
        simp only [Session.step, Session.proceed, refused]
      rw [← begun] at ended
      exact ended
  · exact working sup ctx p (h.told ctx p rfl).1
  · exact ⟨[], by simp, answer, shared, rfl⟩

/-- Whoever calls a supervisor, whenever, and however its workers take their turns, its state goes
from idle over running to one of two ends and stays there, as the one job tells that it takes. A
later run is refused, leaves what its workers would share as it is, and so does it with the state. -/
theorem Supervisor.lifecycle (workers : Nat) :
    (∀ (σ : Type) (events : List (Session.Event σ)),
      let s := (Session.ofCount workers).play events
      ((Session.ofCount workers).states events).IsChain PoolState.Next ∧ s.Agrees ∧
        ((∃ job, .call job ∈ events) → ∀ later,
          s.call later = (some (.error (.poolStart "supervisor has already run")), s)) ∧
        ((∃ job, .call job ∈ events) → ∃ more, (∀ job, .call job ∉ more) ∧
          ∃ answer shared, (s.play more).progress = .returned answer shared)) ∧
    ∀ (σ : Type) (job : Job σ) (schedule : List Nat),
      let ran := (Supervisor.ofCount workers).runJob job schedule
      (∃ rest, (Session.ofCount workers).play
          (.call job :: .proceed :: ((schedule ++ rest).map .work ++ [.proceed])) =
        ⟨ran.2.1, .returned ran.1 ran.2.2⟩) ∧
      (ran.2.1.state = match ran.1 with | .ok _ => .completed | .error _ => .failed) ∧
      (job.refusal = none →
        ran = (Supervisor.ofCount workers).run job.ctx schedule job.shared) ∧
      ∀ later : List (Job σ × List Nat), ran.2.1.runJobs later =
        (later.map fun asked =>
          (.error (.poolStart "supervisor has already run"), asked.1.shared), ran.2.1) := by
  constructor
  · intro σ events s
    have valid := Session.ofCount_valid (σ := σ) workers
    have started : (∃ job, .call job ∈ events) → s.progress ≠ .none := fun asked =>
      valid.started (.inr asked)
    refine ⟨valid.states events, (valid.play events).agrees, fun asked later => ?_, fun asked => ?_⟩
    · refine Session.call_refused ?_ later
      rw [ne_eq, (valid.play events).agrees.idle]
      exact started asked
    · exact (valid.play events).returns (started asked)
  · intro σ job schedule ran
    have idle : (Supervisor.ofCount workers).state = .idle := rfl
    obtain ⟨rest, played⟩ := runJob_play idle job schedule
    have valid := Session.ofCount_valid (σ := σ) workers
    have ended : ran.2.1.state = match ran.1 with | .ok _ => .completed | .error _ => .failed := by
      have told : Session.Agrees ⟨ran.2.1, .returned ran.1 ran.2.2⟩ := by
        rw [← played]
        exact (valid.play _).agrees
      unfold Session.Agrees at told
      cases answer : ran.1 <;> simpa only [answer] using told
    refine ⟨⟨rest, played⟩, ended, fun none => ?_, fun later => ?_⟩
    · simp only [ran, runJob, refusal?, none, Option.map_none, ite_self, ofCount, ne_eq,
        not_true_eq_false, ite_false]
    · refine runJobs_refused ?_ later
      rw [ended]
      split <;> simp

theorem Supervisor.lifecycle_unresolved :
    let job : Job Unit := ⟨.unresolved, ⟨.fresh, ⟨⟨[], [], 0⟩, ()⟩⟩, none⟩
    let s := (Session.ofCount 3).play [.call job, .proceed, .work 1]
    s.sup.state = .running ∧
      (∀ later, s.call later = (some (.error (.poolStart "supervisor has already run")), s)) ∧
      (Supervisor.ofCount 3).runJob job [1, 0, 1] =
        (Supervisor.ofCount 3).run job.ctx [1, 0, 1] job.shared := by
  intro job s
  obtain ⟨sessions, runs⟩ := Supervisor.lifecycle 3
  obtain ⟨-, -, refused, -⟩ := sessions Unit [.call job, .proceed, .work 1]
  exact ⟨rfl, refused ⟨job, by simp⟩, (runs Unit job [1, 0, 1]).2.2.1 rfl⟩

end ParallelLint
