import ParallelLint.Proofs.Pool.Schedule
import ParallelLint.Proofs.Pool.Turns

set_option autoImplicit false

namespace ParallelLint
variable {σ : Type}

/-- What the next step of a worker does to the cursor. -/
def Worker.use? (ctx : Context σ) (w : Worker) : Option Cursor.Use :=
  match w.phase with
  | .ready => some .claim
  | .failing _ => some (.exhaust ctx.count)
  | .holding _ | .broken _ | .stopping _ | .done | .failed => none

namespace Pool

def use? (ctx : Context σ) (p : Pool σ) (i : Nat) : Option Cursor.Use :=
  p.workers[i]?.bind (Worker.use? ctx)

/-- All that is done to the cursor in the turns of a schedule, in its order. -/
def uses (ctx : Context σ) (p : Pool σ) : List Nat → List Cursor.Use
  | [] => []
  | i :: rest => (p.use? ctx i).toList ++ uses ctx (p.step ctx i) rest

theorem stepWorker_cursor (ctx : Context σ) (p : Pool σ) (w : Worker) :
    (p.stepWorker ctx w).1.shared.cursor = p.shared.cursor.after (w.use? ctx).toList := by
  cases h : w.phase with
  | ready => simp only [stepWorker, Worker.step, Worker.use?, h]; rfl
  | holding task =>
    simp only [stepWorker, Worker.step, Worker.use?, h, Worker.work]
    rcases ctx.process task p.shared.world with ⟨result, world⟩
    cases result <;> rfl
  | broken | failing | stopping | done | failed =>
    simp only [stepWorker, Worker.step, Worker.use?, h]
    rfl

theorem step_cursor (ctx : Context σ) (p : Pool σ) (i : Nat) :
    (p.step ctx i).shared.cursor = p.shared.cursor.after (p.use? ctx i).toList := by
  unfold step use?
  cases p.workers[i]? with
  | none => rfl
  | some w => exact stepWorker_cursor ctx p w

theorem turns_cursor (ctx : Context σ) (p : Pool σ) (schedule : List Nat) :
    (p.turns ctx schedule).shared.cursor = p.shared.cursor.after (p.uses ctx schedule) := by
  induction schedule generalizing p with
  | nil => rfl
  | cons i rest ih =>
    rw [uses, Cursor.after_append, ← step_cursor]
    exact ih (p.step ctx i)

theorem reaches_exhausted {ctx : Context σ} {p q : Pool σ} (reaches : Reaches ctx p q)
    (h : p.workers.any hasExhausted = true) : q.workers.any hasExhausted = true := by
  induction reaches with
  | refl => exact h
  | tail _ step ih => exact step.hasExhausted ih

theorem exhausting {ctx : Context σ} {p : Pool σ} {i : Nat} {count : UInt64}
    (h : p.use? ctx i = some (.exhaust count)) :
    (p.step ctx i).workers.any hasExhausted = true := by
  obtain ⟨w, found, use⟩ := Option.bind_eq_some_iff.1 h
  obtain ⟨inside, -⟩ := List.getElem?_eq_some_iff.1 found
  cases phase : w.phase with
  | ready | holding | broken | stopping | done | failed => simp [Worker.use?, phase] at use
  | failing cause =>
    refine List.any_eq_true.2 ⟨{ w with phase := .stopping cause }, ?_, rfl⟩
    simp only [step, found, stepWorker, phase, exhaust]
    exact List.mem_set inside _

/-- When nobody has exhausted the cursor in the end, nothing has been done to it but claims. -/
theorem uses_claims {ctx : Context σ} (countable : ctx.Countable) (p : Pool σ) (schedule : List Nat)
    (none : (p.turns ctx schedule).workers.any hasExhausted = false) :
    ∀ use ∈ p.uses ctx schedule, use = .claim := by
  induction schedule generalizing p with
  | nil => simp [uses]
  | cons i rest ih =>
    intro use h
    rcases List.mem_append.1 h with now | later
    · cases use with
      | claim => rfl
      | exhaust count =>
        have stopped := exhausting (Option.mem_toList.1 now)
        have still := reaches_exhausted (steps_reach countable rest _) stopped
        exact absurd still (by simpa using none)
    · exact ih _ none use later

theorem claiming {ctx : Context σ} {world : World σ} {p : Pool σ} {log : List Task}
    {claims : List (Worker × List Task)} {taken : Nat} (h : Sound ctx world p log claims taken)
    (room : ctx.tasks.length + p.workers.length < UInt64.size) {i : Nat}
    (claim : p.use? ctx i = some .claim) :
    (p.step ctx i).shared.cursor.position = p.shared.cursor.position + 1 := by
  obtain ⟨w, found, use⟩ := Option.bind_eq_some_iff.1 claim
  rw [step_cursor, claim]
  cases phase : w.phase with
  | holding | broken | failing | stopping | done | failed => simp [Worker.use?, phase] at use
  | ready =>
    have others := leavers_lt (split_at found w).1 (by simp [phase])
    exact h.counted.claimed_next room others

theorem uses_position {ctx : Context σ} {world : World σ} {p : Pool σ} {log : List Task}
    {claims : List (Worker × List Task)} {taken : Nat} (h : Sound ctx world p log claims taken)
    (room : ctx.tasks.length + p.workers.length < UInt64.size) (schedule : List Nat)
    (only : ∀ use ∈ p.uses ctx schedule, use = .claim) :
    (p.turns ctx schedule).shared.cursor.position =
      p.shared.cursor.position + (p.uses ctx schedule).length := by
  have countable : ctx.Countable := by unfold Context.Countable; omega
  induction schedule generalizing p log claims taken with
  | nil => rfl
  | cons i rest ih =>
    have reached := step_reaches countable p i
    obtain ⟨log', claims', taken', sound⟩ := h.reaches room reached
    have later := ih sound (by rwa [reaches_length reached]) fun use h =>
      only use (List.mem_append_right _ h)
    rw [uses, List.length_append]
    cases now : p.use? ctx i with
    | none =>
      have still : (p.step ctx i).shared.cursor = p.shared.cursor := by rw [step_cursor, now]; rfl
      rw [still] at later
      simpa using later
    | some use =>
      obtain rfl := only use (List.mem_append_left _ (Option.mem_toList.2 now))
      rw [claiming h room now] at later
      simp only [Option.toList_some, List.length_singleton]
      exact later.trans (Nat.add_assoc _ _ _)

theorem Sound.position {ctx : Context σ} {world : World σ} {p : Pool σ} {log : List Task}
    {claims : List (Worker × List Task)} {taken : Nat} (h : Sound ctx world p log claims taken)
    (some : p.workers ≠ []) (done : ∀ w ∈ p.workers, w.phase = .done) :
    p.shared.cursor.position = ctx.tasks.length + p.workers.length := by
  have all : p.leavers = p.workers.length :=
    List.countP_eq_length.2 fun w hw => decide_eq_true (done w hw)
  have positive := List.length_pos_iff.2 some
  obtain ⟨next, last⟩ := h.counted.exact (done_running done)
  rw [last (by omega), all] at next
  exact next

theorem run_numbers {ctx : Context σ} (world : World σ) {workers : Nat} (some : 0 < workers)
    (room : ctx.tasks.length + workers < UInt64.size) (schedule : List Nat) :
    let start := Pool.start workers ⟨.fresh, world⟩
    let ran := start.run ctx schedule
    ran.firstError = none → ∃ rest, ran = start.turns ctx (schedule ++ rest) ∧
      (Cursor.fresh.taken (start.uses ctx (schedule ++ rest))).map UInt64.toNat =
        List.range (ctx.tasks.length + workers) ∧
      ran.shared.cursor.position = ctx.tasks.length + workers := by
  intro start ran none
  have countable : ctx.Countable := by unfold Context.Countable; omega
  have size : ctx.tasks.length + start.workers.length < UInt64.size := by rwa [start_length]
  obtain ⟨⟨rest, turns⟩, stopped⟩ := run_turns ctx start schedule
  have reached : Reaches ctx start ran := (run_reaches countable schedule start).1
  have sound := start_sound ctx world workers
  obtain ⟨log, claims, taken, ended⟩ := sound.reaches size reached
  have done := ((start_reported ctx workers ⟨.fresh, world⟩).reaches reached).done stopped none
  have length : ran.workers.length = workers := by rw [reaches_length reached, start_length]
  have position := ended.position (List.ne_nil_of_length_pos (by omega)) done
  rw [length] at position
  have only : ∀ use ∈ start.uses ctx (schedule ++ rest), use = .claim :=
    uses_claims countable start _ (by rw [← turns]; exact done_running done)
  have moved := uses_position sound size _ only
  rw [← turns] at moved
  have many : (start.uses ctx (schedule ++ rest)).length = ctx.tasks.length + workers := by
    calc (start.uses ctx (schedule ++ rest)).length
        = 0 + (start.uses ctx (schedule ++ rest)).length := (Nat.zero_add _).symm
      _ = ran.shared.cursor.position := moved.symm
      _ = ctx.tasks.length + workers := position
  have fits : Cursor.Use.Fits (start.uses ctx (schedule ++ rest)) := by
    unfold Cursor.Use.Fits
    rw [Cursor.Use.claims_length only, Cursor.Use.largest_claims only]
    omega
  refine ⟨rest, turns, ?_, position⟩
  rw [(Cursor.fresh_room fits).taken_claims only, many, List.range_eq_range']
  rfl

end Pool

theorem Supervisor.run_ok {workers : Nat} {ctx : Context σ} {schedule : List Nat}
    {shared : Shared σ} {output : Output} :
    ((Supervisor.ofCount workers).run ctx schedule shared).1 = .ok output ↔
      ((Pool.start (max workers 1) shared).run ctx schedule).firstError = none ∧
        ((Pool.start (max workers 1) shared).run ctx schedule).output = output := by
  simp only [Supervisor.run, Supervisor.ofCount, ne_eq, not_true_eq_false, ite_false]
  cases ((Pool.start (max workers 1) shared).run ctx schedule).firstError <;> simp

theorem filter_range_add (count more : Nat) :
    (List.range (count + more)).filter (· < count) = List.range count := by
  rw [List.range_add, List.filter_append, List.filter_eq_self.2, List.filter_eq_nil_iff.2,
    List.append_nil]
  · simp
  · simp

/-- Whatever is done to a fresh cursor in which it does not wrap around, it never goes back and
every claim takes a number above all earlier ones. A run in which nothing fails claims the number of
every task once, and leaves the cursor behind them by the number of its workers. -/
theorem Cursor.claims_in_order :
    (∀ uses : List Cursor.Use, Cursor.Use.Fits uses →
      (Cursor.fresh.taken uses).Pairwise (· < ·) ∧
      (∀ before more rest, uses = before ++ more ++ rest →
        (Cursor.fresh.after before).position ≤ (Cursor.fresh.after (before ++ more)).position) ∧
      (∀ before count rest, uses = before ++ .exhaust count :: rest →
        ∀ number ∈ (Cursor.fresh.taken uses).drop (Cursor.Use.claims before), count ≤ number) ∧
      (∀ before more rest count, uses = before ++ more ++ rest →
        (Cursor.fresh.after before).isExhausted count = true →
          (Cursor.fresh.after (before ++ more)).isExhausted count = true) ∧
      ((∀ use ∈ uses, use = .claim) →
        (Cursor.fresh.taken uses).map UInt64.toNat = List.range uses.length)) ∧
    ∀ (σ : Type) (ctx : Context σ) (world : World σ) (workers : Nat) (schedule : List Nat)
      (output : Output),
      let start := Pool.start (max workers 1) ⟨.fresh, world⟩
      let result := (Supervisor.ofCount workers).run ctx schedule ⟨.fresh, world⟩
      ctx.tasks.length + max workers 1 < UInt64.size → result.1 = .ok output →
        ∃ rest, start.run ctx schedule = start.turns ctx (schedule ++ rest) ∧
          result.2.2.cursor = Cursor.fresh.after (start.uses ctx (schedule ++ rest)) ∧
          ((Cursor.fresh.taken (start.uses ctx (schedule ++ rest))).map UInt64.toNat).filter
            (· < ctx.tasks.length) = List.range ctx.tasks.length ∧
          result.2.2.cursor.position = ctx.tasks.length + max workers 1 := by
  constructor
  · intro uses fits
    have room := Cursor.fresh_room fits
    have forward : ∀ before more rest, uses = before ++ more ++ rest →
        (Cursor.fresh.after before).position ≤ (Cursor.fresh.after (before ++ more)).position := by
      rintro before more rest rfl
      rw [Cursor.after_append]
      exact room.front.later.position_le
    refine ⟨room.taken_increasing, forward, ?_, ?_, fun only => ?_⟩
    · -- what is taken after the cursor was exhausted lies above the place that it was moved to
      rintro before count rest rfl number later
      rw [Cursor.taken_append, ← Cursor.taken_length .fresh, List.drop_left] at later
      have above := room.later.exhaust.taken_ge number later
      rw [Cursor.exhaust_position] at above
      exact UInt64.le_iff_toNat_le.2 (Nat.le_trans (Nat.le_max_right _ _) above)
    · intro before more rest count same held
      rw [Cursor.isExhausted_iff] at held ⊢
      exact Nat.le_trans held (forward before more rest same)
    · rw [room.taken_claims only, List.range_eq_range']
      rfl
  · intro σ ctx world workers schedule output start result room ok
    obtain ⟨none, -⟩ := Supervisor.run_ok.1 ok
    obtain ⟨rest, turns, numbers, position⟩ :=
      Pool.run_numbers world (by omega) room schedule none
    have ended : result.2.2 = (start.run ctx schedule).shared := rfl
    refine ⟨rest, turns, ?_, ?_, by rwa [ended]⟩
    · rw [ended, turns, Pool.turns_cursor]
      rfl
    · rw [numbers, filter_range_add]

theorem Cursor.claims_in_order_missing :
    let uses : List Cursor.Use := [.claim, .exhaust 10, .claim, .exhaust 3, .claim]
    let ctx := Context.missing
    let world : World Unit := ⟨⟨[], [], 0⟩, ()⟩
    Cursor.Use.Fits uses ∧ Cursor.fresh.taken uses = [0, 10, 11] ∧
      (Cursor.fresh.taken uses).Pairwise (· < ·) ∧
      (∃ output, ((Supervisor.ofCount 3).run ctx [1, 0, 1] ⟨.fresh, world⟩).1 = .ok output) ∧
      ((Supervisor.ofCount 3).run ctx [1, 0, 1] ⟨.fresh, world⟩).2.2.cursor.position = 5 := by
  intro uses ctx world
  have fits : Cursor.Use.Fits uses := by unfold Cursor.Use.Fits; decide
  have quiet : ctx.analyzer.Quiet := fun _ _ => rfl
  have answers := @Context.steady_done _ ctx world quiet (fun _ _ _ _ => rfl)
    fun t _ => Context.process_answered (fun _ _ => ⟨_, rfl⟩) fun _ => ⟨_, rfl⟩
  obtain ⟨none, -⟩ := Pool.run_output 3 (by decide) (by decide) answers [1, 0, 1]
  have ok := (@Supervisor.run_ok _ 3 ctx [1, 0, 1] _ _).2 ⟨none, rfl⟩
  obtain ⟨-, -, -, -, position⟩ :=
    Cursor.claims_in_order.2 Unit ctx world 3 [1, 0, 1] _ (by decide) ok
  exact ⟨fits, rfl, (Cursor.claims_in_order.1 uses fits).1, ⟨_, ok⟩, position⟩

end ParallelLint
