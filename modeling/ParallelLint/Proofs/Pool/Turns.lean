import ParallelLint.Proofs.Pool.Moves

set_option autoImplicit false

/-!
Runs as turns. What the workers do after a schedule has come to its end is a number of turns too, so
that every run is a longer schedule, and at its end all workers are over.
-/
namespace ParallelLint
variable {σ : Type}

namespace Pool

abbrev turns (ctx : Context σ) (p : Pool σ) (schedule : List Nat) : Pool σ :=
  schedule.foldl (Pool.step ctx) p

theorem turns_append (ctx : Context σ) (p : Pool σ) (first second : List Nat) :
    p.turns ctx (first ++ second) = (p.turns ctx first).turns ctx second :=
  List.foldl_append

theorem turns_replicate (ctx : Context σ) (p : Pool σ) (n i : Nat) :
    p.turns ctx (List.replicate (n + 1) i) = (p.step ctx i).turns ctx (List.replicate n i) := rfl

theorem step_at (ctx : Context σ) (p : Pool σ) (w : Worker) (before rest : List Worker) :
    Pool.step ctx { p with workers := before ++ w :: rest } before.length =
      { (p.stepWorker ctx w).1 with workers := before ++ (p.stepWorker ctx w).2 :: rest } := by
  have found : (before ++ w :: rest)[before.length]? = some w := by simp
  simp only [step, found, stepWorker_among]
  congr 1
  simp

theorem step_cases (ctx : Context σ) (p : Pool σ) (i : Nat) :
    (p.workers[i]? = none ∧ p.step ctx i = p) ∨
      ∃ before w rest, p.workers[i]? = some w ∧ p.workers = before ++ w :: rest ∧
        p.step ctx i =
          { (p.stepWorker ctx w).1 with workers := before ++ (p.stepWorker ctx w).2 :: rest } := by
  cases found : p.workers[i]? with
  | none => exact .inl ⟨rfl, by simp only [step, found]⟩
  | some w =>
    obtain ⟨workers, changed⟩ := split_at found (p.stepWorker ctx w).2
    refine .inr ⟨_, w, _, rfl, workers, ?_⟩
    simp only [step, found, stepWorker_workers, changed]

theorem workerRun_turns (ctx : Context σ) (s : Shared σ) (w : Worker) (p : Pool σ)
    (before rest : List Worker) :
    ∃ n, turns ctx { p with shared := s, workers := before ++ w :: rest }
        (List.replicate n before.length) =
      { p with shared := (w.run ctx s).1, workers := before ++ (w.run ctx s).2 :: rest } := by
  induction s, w using Worker.run.induct ctx with
  | case1 s w active ih =>
    obtain ⟨n, ran⟩ := ih
    have turn := step_at ctx { p with shared := s } w before rest
    rw [stepWorker_active active] at turn
    refine ⟨n + 1, ?_⟩
    rw [turns_replicate, turn, Worker.run, dif_pos active]
    exact ran
  | case2 s w idle => exact ⟨0, by rw [Worker.run, dif_neg idle]; rfl⟩

theorem runWorker_turns (ctx : Context σ) (p : Pool σ) (w : Worker) (before rest : List Worker) :
    ∃ n, turns ctx { p with workers := before ++ w :: rest } (List.replicate n before.length) =
      { (p.runWorker ctx w).1 with workers := before ++ (p.runWorker ctx w).2 :: rest } := by
  obtain ⟨n, ran⟩ := workerRun_turns ctx p.shared w p before rest
  refine ⟨n + 3, ?_⟩
  rw [← List.replicate_append_replicate, turns_append]
  have first : turns ctx { p with workers := before ++ w :: rest }
      (List.replicate n before.length) =
        { p with shared := (w.run ctx p.shared).1,
                 workers := before ++ (w.run ctx p.shared).2 :: rest } := ran
  -- what is left are the turns in which a breakdown is marked, stops the others and is reported
  rw [first]
  simp only [turns_replicate, List.replicate_zero, List.foldl_nil]
  rw [step_at ctx { p with shared := (w.run ctx p.shared).1 }, step_at, step_at]
  rfl

theorem runFrom_turns (ctx : Context σ) (p : Pool σ) (before rest : List Worker)
    (workers : p.workers = before ++ rest) (stopped : ∀ w ∈ before, w.IsOver) :
    (∃ schedule, p.runFrom ctx before.length rest = p.turns ctx schedule) ∧
      ∀ w ∈ (p.runFrom ctx before.length rest).workers, w.IsOver := by
  induction rest generalizing p before with
  | nil => exact ⟨⟨[], rfl⟩, by simpa [runFrom, workers] using stopped⟩
  | cons w rest ih =>
    obtain ⟨n, ran⟩ := runWorker_turns ctx p w before rest
    rw [← workers] at ran
    let p' : Pool σ :=
      { (p.runWorker ctx w).1 with workers := before ++ (p.runWorker ctx w).2 :: rest }
    have changed : (p.runWorker ctx w).1.workers.set before.length (p.runWorker ctx w).2 =
        before ++ (p.runWorker ctx w).2 :: rest := by
      simp [runWorker_workers, workers]
    obtain ⟨⟨schedule, later⟩, ended⟩ := ih p' (before ++ [(p.runWorker ctx w).2]) (by simp [p'])
      (by
        intro v hv
        rcases List.mem_append.1 hv with hv | hv
        · exact stopped v hv
        · rw [List.mem_singleton.1 hv]
          exact runWorker_over ctx p w)
    rw [List.length_append, List.length_singleton] at later ended
    simp only [runFrom, changed]
    refine ⟨⟨List.replicate n before.length ++ schedule, ?_⟩, ended⟩
    rw [turns_append, ran]
    exact later

/-- A run is a longer schedule at whose end all workers are over. -/
theorem run_turns (ctx : Context σ) (p : Pool σ) (schedule : List Nat) :
    (∃ rest, p.run ctx schedule = p.turns ctx (schedule ++ rest)) ∧
      ∀ w ∈ (p.run ctx schedule).workers, w.IsOver := by
  obtain ⟨⟨rest, later⟩, ended⟩ := runFrom_turns ctx (p.turns ctx schedule) [] _ rfl (by simp)
  exact ⟨⟨rest, by rw [turns_append]; exact later⟩, ended⟩

end Pool
end ParallelLint
