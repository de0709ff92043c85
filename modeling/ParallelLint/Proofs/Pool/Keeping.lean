import ParallelLint.Dispatch.Supervisor

set_option autoImplicit false

namespace ParallelLint
variable {σ : Type} {ctx : Context σ} {kept : World σ → Prop} {gave : Outcome → Prop}

/-- A worker has only outcomes of some kind, and works only on tasks of the run. -/
structure Worker.Within (ctx : Context σ) (gave : Outcome → Prop) (w : Worker) : Prop where
  holding : ∀ task, w.phase = .holding task → task ∈ ctx.tasks
  batch : ∀ outcome ∈ w.batch, gave outcome

/-- A pool with a world and with workers of some kind. -/
structure Pool.Within (ctx : Context σ) (kept : World σ → Prop) (gave : Outcome → Prop)
    (p : Pool σ) : Prop where
  world : kept p.shared.world
  workers : ∀ w ∈ p.workers, w.Within ctx gave

section
variable (process : ∀ task ∈ ctx.tasks, ∀ world, kept world → kept (ctx.process task world).2 ∧
  ∀ outcome stats, (ctx.process task world).1 = .ok (outcome, stats) → gave outcome)
include process

theorem Worker.step_keeps (s : Shared σ) (w : Worker) (h : kept s.world)
    (within : w.Within ctx gave) :
    kept (w.step ctx s).1.world ∧ (w.step ctx s).2.Within ctx gave := by
  unfold step
  split
  · refine ⟨h, fun task held => ?_, within.batch⟩
    simp only [take] at held
    split at held
    · cases found : ctx.tasks[s.cursor.claim.1.toNat]? with
      | none => simp [found] at held
      | some next =>
        rw [found] at held
        cases held
        exact List.mem_of_getElem? found
    · cases held
  · rename_i task holding
    obtain ⟨next, gives⟩ := process task (within.holding task holding) s.world h
    unfold work
    split <;> rename_i answer <;> rw [answer] at next gives
    · refine ⟨next, by rintro _ ⟨⟩, fun outcome mem => ?_⟩
      rcases List.mem_cons.1 mem with rfl | mem
      · exact gives _ _ rfl
      · exact within.batch _ mem
    · exact ⟨next, by rintro _ ⟨⟩, within.batch⟩
  all_goals exact ⟨h, within⟩

theorem Worker.run_keeps (s : Shared σ) (w : Worker) (h : kept s.world)
    (within : w.Within ctx gave) :
    kept (w.run ctx s).1.world ∧ (w.run ctx s).2.Within ctx gave := by
  induction s, w using Worker.run.induct ctx with
  | case1 s w active ih =>
    rw [run, dif_pos active]
    obtain ⟨next, within⟩ := step_keeps process s w h within
    exact ih next within
  | case2 s w idle =>
    rw [run, dif_neg idle]
    exact ⟨h, within⟩

namespace Pool

theorem stepWorker_keeps (p : Pool σ) (w : Worker) (h : p.Within ctx kept gave)
    (within : w.Within ctx gave) :
    (p.stepWorker ctx w).1.Within ctx kept gave ∧ (p.stepWorker ctx w).2.Within ctx gave := by
  unfold stepWorker
  split
  · exact ⟨⟨h.world, h.workers⟩, by rintro _ ⟨⟩, within.batch⟩
  · exact ⟨⟨h.world, h.workers⟩, by rintro _ ⟨⟩, within.batch⟩
  · exact ⟨⟨h.world, h.workers⟩, by rintro _ ⟨⟩, within.batch⟩
  · obtain ⟨next, within⟩ := Worker.step_keeps process p.shared w h.world within
    exact ⟨⟨next, h.workers⟩, within⟩

omit process in
theorem Within.set {p : Pool σ} (h : p.Within ctx kept gave) {w : Worker}
    (within : w.Within ctx gave) (i : Nat) :
    ({ p with workers := p.workers.set i w } : Pool σ).Within ctx kept gave := by
  refine ⟨h.world, fun v hv => ?_⟩
  rcases List.mem_or_eq_of_mem_set hv with hv | rfl
  · exact h.workers v hv
  · exact within

theorem step_keeps (p : Pool σ) (i : Nat) (h : p.Within ctx kept gave) :
    (p.step ctx i).Within ctx kept gave := by
  unfold step
  split
  · rename_i w found
    obtain ⟨next, within⟩ := stepWorker_keeps process p w h (h.workers w (List.mem_of_getElem? found))
    exact next.set within i
  · exact h

theorem steps_keep (schedule : List Nat) (p : Pool σ) (h : p.Within ctx kept gave) :
    (schedule.foldl (Pool.step ctx) p).Within ctx kept gave := by
  induction schedule generalizing p with
  | nil => exact h
  | cons i rest ih => exact ih _ (step_keeps process p i h)

theorem runWorker_keeps (p : Pool σ) (w : Worker) (h : p.Within ctx kept gave)
    (within : w.Within ctx gave) :
    (p.runWorker ctx w).1.Within ctx kept gave ∧ (p.runWorker ctx w).2.Within ctx gave := by
  obtain ⟨ran, ended⟩ := Worker.run_keeps process p.shared w h.world within
  have marked := stepWorker_keeps process { p with shared := (w.run ctx p.shared).1 }
    (w.run ctx p.shared).2 ⟨ran, h.workers⟩ ended
  have exhausted := stepWorker_keeps process _ _ marked.1 marked.2
  exact stepWorker_keeps process _ _ exhausted.1 exhausted.2

theorem runFrom_keeps (p : Pool σ) (i : Nat) (workers : List Worker) (h : p.Within ctx kept gave)
    (within : ∀ w ∈ workers, w.Within ctx gave) :
    (p.runFrom ctx i workers).Within ctx kept gave := by
  induction workers generalizing p i with
  | nil => exact h
  | cons w rest ih =>
    obtain ⟨next, ended⟩ := runWorker_keeps process p w h (within w (List.mem_cons_self ..))
    exact ih _ _ (next.set ended i) fun v hv => within v (List.mem_cons_of_mem _ hv)

/-- A run keeps what processing any of its tasks keeps. -/
theorem run_keeps (schedule : List Nat) (workers : Nat) {world : World σ} (start : kept world) :
    ((Pool.start workers ⟨.fresh, world⟩).run ctx schedule).Within ctx kept gave := by
  have fresh : (Pool.start workers ⟨.fresh, world⟩).Within ctx kept gave := by
    refine ⟨start, fun w hw => ?_⟩
    obtain ⟨id, -, rfl⟩ := List.mem_map.1 hw
    exact ⟨by rintro _ ⟨⟩, by rintro _ ⟨⟩⟩
  have stepped := steps_keep process schedule _ fresh
  exact runFrom_keeps process _ _ _ stepped stepped.workers

end Pool
end

theorem Pool.Within.output {p : Pool σ} (h : p.Within ctx kept gave) :
    ∀ outcome ∈ p.output.outcomes, gave outcome := by
  intro outcome mem
  obtain ⟨report, reported, mem⟩ := List.mem_flatMap.1 mem
  obtain ⟨w, hw, rfl⟩ := List.mem_map.1 reported
  exact (h.workers w (List.mem_filter.1 hw).1).batch _ (List.mem_reverse.1 mem)

end ParallelLint
