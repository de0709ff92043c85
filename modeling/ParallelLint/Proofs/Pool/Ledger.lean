import ParallelLint.Proofs.Pool.Claims

set_option autoImplicit false

/-!
The log of a run as a ledger of its tasks. At every moment the tasks in the log and those in the
hands of workers are the ones that have been claimed, so that in the end each task is in the log
once.
-/
namespace ParallelLint.Pool
variable {σ : Type} {ctx : Context σ} {world : World σ} {p p' : Pool σ} {log : List Task}
  {claims : List (Worker × List Task)} {taken : Nat}

/-- What holds at every moment of a run, and that the log has every claimed task but for those that
workers hold. -/
structure Ledger (ctx : Context σ) (world : World σ) (p : Pool σ) (log : List Task)
    (claims : List (Worker × List Task)) (taken : Nat) : Prop where
  sound : Sound ctx world p log claims taken
  entered : (log ++ p.workers.flatMap Worker.inHand).Perm (ctx.tasks.take taken)

theorem start_ledger (ctx : Context σ) (world : World σ) (workers : Nat) :
    Ledger ctx world (Pool.start workers ⟨.fresh, world⟩) []
      (((List.range workers).map Worker.fresh).map fun w => (w, [])) 0 where
  sound := start_sound ctx world workers
  entered := by
    have idle : ((List.range workers).map Worker.fresh).flatMap Worker.inHand = [] := by
      simp [List.flatMap_map, Worker.inHand, Worker.fresh]
    change ([] ++ _ : List Task).Perm _
    rw [Pool.start, idle]
    exact .refl _

/-- A task that leaves the hand of a worker goes to the log, and one that comes there is the next of
the list. -/
theorem Move.enters {before rest : List Worker} {w w' : Worker} (move : Move ctx p w p' w')
    (workers : p.workers = before ++ w :: rest)
    (next : p.shared.cursor.next < ctx.count → p.shared.cursor.next.toNat = taken)
    (entered : (log ++ p.workers.flatMap Worker.inHand).Perm (ctx.tasks.take taken)) :
    ((log ++ w.inHand) ++ (before ++ w' :: rest).flatMap Worker.inHand).Perm
      (ctx.tasks.take
        (if w.phase = .ready ∧ p.shared.cursor.next < ctx.count then taken + 1 else taken)) := by
  rw [workers] at entered
  simp only [List.flatMap_append, List.flatMap_cons] at entered ⊢
  have moved : ((log ++ w.inHand) ++
      (before.flatMap Worker.inHand ++ ([] ++ rest.flatMap Worker.inHand))).Perm
      (ctx.tasks.take taken) := by
    refine List.Perm.trans ?_ entered
    rw [List.append_assoc, List.nil_append]
    refine List.Perm.append_left log ?_
    rw [← List.append_assoc, ← List.append_assoc]
    exact List.perm_append_comm.append_right _
  -- only a claim brings a task, all other steps move one to the log or none
  cases move with
  | @claim task ready below found =>
    rw [next below] at found
    have none : w.inHand = [] := by simp [Worker.inHand, ready]
    rw [none, List.append_nil, ← List.append_assoc] at moved
    rw [if_pos ⟨ready, below⟩, none, List.append_nil, ← List.append_assoc]
    exact take_succ_perm moved found
  | leave ready beyond =>
    rw [if_neg fun both => UInt64.not_lt.2 beyond both.2]
    exact moved
  | finish holding answer | breakDown holding answer =>
    rw [if_neg fun both => by simp [holding] at both]
    exact moved
  | mark broken =>
    rw [if_neg fun both => by simp [broken] at both]
    exact moved
  | exhaust failing =>
    rw [if_neg fun both => by simp [failing] at both]
    exact moved
  | report stopping =>
    rw [if_neg fun both => by simp [stopping] at both]
    exact moved

theorem Ledger.step (h : Ledger ctx world p log claims taken)
    (room : ctx.tasks.length + p.workers.length < UInt64.size) (step : Step ctx p p') :
    ∃ log' claims' taken', Ledger ctx world p' log' claims' taken' := by
  have countable : ctx.Countable := by unfold Context.Countable; omega
  obtain ⟨workers, move⟩ := step
  have next := h.sound.counted.next_eq countable
  have counted := h.sound.counted.move room workers move
  obtain ⟨front, tasks, back, tasks', -, -, shares⟩ := h.sound.shares.move next workers move
  exact ⟨_, _, _, ⟨shares, counted⟩, move.enters workers next h.entered⟩

theorem Ledger.reaches (h : Ledger ctx world p log claims taken)
    (room : ctx.tasks.length + p.workers.length < UInt64.size) (reaches : Reaches ctx p p') :
    ∃ log' claims' taken', Ledger ctx world p' log' claims' taken' := by
  induction reaches with
  | refl => exact ⟨log, claims, taken, h⟩
  | tail before step ih =>
    obtain ⟨log', claims', taken', ledger⟩ := ih
    exact ledger.step (by rwa [reaches_length before]) step

theorem Ledger.complete (h : Ledger ctx world p log claims taken) (some : p.workers ≠ [])
    (done : ∀ w ∈ p.workers, w.phase = .done) : log.Perm ctx.tasks := by
  have idle : p.workers.flatMap Worker.inHand = [] :=
    List.flatMap_eq_nil_iff.2 fun w hw => by simp [Worker.inHand, done w hw]
  have all := (h.sound.complete some done).1.length_eq
  have claimed := h.sound.shares.first.length_eq
  have entered := h.entered
  rw [idle, List.append_nil] at entered
  have whole : ctx.tasks.take taken = ctx.tasks := by
    rw [List.length_take] at claimed
    exact List.take_of_length_le (by omega)
  rwa [whole] at entered

end ParallelLint.Pool
