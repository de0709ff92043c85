import ParallelLint.Proofs.Dispatch.Steady
import ParallelLint.Proofs.Pool.Cursor
import ParallelLint.Proofs.Pool.Moves

set_option autoImplicit false

/-!
Which worker has which task. At every moment of a run the tasks that the workers have claimed are
the first ones of the list, each claimed once, and the answers that the workers keep are those that
processing the tasks gave, in the order of a log.
-/
namespace ParallelLint
variable {σ : Type}

abbrev Answer := Except Breakdown (Outcome × Stats)

namespace Context

/-- What a task of the log was answered when its turn came. -/
def Gave (ctx : Context σ) (world : World σ) (log : List Task) (task : Task) (answer : Answer) :
    Prop :=
  ∃ earlier later, log = earlier ++ task :: later ∧
    (ctx.process task (ctx.after world earlier)).1 = answer

theorem Gave.append {ctx : Context σ} {world : World σ} {log : List Task} {task : Task}
    {answer : Answer} (h : ctx.Gave world log task answer) (more : List Task) :
    ctx.Gave world (log ++ more) task answer := by
  obtain ⟨earlier, later, rfl, same⟩ := h
  exact ⟨earlier, later ++ more, by simp, same⟩

theorem gave_last (ctx : Context σ) (world : World σ) (log : List Task) (task : Task) :
    ctx.Gave world (log ++ [task]) task (ctx.process task (ctx.after world log)).1 :=
  ⟨log, [], rfl, rfl⟩

end Context

/-- The outcomes and the counts of finished tasks, the last one first. -/
inductive Finished (gave : Task → Answer → Prop) : List Task → List Outcome → Stats → Prop where
  | nil : Finished gave [] [] .zero
  | cons {task : Task} {outcome : Outcome} {stats sum : Stats} {tasks : List Task}
      {outcomes : List Outcome} (answer : gave task (.ok (outcome, stats)))
      (rest : Finished gave tasks outcomes sum) :
      Finished gave (task :: tasks) (outcome :: outcomes) (sum.add stats)

/-- The task that a worker in some phase has claimed and not finished. -/
inductive Unfinished (gave : Task → Answer → Prop) : Phase → List Task → Prop where
  | ready : Unfinished gave .ready []
  | done : Unfinished gave .done []
  | holding (task : Task) : Unfinished gave (.holding task) [task]
  | broken {task : Task} {cause : Breakdown} (answer : gave task (.error cause)) :
      Unfinished gave (.broken cause) [task]
  | failing {task : Task} {cause : Breakdown} (answer : gave task (.error cause)) :
      Unfinished gave (.failing cause) [task]
  | stopping {task : Task} {cause : Breakdown} (answer : gave task (.error cause)) :
      Unfinished gave (.stopping cause) [task]
  | failed {task : Task} {cause : Breakdown} (answer : gave task (.error cause)) :
      Unfinished gave .failed [task]

/-- The worker has claimed these tasks, the last one first. -/
def Worker.Claims (gave : Task → Answer → Prop) (w : Worker) (tasks : List Task) : Prop :=
  ∃ pending finished, tasks = pending ++ finished ∧ Unfinished gave w.phase pending ∧
    Finished gave finished w.batch w.stats

theorem Finished.mono {gave more : Task → Answer → Prop} (h : ∀ t a, gave t a → more t a)
    {tasks : List Task} {outcomes : List Outcome} {sum : Stats}
    (f : Finished gave tasks outcomes sum) : Finished more tasks outcomes sum := by
  induction f with
  | nil => exact .nil
  | cons answer _ ih => exact .cons (h _ _ answer) ih

theorem Unfinished.mono {gave more : Task → Answer → Prop} (h : ∀ t a, gave t a → more t a)
    {phase : Phase} {tasks : List Task} (u : Unfinished gave phase tasks) :
    Unfinished more phase tasks := by
  cases u with
  | ready => exact .ready
  | done => exact .done
  | holding task => exact .holding task
  | broken answer => exact .broken (h _ _ answer)
  | failing answer => exact .failing (h _ _ answer)
  | stopping answer => exact .stopping (h _ _ answer)
  | failed answer => exact .failed (h _ _ answer)

theorem Worker.Claims.mono {gave more : Task → Answer → Prop} (h : ∀ t a, gave t a → more t a)
    {w : Worker} {tasks : List Task} (c : w.Claims gave tasks) : w.Claims more tasks := by
  obtain ⟨pending, finished, same, u, f⟩ := c
  exact ⟨pending, finished, same, u.mono h, f.mono h⟩

namespace Worker.Claims
variable {gave : Task → Answer → Prop} {w : Worker} {tasks : List Task}

theorem claim (c : w.Claims gave tasks) (ready : w.phase = .ready) (task : Task) :
    { w with phase := .holding task }.Claims gave (task :: tasks) := by
  obtain ⟨pending, finished, rfl, u, f⟩ := c
  rw [ready] at u
  cases u
  exact ⟨[task], finished, rfl, .holding task, f⟩

theorem leave (c : w.Claims gave tasks) (ready : w.phase = .ready) :
    { w with phase := .done }.Claims gave tasks := by
  obtain ⟨pending, finished, rfl, u, f⟩ := c
  rw [ready] at u
  cases u
  exact ⟨[], finished, rfl, .done, f⟩

theorem finish {task : Task} {outcome : Outcome} {stats : Stats} (c : w.Claims gave tasks)
    (holding : w.phase = .holding task) (answer : gave task (.ok (outcome, stats))) :
    { w with phase := .ready, batch := outcome :: w.batch,
             stats := w.stats.add stats }.Claims gave tasks := by
  obtain ⟨pending, finished, rfl, u, f⟩ := c
  rw [holding] at u
  cases u
  exact ⟨[], task :: finished, rfl, .ready, .cons answer f⟩

theorem breakDown {task : Task} {cause : Breakdown} (c : w.Claims gave tasks)
    (holding : w.phase = .holding task) (answer : gave task (.error cause)) :
    { w with phase := .broken cause }.Claims gave tasks := by
  obtain ⟨pending, finished, rfl, u, f⟩ := c
  rw [holding] at u
  cases u
  exact ⟨[task], finished, rfl, .broken answer, f⟩

theorem mark {cause : Breakdown} (c : w.Claims gave tasks) (broken : w.phase = .broken cause) :
    { w with phase := .failing cause }.Claims gave tasks := by
  obtain ⟨pending, finished, rfl, u, f⟩ := c
  rw [broken] at u
  cases u with
  | broken answer => exact ⟨_, finished, rfl, .failing answer, f⟩

theorem exhaust {cause : Breakdown} (c : w.Claims gave tasks) (failing : w.phase = .failing cause) :
    { w with phase := .stopping cause }.Claims gave tasks := by
  obtain ⟨pending, finished, rfl, u, f⟩ := c
  rw [failing] at u
  cases u with
  | failing answer => exact ⟨_, finished, rfl, .stopping answer, f⟩

theorem report {cause : Breakdown} (c : w.Claims gave tasks)
    (stopping : w.phase = .stopping cause) : { w with phase := .failed }.Claims gave tasks := by
  obtain ⟨pending, finished, rfl, u, f⟩ := c
  rw [stopping] at u
  cases u with
  | stopping answer => exact ⟨_, finished, rfl, .failed answer, f⟩

theorem holding_mem {task : Task} (c : w.Claims gave tasks) (holding : w.phase = .holding task) :
    task ∈ tasks := by
  obtain ⟨pending, finished, rfl, u, f⟩ := c
  rw [holding] at u
  cases u
  simp

end Worker.Claims

/-- What a worker will have processed with its next step. -/
def Worker.inHand (w : Worker) : List Task :=
  match w.phase with
  | .holding task => [task]
  | _ => []

namespace Pool

/-- The workers with the tasks that each has claimed, of which there are `taken` in all. -/
structure Shares (ctx : Context σ) (world : World σ) (p : Pool σ) (log : List Task)
    (claims : List (Worker × List Task)) (taken : Nat) : Prop where
  workers : p.workers = claims.map Prod.fst
  owned : ∀ c ∈ claims, c.1.Claims (ctx.Gave world log) c.2
  first : (claims.flatMap Prod.snd).Perm (ctx.tasks.take taken)
  present : p.shared.world = ctx.after world log
  listed : ∀ t ∈ log, t ∈ ctx.tasks

def leavers (p : Pool σ) : Nat := p.workers.countP fun w => w.phase = .done

/-- A worker behind the exhaustion of the cursor. -/
def hasExhausted (w : Worker) : Bool :=
  match w.phase with
  | .stopping _ | .failed => true
  | _ => false

/-- Where a cursor stands after `taken` of `total` tasks have been claimed and some workers have
left without a task. -/
structure Counted (total next leavers : Nat) (exhausted : Bool) (taken : Nat) : Prop where
  within : taken ≤ total
  bound : next ≤ total + leavers
  left : 0 < leavers → total ≤ next
  stopped : exhausted = true → total ≤ next
  exact : exhausted = false → next = taken + leavers ∧ (0 < leavers → taken = total)

def IsCounted (ctx : Context σ) (p : Pool σ) (taken : Nat) : Prop :=
  Counted ctx.tasks.length p.shared.cursor.next.toNat p.leavers (p.workers.any hasExhausted) taken

theorem Shares.split {ctx : Context σ} {world : World σ} {p : Pool σ} {log : List Task}
    {claims : List (Worker × List Task)} {taken : Nat} (h : Shares ctx world p log claims taken)
    {before rest : List Worker} {w : Worker} (workers : p.workers = before ++ w :: rest) :
    ∃ front tasks back, claims = front ++ (w, tasks) :: back ∧ front.map Prod.fst = before ∧
      back.map Prod.fst = rest ∧ w.Claims (ctx.Gave world log) tasks := by
  have mapped : claims.map Prod.fst = before ++ w :: rest := h.workers.symm.trans workers
  obtain ⟨front, tail, rfl, hfront, htail⟩ := List.map_eq_append_iff.1 mapped
  obtain ⟨c, back, rfl, rfl, hback⟩ := List.map_eq_cons_iff.1 htail
  exact ⟨front, c.2, back, rfl, hfront, hback, h.owned c (by simp)⟩

theorem Shares.replace {ctx : Context σ} {world : World σ} {p p' : Pool σ} {log more : List Task}
    {front back : List (Worker × List Task)} {w w' : Worker} {tasks tasks' : List Task}
    {taken taken' : Nat}
    (h : Shares ctx world p log (front ++ (w, tasks) :: back) taken)
    (owned : w'.Claims (ctx.Gave world (log ++ more)) tasks')
    (first : (front.flatMap Prod.snd ++ (tasks' ++ back.flatMap Prod.snd)).Perm
      (ctx.tasks.take taken'))
    (present : p'.shared.world = ctx.after world (log ++ more))
    (listed : ∀ t ∈ more, t ∈ ctx.tasks) :
    Shares ctx world
      { p' with workers := front.map Prod.fst ++ w' :: back.map Prod.fst }
      (log ++ more) (front ++ (w', tasks') :: back) taken' where
  workers := by simp
  owned := by
    intro c hc
    have old : ∀ c ∈ front ++ (w, tasks) :: back, c.1.Claims (ctx.Gave world (log ++ more)) c.2 :=
      fun c hc => (h.owned c hc).mono fun _ _ gave => gave.append more
    rcases List.mem_append.1 hc with hc | hc
    · exact old c (List.mem_append_left _ hc)
    · rcases List.mem_cons.1 hc with rfl | hc
      · exact owned
      · exact old c (List.mem_append_right _ (List.mem_cons_of_mem _ hc))
  first := by simpa using first
  present := present
  listed := by
    intro t ht
    exact (List.mem_append.1 ht).elim (h.listed t) (listed t)

theorem Shares.claimed_mem {ctx : Context σ} {world : World σ} {p : Pool σ} {log : List Task}
    {claims : List (Worker × List Task)} {taken : Nat} (h : Shares ctx world p log claims taken)
    {c : Worker × List Task} (hc : c ∈ claims) {t : Task} (ht : t ∈ c.2) : t ∈ ctx.tasks :=
  List.mem_of_mem_take (h.first.subset (List.mem_flatMap.2 ⟨c, hc, ht⟩))

theorem Shares.rephase {ctx : Context σ} {world : World σ} {p p' : Pool σ} {log : List Task}
    {front back : List (Worker × List Task)} {w w' : Worker} {tasks tasks' : List Task}
    {taken taken' : Nat}
    (h : Shares ctx world p log (front ++ (w, tasks) :: back) taken)
    (same : p'.shared.world = p.shared.world) (owned : w'.Claims (ctx.Gave world log) tasks')
    (first : (front.flatMap Prod.snd ++ (tasks' ++ back.flatMap Prod.snd)).Perm
      (ctx.tasks.take taken')) :
    Shares ctx world { p' with workers := front.map Prod.fst ++ w' :: back.map Prod.fst } log
      (front ++ (w', tasks') :: back) taken' := by
  rw [← List.append_nil log] at owned ⊢
  exact h.replace owned first (by simpa only [List.append_nil] using same.trans h.present) (by simp)

theorem Shares.processed {ctx : Context σ} {world : World σ} {p : Pool σ} {log : List Task}
    {front back : List (Worker × List Task)} {w w' : Worker} {tasks : List Task} {taken : Nat}
    {task : Task}
    (h : Shares ctx world p log (front ++ (w, tasks) :: back) taken) (mem : task ∈ tasks)
    (owned : w'.Claims (ctx.Gave world (log ++ [task])) tasks) :
    Shares ctx world
      { p.inWorld (ctx.process task p.shared.world).2 with
        workers := front.map Prod.fst ++ w' :: back.map Prod.fst }
      (log ++ [task]) (front ++ (w', tasks) :: back) taken := by
  refine h.replace owned (by simpa using h.first) ?_ ?_
  · rw [Context.after_append, ← h.present]
    rfl
  · intro t ht
    rw [List.mem_singleton.1 ht]
    exact h.claimed_mem (c := (w, tasks)) (by simp) mem

theorem Shares.answer {ctx : Context σ} {world : World σ} {p : Pool σ} {log : List Task}
    {claims : List (Worker × List Task)} {taken : Nat} (h : Shares ctx world p log claims taken)
    {task : Task} {answer : Answer} (same : (ctx.process task p.shared.world).1 = answer) :
    ctx.Gave world (log ++ [task]) task answer := by
  have gave := ctx.gave_last world log task
  rwa [← h.present, same] at gave

theorem take_succ_perm {α : Type} {xs front back mine : List α} {n : Nat} {x : α}
    (first : (front ++ (mine ++ back)).Perm (xs.take n)) (found : xs[n]? = some x) :
    (front ++ (x :: mine ++ back)).Perm (xs.take (n + 1)) := by
  rw [List.take_add_one, found]
  calc
    (front ++ (x :: mine ++ back)).Perm (x :: (front ++ (mine ++ back))) := List.perm_middle
    (x :: (front ++ (mine ++ back))).Perm (x :: xs.take n) := first.cons x
    (x :: xs.take n).Perm (xs.take n ++ [x]) := (List.perm_append_singleton x _).symm

/-- Every step keeps the shares: a claim adds the next task, and processing extends the log. -/
theorem Shares.move {ctx : Context σ} {world : World σ} {p p' : Pool σ} {log : List Task}
    {claims : List (Worker × List Task)} {taken : Nat} (h : Shares ctx world p log claims taken)
    (next : p.shared.cursor.next < ctx.count → p.shared.cursor.next.toNat = taken)
    {before rest : List Worker} {w w' : Worker} (workers : p.workers = before ++ w :: rest)
    (move : Move ctx p w p' w') :
    ∃ front tasks back tasks', claims = front ++ (w, tasks) :: back ∧ (∀ t ∈ tasks, t ∈ tasks') ∧
      Shares ctx world { p' with workers := before ++ w' :: rest } (log ++ w.inHand)
        (front ++ (w', tasks') :: back)
        (if w.phase = .ready ∧ p.shared.cursor.next < ctx.count then taken + 1 else taken) := by
  obtain ⟨front, tasks, back, rfl, rfl, rfl, owned⟩ := h.split workers
  have first : (front.flatMap Prod.snd ++ (tasks ++ back.flatMap Prod.snd)).Perm
      (ctx.tasks.take taken) := by simpa using h.first
  -- a claim adds a task to the worker's own, and what is processed is added to the log
  cases move with
  | @claim task ready below found =>
    rw [next below] at found
    simp only [Worker.inHand, ready, below, and_self, ite_true, List.append_nil]
    exact ⟨front, tasks, back, task :: tasks, rfl, fun _ => List.mem_cons_of_mem _,
      h.rephase rfl (owned.claim ready _) (take_succ_perm first found)⟩
  | leave ready beyond =>
    simp only [Worker.inHand, ready, UInt64.not_lt.2 beyond, and_false, ite_false, List.append_nil]
    exact ⟨front, tasks, back, tasks, rfl, fun _ h => h,
      h.rephase rfl (owned.leave ready) first⟩
  | @finish task outcome stats holding answer =>
    have kept := owned.mono fun _ _ gave => gave.append [task]
    simp only [Worker.inHand, holding, reduceCtorEq, false_and, ite_false]
    exact ⟨front, tasks, back, tasks, rfl, fun _ h => h,
      h.processed (owned.holding_mem holding) (kept.finish holding (h.answer answer))⟩
  | @breakDown task cause holding answer =>
    have kept := owned.mono fun _ _ gave => gave.append [task]
    simp only [Worker.inHand, holding, reduceCtorEq, false_and, ite_false]
    exact ⟨front, tasks, back, tasks, rfl, fun _ h => h,
      h.processed (owned.holding_mem holding) (kept.breakDown holding (h.answer answer))⟩
  | mark broken =>
    simp only [Worker.inHand, broken, reduceCtorEq, false_and, ite_false, List.append_nil]
    have same : { p with state := .failed : Pool σ }.shared.world = p.shared.world := rfl
    exact ⟨front, tasks, back, tasks, rfl, fun _ h => h,
      h.rephase same (owned.mark broken) first⟩
  | exhaust failing =>
    simp only [Worker.inHand, failing, reduceCtorEq, false_and, ite_false, List.append_nil]
    exact ⟨front, tasks, back, tasks, rfl, fun _ h => h,
      h.rephase rfl (owned.exhaust failing) first⟩
  | report stopping =>
    simp only [Worker.inHand, stopping, reduceCtorEq, false_and, ite_false, List.append_nil]
    exact ⟨front, tasks, back, tasks, rfl, fun _ h => h,
      h.rephase rfl (owned.report stopping) first⟩

namespace Counted
variable {total next leavers taken : Nat} {exhausted : Bool}

theorem next_eq (h : Counted total next leavers exhausted taken) (below : next < total) :
    next = taken ∧ leavers = 0 ∧ exhausted = false := by
  obtain ⟨within, bound, left, stopped, exact⟩ := h
  have running : exhausted = false := by
    cases exhausted with
    | false => rfl
    | true => have := stopped rfl; omega
  have none : leavers = 0 := by
    rcases Nat.eq_zero_or_pos leavers with none | some
    · exact none
    · have := left some; omega
  have same := (exact running).1
  exact ⟨by omega, none, running⟩

theorem claim (h : Counted total next leavers exhausted taken) (below : next < total) :
    Counted total (next + 1) leavers exhausted (taken + 1) := by
  obtain ⟨same, none, running⟩ := h.next_eq below
  refine ⟨by omega, by omega, by omega, ?_, fun _ => by omega⟩
  simp [running]

theorem leave (h : Counted total next leavers exhausted taken) (beyond : total ≤ next) :
    Counted total (next + 1) (leavers + 1) exhausted taken := by
  obtain ⟨within, bound, left, stopped, exact⟩ := h
  refine ⟨within, by omega, by omega, fun _ => by omega, fun running => ?_⟩
  obtain ⟨same, all⟩ := exact running
  omega

theorem exhaust (h : Counted total next leavers exhausted taken) :
    Counted total (max next total) leavers true taken := by
  obtain ⟨within, bound, left, stopped, exact⟩ := h
  exact ⟨within, by omega, by omega, by omega, by simp⟩

end Counted

theorem leavers_split {p : Pool σ} {before rest : List Worker} {w : Worker}
    (workers : p.workers = before ++ w :: rest) :
    p.leavers = before.countP (fun w => w.phase = .done) + (if w.phase = .done then 1 else 0) +
      rest.countP fun w => w.phase = .done := by
  simp only [leavers, workers, List.countP_append, List.countP_cons, decide_eq_true_eq]
  omega

theorem any_split {p : Pool σ} {before rest : List Worker} {w : Worker}
    (workers : p.workers = before ++ w :: rest) (test : Worker → Bool) :
    p.workers.any test = (test w || (before.any test || rest.any test)) := by
  simp only [workers, List.any_append, List.any_cons]
  cases test w <;> simp

theorem leavers_lt {p : Pool σ} {before rest : List Worker} {w : Worker}
    (workers : p.workers = before ++ w :: rest) (notDone : w.phase ≠ .done) :
    p.leavers < p.workers.length := by
  have first := before.countP_le_length (p := fun w => w.phase = .done)
  have second := rest.countP_le_length (p := fun w => w.phase = .done)
  rw [leavers_split workers, if_neg notDone, workers, List.length_append, List.length_cons]
  omega

theorem IsCounted.claimed_next {ctx : Context σ} {p : Pool σ} {taken : Nat}
    (h : IsCounted ctx p taken) (room : ctx.tasks.length + p.workers.length < UInt64.size)
    (others : p.leavers < p.workers.length) :
    p.claimed.shared.cursor.next.toNat = p.shared.cursor.next.toNat + 1 := by
  have bound := h.bound
  exact Cursor.claim_position (c := p.shared.cursor) (by unfold Cursor.position; omega)

theorem exhaust_next {ctx : Context σ} (countable : ctx.Countable) (p : Pool σ) :
    (p.exhaust ctx).shared.cursor.next.toNat =
      max p.shared.cursor.next.toNat ctx.tasks.length := by
  rw [← Context.count_toNat countable]
  exact p.shared.cursor.exhaust_position ctx.count

theorem IsCounted.move {ctx : Context σ} {p p' : Pool σ} {taken : Nat} (h : IsCounted ctx p taken)
    (room : ctx.tasks.length + p.workers.length < UInt64.size)
    {before rest : List Worker} {w w' : Worker} (workers : p.workers = before ++ w :: rest)
    (move : Move ctx p w p' w') :
    IsCounted ctx { p' with workers := before ++ w' :: rest }
      (if w.phase = .ready ∧ p.shared.cursor.next < ctx.count then taken + 1 else taken) := by
  have countable : ctx.Countable := by unfold Context.Countable; omega
  have total := Context.count_toNat countable
  have count := leavers_split workers
  have stop := any_split workers hasExhausted
  have count' := leavers_split (p := { p' with workers := before ++ w' :: rest }) rfl
  have stop' := any_split (p := { p' with workers := before ++ w' :: rest }) rfl hasExhausted
  unfold IsCounted at h ⊢
  cases move with
  | @claim task ready below found =>
    have next := IsCounted.claimed_next h room (leavers_lt workers (by simp [ready]))
    have less : p.shared.cursor.next.toNat < ctx.tasks.length := by
      rw [← total]
      exact UInt64.lt_iff_toNat_lt.1 below
    have claimed := h.claim less
    simp only [count, stop, hasExhausted, ready, reduceCtorEq, ite_false] at claimed
    simpa only [next, count', stop', hasExhausted, ready, below, and_self, reduceCtorEq, ite_true,
      ite_false] using claimed
  | leave ready beyond =>
    have next := IsCounted.claimed_next h room (leavers_lt workers (by simp [ready]))
    have more : ctx.tasks.length ≤ p.shared.cursor.next.toNat := by
      rw [← total]
      exact UInt64.le_iff_toNat_le.1 beyond
    have left := h.leave more
    simp only [count, stop, hasExhausted, ready, reduceCtorEq, ite_false] at left
    simpa only [next, count', stop', hasExhausted, ready, UInt64.not_lt.2 beyond, and_false,
      ite_true, ite_false, Nat.add_zero, Nat.add_right_comm _ _ 1] using left
  | finish holding answer | breakDown holding answer =>
    simp only [count, stop, hasExhausted, holding, reduceCtorEq, ite_false] at h
    simpa only [inWorld_cursor, count', stop', hasExhausted, holding, reduceCtorEq, false_and,
      ite_false] using h
  | mark broken =>
    simp only [count, stop, hasExhausted, broken, reduceCtorEq, ite_false] at h
    simpa only [count', stop', hasExhausted, broken, reduceCtorEq, false_and, ite_false] using h
  | exhaust failing =>
    have stopped := h.exhaust
    simp only [count, failing, reduceCtorEq, ite_false] at stopped
    simpa only [exhaust_next countable, count', stop', hasExhausted, failing, reduceCtorEq,
      false_and, ite_false, Bool.true_or] using stopped
  | report stopping =>
    simp only [count, stop, hasExhausted, stopping, reduceCtorEq, ite_false] at h
    simpa only [keepError_cursor, count', stop', hasExhausted, stopping, reduceCtorEq, false_and,
      ite_false] using h

/-- What holds at every moment of a run. -/
structure Sound (ctx : Context σ) (world : World σ) (p : Pool σ) (log : List Task)
    (claims : List (Worker × List Task)) (taken : Nat) : Prop where
  shares : Shares ctx world p log claims taken
  counted : IsCounted ctx p taken

theorem IsCounted.next_eq {ctx : Context σ} {p : Pool σ} {taken : Nat} (h : IsCounted ctx p taken)
    (countable : ctx.Countable) (below : p.shared.cursor.next < ctx.count) :
    p.shared.cursor.next.toNat = taken := by
  have less := UInt64.lt_iff_toNat_lt.1 below
  rw [Context.count_toNat countable] at less
  exact (Counted.next_eq h less).1

theorem start_sound (ctx : Context σ) (world : World σ) (workers : Nat) :
    Sound ctx world (Pool.start workers ⟨.fresh, world⟩) []
      (((List.range workers).map Worker.fresh).map fun w => (w, [])) 0 where
  shares :=
    { workers := by simp [Pool.start, Function.comp_def]
      owned := by
        intro c hc
        simp only [List.mem_map] at hc
        obtain ⟨w, ⟨i, -, rfl⟩, rfl⟩ := hc
        exact ⟨[], [], rfl, .ready, .nil⟩
      first := by simp
      present := rfl
      listed := by simp }
  counted := by
    have none : (Pool.start workers ⟨.fresh, world⟩).leavers = 0 := by
      simp [leavers, Pool.start, Worker.fresh]
    unfold IsCounted
    rw [none]
    exact ⟨by omega, by simp [Pool.start, Cursor.fresh], by omega,
      by simp [Pool.start, hasExhausted, Worker.fresh], by simp [Pool.start, Cursor.fresh]⟩

theorem step_workers {ctx : Context σ} {p p' : Pool σ} (step : Step ctx p p') :
    p'.workers.map Worker.id = p.workers.map Worker.id := by
  obtain ⟨workers, move⟩ := step
  rw [workers]
  cases move <;> simp

theorem reaches_workers {ctx : Context σ} {p p' : Pool σ} (reaches : Reaches ctx p p') :
    p'.workers.map Worker.id = p.workers.map Worker.id := by
  induction reaches with
  | refl => rfl
  | tail _ step ih => exact (step_workers step).trans ih

theorem reaches_length {ctx : Context σ} {p p' : Pool σ} (reaches : Reaches ctx p p') :
    p'.workers.length = p.workers.length := by
  simpa only [List.length_map] using congrArg List.length (reaches_workers reaches)

theorem Sound.step {ctx : Context σ} {world : World σ} {p p' : Pool σ} {log : List Task}
    {claims : List (Worker × List Task)} {taken : Nat} (h : Sound ctx world p log claims taken)
    (room : ctx.tasks.length + p.workers.length < UInt64.size) (step : Step ctx p p') :
    ∃ log' claims' taken', Sound ctx world p' log' claims' taken' := by
  have countable : ctx.Countable := by unfold Context.Countable; omega
  obtain ⟨workers, move⟩ := step
  have counted := h.counted.move room workers move
  obtain ⟨front, tasks, back, tasks', -, -, shares⟩ :=
    h.shares.move (h.counted.next_eq countable) workers move
  exact ⟨_, _, _, shares, counted⟩

theorem Sound.reaches {ctx : Context σ} {world : World σ} {p p' : Pool σ} {log : List Task}
    {claims : List (Worker × List Task)} {taken : Nat} (h : Sound ctx world p log claims taken)
    (room : ctx.tasks.length + p.workers.length < UInt64.size) (reaches : Reaches ctx p p') :
    ∃ log' claims' taken', Sound ctx world p' log' claims' taken' := by
  induction reaches with
  | refl => exact ⟨log, claims, taken, h⟩
  | tail before step ih =>
    obtain ⟨log', claims', taken', sound⟩ := ih
    exact sound.step (by rwa [reaches_length before]) step

theorem done_running {p : Pool σ} (done : ∀ w ∈ p.workers, w.phase = .done) :
    p.workers.any hasExhausted = false := by
  rw [List.any_eq_false]
  intro w hw
  simp [hasExhausted, done w hw]

theorem Sound.complete {ctx : Context σ} {world : World σ} {p : Pool σ} {log : List Task}
    {claims : List (Worker × List Task)} {taken : Nat} (h : Sound ctx world p log claims taken)
    (some : p.workers ≠ []) (done : ∀ w ∈ p.workers, w.phase = .done) :
    (claims.flatMap Prod.snd).Perm ctx.tasks ∧
      ∀ c ∈ claims, Finished (ctx.Gave world log) c.2 c.1.batch c.1.stats := by
  have all : p.leavers = p.workers.length :=
    List.countP_eq_length.2 fun w hw => decide_eq_true (done w hw)
  have positive := List.length_pos_iff.2 some
  have taken_eq : taken = ctx.tasks.length :=
    (h.counted.exact (done_running done)).2 (by omega)
  constructor
  · simpa only [taken_eq, List.take_length] using h.shares.first
  · intro c hc
    have phase := done c.1 (by rw [h.shares.workers]; exact List.mem_map_of_mem hc)
    obtain ⟨pending, finished, same, u, f⟩ := h.shares.owned c hc
    rw [phase] at u
    cases u
    rwa [same]

end Pool
end ParallelLint
