import Mathlib.Data.List.Forall2
import ParallelLint.Proofs.Dispatch.Steady
import ParallelLint.Proofs.Pool.Moves

set_option autoImplicit false

namespace ParallelLint
variable {σ : Type}

/-- The resolver comes from one state to the other by being asked. -/
def Resolver.Onward (r : Resolver σ) (fs : FileSystem) (state later : σ) : Prop :=
  ∃ asked, later = r.after fs state asked

theorem Resolver.Onward.refl (r : Resolver σ) (fs : FileSystem) (state : σ) :
    r.Onward fs state state := ⟨[], rfl⟩

theorem Resolver.Onward.trans {r : Resolver σ} {fs : FileSystem} {s t u : σ}
    (first : r.Onward fs s t) (second : r.Onward fs t u) : r.Onward fs s u := by
  obtain ⟨asked, rfl⟩ := first
  obtain ⟨more, rfl⟩ := second
  exact ⟨asked ++ more, (r.after_append fs s asked more).symm⟩

namespace Pool

theorem Move.onward {ctx : Context σ} (quiet : ctx.analyzer.Quiet) {p p' : Pool σ} {w w' : Worker}
    (move : Move ctx p w p' w') :
    p'.shared.world.files = p.shared.world.files ∧
      ctx.resolver.Onward p.shared.world.files p.shared.world.resolver
        p'.shared.world.resolver := by
  cases move with
  | @finish task | @breakDown task =>
    exact ⟨Context.process_files quiet task _, _, ctx.process_resolver task _⟩
  | claim | leave | mark | exhaust | report => exact ⟨rfl, .refl _ _ _⟩

theorem reaches_onward {ctx : Context σ} (quiet : ctx.analyzer.Quiet) {p q : Pool σ}
    (reaches : Reaches ctx p q) :
    q.shared.world.files = p.shared.world.files ∧
      ctx.resolver.Onward p.shared.world.files p.shared.world.resolver
        q.shared.world.resolver := by
  induction reaches with
  | refl => exact ⟨rfl, .refl _ _ _⟩
  | tail _ step ih =>
    obtain ⟨workers, move⟩ := step
    obtain ⟨files, onward⟩ := move.onward quiet
    exact ⟨files.trans ih.1, ih.2.trans (ih.1 ▸ onward)⟩

end Pool

/-- Both break down for the same cause, or neither does. -/
def SameAnswer : Except Breakdown (Outcome × Stats) → Except Breakdown (Outcome × Stats) → Prop
  | .error cause, .error cause' => cause = cause'
  | .ok _, .ok _ => True
  | _, _ => False

/-- Tasks break down alike in both file systems, in every state of the resolver from which it comes
to the last one. -/
structure Context.Mirrors (ctx ctx' : Context σ) (fs fs' : FileSystem) (last : σ) : Prop where
  tasks : ctx'.tasks = ctx.tasks
  answer : ∀ t ∈ ctx.tasks, ∀ state,
    ctx.resolver.Onward fs (ctx.process t ⟨fs, state⟩).2.resolver last →
      SameAnswer (ctx.process t ⟨fs, state⟩).1 (ctx'.process t ⟨fs', state⟩).1 ∧
        (ctx'.process t ⟨fs', state⟩).2 = ⟨fs', (ctx.process t ⟨fs, state⟩).2.resolver⟩

namespace Pool

structure AlikeShared (fs fs' : FileSystem) (s s' : Shared σ) : Prop where
  cursor : s'.cursor = s.cursor
  files : s.world.files = fs
  files' : s'.world.files = fs'
  resolver : s'.world.resolver = s.world.resolver

structure AlikeWorker (tasks : List Task) (w w' : Worker) : Prop where
  id : w'.id = w.id
  phase : w'.phase = w.phase
  held : ∀ t, w.phase = .holding t → t ∈ tasks

/-- All but the files and the reports is the same. -/
structure Alike (tasks : List Task) (fs fs' : FileSystem) (p p' : Pool σ) : Prop where
  shared : AlikeShared fs fs' p.shared p'.shared
  state : p'.state = p.state
  firstError : p'.firstError = p.firstError
  workers : List.Forall₂ (AlikeWorker tasks) p.workers p'.workers

variable {ctx ctx' : Context σ} {fs fs' : FileSystem} {last : σ} {s s' : Shared σ} {w w' : Worker}
  {p p' : Pool σ}

theorem take_alike (mirrors : ctx.Mirrors ctx' fs fs' last) (shared : AlikeShared fs fs' s s')
    (worker : AlikeWorker ctx.tasks w w') :
    AlikeShared fs fs' (w.take ctx s).1 (w'.take ctx' s').1 ∧
      AlikeWorker ctx.tasks (w.take ctx s).2 (w'.take ctx' s').2 := by
  have count : ctx'.count = ctx.count := by rw [Context.count, Context.count, mirrors.tasks]
  simp only [Worker.take, shared.cursor, count, mirrors.tasks]
  refine ⟨⟨rfl, shared.files, shared.files', shared.resolver⟩, worker.id, rfl,
    fun t held => ?_⟩
  simp only at held
  split at held
  · cases found : ctx.tasks[s.cursor.claim.1.toNat]? with
    | none =>
      rw [found] at held
      cases held
    | some task =>
      rw [found] at held
      cases held
      exact List.mem_of_getElem? found
  · cases held

theorem work_alike (mirrors : ctx.Mirrors ctx' fs fs' last) (quiet : ctx.analyzer.Quiet)
    (shared : AlikeShared fs fs' s s') (worker : AlikeWorker ctx.tasks w w') {t : Task}
    (held : w.phase = .holding t)
    (onward : ctx.resolver.Onward fs (w.work ctx s t).1.world.resolver last) :
    AlikeShared fs fs' (w.work ctx s t).1 (w'.work ctx' s' t).1 ∧
      AlikeWorker ctx.tasks (w.work ctx s t).2 (w'.work ctx' s' t).2 := by
  have world : s.world = ⟨fs, s.world.resolver⟩ := by rw [← shared.files]
  have world' : s'.world = ⟨fs', s.world.resolver⟩ := by
    rw [← shared.files', ← shared.resolver]
  have files := Context.process_files quiet t s.world
  have resolver : (w.work ctx s t).1.world = (ctx.process t s.world).2 := by
    unfold Worker.work
    cases ctx.process t s.world with
    | mk answer world => cases answer <;> rfl
  rw [resolver, world] at onward
  obtain ⟨same, next⟩ := mirrors.answer t (worker.held t held) s.world.resolver onward
  rw [world] at files
  unfold Worker.work
  rw [world, world']
  revert same next files
  cases ctx.process t ⟨fs, s.world.resolver⟩ with
  | mk answer after =>
    cases ctx'.process t ⟨fs', s.world.resolver⟩ with
    | mk answer' after' =>
      rintro files same rfl
      match answer, answer' with
      | .error cause, .error cause' =>
        obtain rfl : cause = cause' := same
        exact ⟨⟨shared.cursor, files, rfl, rfl⟩, worker.id, rfl, by rintro t ⟨⟩⟩
      | .ok _, .ok _ => exact ⟨⟨shared.cursor, files, rfl, rfl⟩, worker.id, rfl, by rintro t ⟨⟩⟩

theorem step_alike (mirrors : ctx.Mirrors ctx' fs fs' last) (quiet : ctx.analyzer.Quiet)
    (shared : AlikeShared fs fs' s s') (worker : AlikeWorker ctx.tasks w w')
    (onward : ctx.resolver.Onward fs (w.step ctx s).1.world.resolver last) :
    AlikeShared fs fs' (w.step ctx s).1 (w'.step ctx' s').1 ∧
      AlikeWorker ctx.tasks (w.step ctx s).2 (w'.step ctx' s').2 := by
  have phase := worker.phase
  unfold Worker.step at onward ⊢
  rw [phase]
  cases held : w.phase with
  | ready => exact take_alike mirrors shared worker
  | holding t =>
    rw [held] at onward
    exact work_alike mirrors quiet shared worker held onward
  | broken | failing | stopping | done | failed => exact ⟨shared, worker⟩

theorem workerRun_alike (mirrors : ctx.Mirrors ctx' fs fs' last) (quiet : ctx.analyzer.Quiet)
    (countable : ctx.Countable) (shared : AlikeShared fs fs' s s')
    (worker : AlikeWorker ctx.tasks w w')
    (onward : ctx.resolver.Onward fs (w.run ctx s).1.world.resolver last) :
    AlikeShared fs fs' (w.run ctx s).1 (w'.run ctx' s').1 ∧
      AlikeWorker ctx.tasks (w.run ctx s).2 (w'.run ctx' s').2 := by
  induction s, w using Worker.run.induct ctx generalizing s' w' with
  | case1 s w active ih =>
    have active' : w'.isActive = true := by
      rw [Worker.isActive, worker.phase]
      exact active
    have first : w.run ctx s = Worker.run ctx (w.step ctx s).1 (w.step ctx s).2 := by
      rw [Worker.run, dif_pos active]
    have second : w'.run ctx' s' = Worker.run ctx' (w'.step ctx' s').1 (w'.step ctx' s').2 := by
      rw [Worker.run, dif_pos active']
    rw [first] at onward ⊢
    rw [second]
    let rest := Worker.run ctx (w.step ctx s).1 (w.step ctx s).2
    have reached : Reaches ctx ⟨(w.step ctx s).1, .running, none, [(w.step ctx s).2]⟩
        ⟨rest.1, .running, none, [rest.2]⟩ :=
      workerRun_reaches countable _ _ ⟨s, .running, none, []⟩ [] []
    have moved := (active_moves (p := ⟨s, .running, none, []⟩) countable active).onward quiet
    have later := (reaches_onward quiet reached).2
    simp only at moved later
    rw [moved.1, shared.files] at later
    obtain ⟨shared, worker⟩ := step_alike mirrors quiet shared worker (later.trans onward)
    exact ih shared worker onward
  | case2 s w idle =>
    have idle' : ¬ w'.isActive = true := by
      rw [Worker.isActive, worker.phase]
      exact idle
    rw [Worker.run, dif_neg idle, Worker.run, dif_neg idle']
    exact ⟨shared, worker⟩

theorem stepWorker_alike (mirrors : ctx.Mirrors ctx' fs fs' last) (quiet : ctx.analyzer.Quiet)
    (alike : Alike ctx.tasks fs fs' p p') (worker : AlikeWorker ctx.tasks w w')
    (onward : ctx.resolver.Onward fs (p.stepWorker ctx w).1.shared.world.resolver last) :
    Alike ctx.tasks fs fs' (p.stepWorker ctx w).1 (p'.stepWorker ctx' w').1 ∧
      AlikeWorker ctx.tasks (p.stepWorker ctx w).2 (p'.stepWorker ctx' w').2 := by
  obtain ⟨shared, state, firstError, workers⟩ := alike
  have phase := worker.phase
  have count : ctx'.count = ctx.count := by rw [Context.count, Context.count, mirrors.tasks]
  cases held : w.phase with
  | broken cause =>
    rw [held] at phase
    simp only [stepWorker, held, phase]
    exact ⟨⟨shared, rfl, firstError, workers⟩, worker.id, rfl, by rintro t ⟨⟩⟩
  | failing cause =>
    rw [held] at phase
    simp only [stepWorker, held, phase, exhaust, shared.cursor, count]
    exact ⟨⟨⟨rfl, shared.files, shared.files', shared.resolver⟩, state, firstError, workers⟩,
      worker.id, rfl, by rintro t ⟨⟩⟩
  | stopping cause =>
    rw [held] at phase
    simp only [stepWorker, held, phase, keepError, firstError, worker.id]
    exact ⟨⟨shared, state, rfl, workers⟩, rfl, rfl, by rintro t ⟨⟩⟩
  | ready | holding | done | failed =>
    rw [held] at phase
    simp only [stepWorker, held] at onward
    simp only [stepWorker, held, phase]
    obtain ⟨shared', worker'⟩ := step_alike mirrors quiet shared worker onward
    exact ⟨⟨shared', state, firstError, workers⟩, worker'⟩

theorem forall₂_set {α β : Type} {r : α → β → Prop} {xs : List α} {ys : List β}
    (h : List.Forall₂ r xs ys) {x : α} {y : β} (new : r x y) (i : Nat) :
    List.Forall₂ r (xs.set i x) (ys.set i y) := by
  induction h generalizing i with
  | nil => exact .nil
  | cons head tail ih =>
    cases i with
    | zero => exact .cons new tail
    | succ i => exact .cons head (ih i)

theorem forall₂_getElem? {α β : Type} {r : α → β → Prop} {xs : List α} {ys : List β}
    (h : List.Forall₂ r xs ys) (i : Nat) : Option.Rel r xs[i]? ys[i]? := by
  induction h generalizing i with
  | nil => exact .none
  | cons head tail ih =>
    cases i with
    | zero => exact .some head
    | succ i => exact ih i

theorem Alike.set {tasks : List Task} (alike : Alike tasks fs fs' p p')
    (worker : AlikeWorker tasks w w') (i : Nat) :
    Alike tasks fs fs' { p with workers := p.workers.set i w }
      { p' with workers := p'.workers.set i w' } :=
  ⟨alike.shared, alike.state, alike.firstError, forall₂_set alike.workers worker i⟩

theorem step_pool_alike (mirrors : ctx.Mirrors ctx' fs fs' last) (quiet : ctx.analyzer.Quiet)
    (alike : Alike ctx.tasks fs fs' p p') (i : Nat)
    (onward : ctx.resolver.Onward fs (p.step ctx i).shared.world.resolver last) :
    Alike ctx.tasks fs fs' (p.step ctx i) (p'.step ctx' i) := by
  have related := forall₂_getElem? alike.workers i
  unfold step at onward ⊢
  revert related onward
  cases p.workers[i]? with
  | none =>
    cases p'.workers[i]? with
    | none => exact fun _ _ => alike
    | some w' => rintro - ⟨⟩
  | some w =>
    cases p'.workers[i]? with
    | none => rintro - ⟨⟩
    | some w' =>
      rintro onward ⟨worker⟩
      obtain ⟨pools, worker⟩ := stepWorker_alike mirrors quiet alike worker onward
      exact pools.set worker i

theorem steps_alike (mirrors : ctx.Mirrors ctx' fs fs' last) (quiet : ctx.analyzer.Quiet)
    (countable : ctx.Countable) (schedule : List Nat) (alike : Alike ctx.tasks fs fs' p p')
    (onward : ctx.resolver.Onward fs
      (schedule.foldl (Pool.step ctx) p).shared.world.resolver last) :
    Alike ctx.tasks fs fs' (schedule.foldl (Pool.step ctx) p)
      (schedule.foldl (Pool.step ctx') p') := by
  induction schedule generalizing p p' with
  | nil => exact alike
  | cons i rest ih =>
    have here := (reaches_onward quiet (step_reaches countable p i)).1
    have later := (reaches_onward quiet (steps_reach countable rest (p.step ctx i))).2
    rw [here, alike.shared.files] at later
    exact ih (step_pool_alike mirrors quiet alike i (later.trans onward)) onward

theorem runWorker_alike (mirrors : ctx.Mirrors ctx' fs fs' last) (quiet : ctx.analyzer.Quiet)
    (countable : ctx.Countable) (alike : Alike ctx.tasks fs fs' p p')
    (worker : AlikeWorker ctx.tasks w w')
    (onward : ctx.resolver.Onward fs (p.runWorker ctx w).1.shared.world.resolver last) :
    Alike ctx.tasks fs fs' (p.runWorker ctx w).1 (p'.runWorker ctx' w').1 ∧
      AlikeWorker ctx.tasks (p.runWorker ctx w).2 (p'.runWorker ctx' w').2 := by
  let ran : Pool σ := { p with shared := (w.run ctx p.shared).1 }
  let first := ran.stepWorker ctx (w.run ctx p.shared).2
  let second := first.1.stepWorker ctx first.2
  have next : ∀ (q : Pool σ) (v : Worker), q.shared.world.files = fs →
      (q.stepWorker ctx v).1.shared.world.files = fs ∧
        ctx.resolver.Onward fs q.shared.world.resolver
          (q.stepWorker ctx v).1.shared.world.resolver := by
    intro q v files
    obtain ⟨same, later⟩ := reaches_onward quiet (stepWorker_reaches countable q v [] [])
    exact ⟨same.trans files, files ▸ later⟩
  have files₀ : ran.shared.world.files = fs :=
    ((reaches_onward quiet (workerRun_reaches countable p.shared w p [] [])).1).trans
      alike.shared.files
  obtain ⟨files₁, later₁⟩ := next ran (w.run ctx p.shared).2 files₀
  obtain ⟨files₂, later₂⟩ := next first.1 first.2 files₁
  obtain ⟨-, later₃⟩ := next second.1 second.2 files₂
  have onward₂ := later₃.trans onward
  have onward₁ := later₂.trans onward₂
  obtain ⟨shared, worker₀⟩ := workerRun_alike mirrors quiet countable alike.shared worker
    (later₁.trans onward₁)
  have alike₀ : Alike ctx.tasks fs fs' ran { p' with shared := (w'.run ctx' p'.shared).1 } :=
    ⟨shared, alike.state, alike.firstError, alike.workers⟩
  obtain ⟨alike₁, worker₁⟩ := stepWorker_alike mirrors quiet alike₀ worker₀ onward₁
  obtain ⟨alike₂, worker₂⟩ := stepWorker_alike mirrors quiet alike₁ worker₁ onward₂
  exact stepWorker_alike mirrors quiet alike₂ worker₂ onward

theorem runFrom_onward (quiet : ctx.analyzer.Quiet) (countable : ctx.Countable) (p : Pool σ)
    (i : Nat) (ws : List Worker) :
    ctx.resolver.Onward p.shared.world.files p.shared.world.resolver
      (p.runFrom ctx i ws).shared.world.resolver := by
  induction ws generalizing p i with
  | nil => exact .refl _ _ _
  | cons w rest ih =>
    obtain ⟨files, first⟩ := reaches_onward quiet (runWorker_reaches countable p w [] [])
    have later := ih { (p.runWorker ctx w).1 with
      workers := (p.runWorker ctx w).1.workers.set i (p.runWorker ctx w).2 } (i + 1)
    simp only at files first later
    rw [files] at later
    exact first.trans later

theorem runFrom_alike (mirrors : ctx.Mirrors ctx' fs fs' last) (quiet : ctx.analyzer.Quiet)
    (countable : ctx.Countable) {ws ws' : List Worker}
    (workers : List.Forall₂ (AlikeWorker ctx.tasks) ws ws')
    (alike : Alike ctx.tasks fs fs' p p') (i : Nat)
    (onward : ctx.resolver.Onward fs (p.runFrom ctx i ws).shared.world.resolver last) :
    Alike ctx.tasks fs fs' (p.runFrom ctx i ws) (p'.runFrom ctx' i ws') := by
  induction workers generalizing p p' i with
  | nil => exact alike
  | @cons w w' rest rest' worker _ ih =>
    have files := (reaches_onward quiet (runWorker_reaches countable p w [] [])).1
    have later := runFrom_onward quiet countable { (p.runWorker ctx w).1 with
      workers := (p.runWorker ctx w).1.workers.set i (p.runWorker ctx w).2 } (i + 1) rest
    simp only at files later
    rw [files, alike.shared.files] at later
    obtain ⟨ran, worker⟩ :=
      runWorker_alike mirrors quiet countable alike worker (later.trans onward)
    exact ih (ran.set worker i) (i + 1) onward

theorem start_alike (tasks : List Task) (fs fs' : FileSystem) (state : σ) (workers : Nat) :
    Alike tasks fs fs' (Pool.start workers ⟨.fresh, ⟨fs, state⟩⟩)
      (Pool.start workers ⟨.fresh, ⟨fs', state⟩⟩) := by
  refine ⟨⟨rfl, rfl, rfl, rfl⟩, rfl, rfl, List.forall₂_same.2 fun w hw => ?_⟩
  obtain ⟨i, -, rfl⟩ := List.mem_map.1 hw
  exact ⟨rfl, rfl, by rintro t ⟨⟩⟩

/-- Under one schedule the workers make the same steps to the end. -/
theorem run_alike {state : σ} {workers : Nat} {schedule : List Nat} (quiet : ctx.analyzer.Quiet)
    (countable : ctx.Countable)
    (mirrors : ctx.Mirrors ctx' fs fs'
      ((Pool.start workers ⟨.fresh, ⟨fs, state⟩⟩).run ctx schedule).shared.world.resolver) :
    Alike ctx.tasks fs fs' ((Pool.start workers ⟨.fresh, ⟨fs, state⟩⟩).run ctx schedule)
      ((Pool.start workers ⟨.fresh, ⟨fs', state⟩⟩).run ctx' schedule) := by
  let start := Pool.start workers ⟨.fresh, ⟨fs, state⟩⟩
  have later := runFrom_onward quiet countable (schedule.foldl (Pool.step ctx) start) 0
    (schedule.foldl (Pool.step ctx) start).workers
  have files := (reaches_onward quiet (steps_reach countable schedule start)).1
  rw [files] at later
  have stepped := steps_alike mirrors quiet countable schedule
    (start_alike ctx.tasks fs fs' state workers) later
  exact runFrom_alike mirrors quiet countable stepped.workers stepped 0 (.refl _ _ _)

section
variable {t u : Task} {world : World σ}

theorem work_broken (s : Shared σ) (w : Worker) {cause : Breakdown}
    (broken : (ctx.process t s.world).1 = .error cause) :
    w.work ctx s t = (⟨s.cursor, (ctx.process t s.world).2⟩, { w with phase := .broken cause }) := by
  rw [Worker.work, show ctx.process t s.world = (.error cause, (ctx.process t s.world).2) from
    Prod.ext broken rfl]

theorem work_done (s : Shared σ) (w : Worker) {done : Outcome × Stats}
    (answer : (ctx.process t s.world).1 = .ok done) :
    w.work ctx s t = (⟨s.cursor, (ctx.process t s.world).2⟩,
      { w with phase := .ready, batch := done.1 :: w.batch, stats := w.stats.add done.2 }) := by
  rw [Worker.work, show ctx.process t s.world = (.ok done, (ctx.process t s.world).2) from
    Prod.ext answer rfl]

theorem Move.keeps_error (move : Move ctx p w p' w')
    (known : p.firstError ≠ none) : p'.firstError ≠ none := by
  cases move with
  | claim | leave | finish | breakDown | mark | exhaust => exact known
  | report => simp [keepError]

theorem reaches_error (reaches : Reaches ctx p p')
    (known : p.firstError ≠ none) : p'.firstError ≠ none := by
  induction reaches with
  | refl => exact known
  | tail _ step ih =>
    obtain ⟨workers, move⟩ := step
    exact move.keeps_error ih

theorem steps_second (tasks : ctx.tasks = [t, u]) {cause : Breakdown}
    (broken : (ctx.process u world).1 = .error cause) :
    ([0, 1, 1, 1, 1, 1].foldl (Pool.step ctx) (Pool.start 2 ⟨.fresh, world⟩)).firstError =
      some (cause.toError 1) := by
  obtain ⟨_, resolver, analyzer, cache, fix, warnIgnored⟩ := ctx
  obtain rfl : _ = [t, u] := tasks
  let ctx : Context σ := ⟨[t, u], resolver, analyzer, cache, fix, warnIgnored⟩
  have taken : [0, 1].foldl (Pool.step ctx) (Pool.start 2 ⟨.fresh, world⟩) =
      ⟨⟨⟨2⟩, world⟩, .running, none, [⟨0, .holding t, [], .zero⟩, ⟨1, .holding u, [], .zero⟩]⟩ := by
    rfl
  have works : ∀ (s : Shared σ) (w : Worker), Pool.step ctx
      ⟨s, .running, none, [w, ⟨1, .holding u, [], .zero⟩]⟩ 1 =
      ⟨(Worker.work ctx s ⟨1, .holding u, [], .zero⟩ u).1, .running, none,
        [w, (Worker.work ctx s ⟨1, .holding u, [], .zero⟩ u).2]⟩ := fun s w => rfl
  have failed := @work_broken _ ctx u ⟨⟨2⟩, world⟩ ⟨1, .holding u, [], .zero⟩ _ broken
  have split : [0, 1, 1, 1, 1, 1] = [0, 1] ++ 1 :: [1, 1, 1] := rfl
  -- the three turns that are left mark the run as failed, stop it and report the cause
  rw [split, List.foldl_append, List.foldl_cons, taken, works, failed]
  rfl

theorem run_second (tasks : ctx.tasks = [t, u]) {cause : Breakdown}
    (broken : (ctx.process u world).1 = .error cause) :
    ((Pool.start 2 ⟨.fresh, world⟩).run ctx [0, 1, 1, 1, 1, 1]).firstError ≠ none := by
  have countable : ctx.Countable := by
    rw [Context.Countable, tasks]
    exact (by decide : 2 < UInt64.size)
  let stepped := [0, 1, 1, 1, 1, 1].foldl (Pool.step ctx) (Pool.start 2 ⟨.fresh, world⟩)
  have rest := (runFrom_reaches countable stepped [] stepped.workers rfl (by simp)).1
  exact reaches_error rest (by rw [steps_second tasks broken]; rintro ⟨⟩)

theorem runFrom_done {workers : List Worker} (done : ∀ w ∈ workers, w.phase = .done)
    (i : Nat) : (p.runFrom ctx i workers).firstError = p.firstError := by
  induction workers generalizing p i with
  | nil => rfl
  | cons w rest ih =>
    have stopped := done w (List.mem_cons_self ..)
    have idle : w.isActive ≠ true := by simp [Worker.isActive, stopped]
    rw [runFrom, ih fun v hv => done v (List.mem_cons_of_mem _ hv)]
    simp [runWorker, Worker.run, idle, stepWorker, Worker.step, stopped]

theorem run_inOrder (tasks : ctx.tasks = [t, u]) {first second : Outcome × Stats}
    (answer : (ctx.process t world).1 = .ok first)
    (answer' : (ctx.process u (ctx.process t world).2).1 = .ok second) :
    ((Pool.start 2 ⟨.fresh, world⟩).run ctx [0, 0, 0, 0, 0, 1]).firstError = none := by
  obtain ⟨_, resolver, analyzer, cache, fix, warnIgnored⟩ := ctx
  obtain rfl : _ = [t, u] := tasks
  let ctx : Context σ := ⟨[t, u], resolver, analyzer, cache, fix, warnIgnored⟩
  have taken : [0].foldl (Pool.step ctx) (Pool.start 2 ⟨.fresh, world⟩) =
      ⟨⟨⟨1⟩, world⟩, .running, none, [⟨0, .holding t, [], .zero⟩, ⟨1, .ready, [], .zero⟩]⟩ := by
    rfl
  have works : ∀ (s : Shared σ) (task : Task) (batch : List Outcome) (sum : Stats) (w : Worker),
      Pool.step ctx ⟨s, .running, none, [⟨0, .holding task, batch, sum⟩, w]⟩ 0 =
        ⟨(Worker.work ctx s ⟨0, .holding task, batch, sum⟩ task).1, .running, none,
          [(Worker.work ctx s ⟨0, .holding task, batch, sum⟩ task).2, w]⟩ :=
    fun _ _ _ _ _ => rfl
  have next : ∀ (world : World σ) (batch : List Outcome) (sum : Stats) (w : Worker),
      Pool.step ctx ⟨⟨⟨1⟩, world⟩, .running, none, [⟨0, .ready, batch, sum⟩, w]⟩ 0 =
        ⟨⟨⟨2⟩, world⟩, .running, none, [⟨0, .holding u, batch, sum⟩, w]⟩ := fun _ _ _ _ => rfl
  have leave : ∀ (world : World σ) (batch : List Outcome) (sum : Stats),
      [0, 1].foldl (Pool.step ctx)
        ⟨⟨⟨2⟩, world⟩, .running, none, [⟨0, .ready, batch, sum⟩, ⟨1, .ready, [], .zero⟩]⟩ =
        ⟨⟨⟨4⟩, world⟩, .running, none, [⟨0, .done, batch, sum⟩, ⟨1, .done, [], .zero⟩]⟩ :=
    fun _ _ _ => rfl
  have worked := fun batch sum => @work_done _ ctx t ⟨⟨1⟩, world⟩ ⟨0, .holding t, batch, sum⟩ _ answer
  have worked' := fun batch sum => @work_done _ ctx u ⟨⟨2⟩, (ctx.process t world).2⟩
    ⟨0, .holding u, batch, sum⟩ _ answer'
  have split : [0, 0, 0, 0, 0, 1] = [0] ++ 0 :: 0 :: 0 :: [0, 1] := rfl
  rw [Pool.run, split, List.foldl_append, taken, List.foldl_cons, works, worked, List.foldl_cons,
    next, List.foldl_cons, works, worked', leave]
  exact runFrom_done (by simp) 0

end

end Pool
end ParallelLint
