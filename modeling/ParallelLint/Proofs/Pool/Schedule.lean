import ParallelLint.Analyzer.TextRules
import ParallelLint.Proofs.Dispatch.Closing
import ParallelLint.Proofs.Dispatch.Merge
import ParallelLint.Proofs.Pool.Failures

set_option autoImplicit false

namespace ParallelLint
variable {σ : Type}

namespace Pool

theorem Finished.eq {gave : Task → Answer → Prop} {done : Task → Outcome × Stats}
    (answers : ∀ t d, gave t (.ok d) → d = done t) {tasks : List Task} {outcomes : List Outcome}
    {sum : Stats} (f : Finished gave tasks outcomes sum) :
    outcomes = tasks.map (fun t => (done t).1) ∧ sum = (tasks.map fun t => (done t).2).sum := by
  induction f with
  | nil => exact ⟨rfl, rfl⟩
  | cons answer _ ih =>
    obtain ⟨rfl, rfl⟩ := ih
    have same := answers _ _ answer
    rw [List.map_cons, List.map_cons, List.sum_cons, ← same, Stats.add_eq, add_comm]
    exact ⟨rfl, rfl⟩

variable {ctx : Context σ} {world : World σ} {p : Pool σ} {log : List Task}
  {claims : List (Worker × List Task)} {taken : Nat} {done : Task → Outcome × Stats}

theorem Sound.idle_done (h : Sound ctx world p log claims taken)
    (steady : ctx.Steady world fun t => .ok (done t))
    (idle : ∀ w ∈ p.workers, w.isActive = false) : ∀ w ∈ p.workers, w.phase = .done := by
  intro w hw
  have inactive := idle w hw
  rw [h.shares.workers] at hw
  obtain ⟨c, hc, rfl⟩ := List.mem_map.1 hw
  obtain ⟨pending, finished, -, u, -⟩ := h.shares.owned c hc
  unfold Worker.isActive at inactive
  cases phase : c.1.phase with
  | ready | holding => simp [phase] at inactive
  | done => rfl
  | broken | failing | stopping | failed =>
    rw [phase] at u
    cases u
    rename_i answer
    cases steady.gave h.shares.listed answer

theorem Sound.answers (h : Sound ctx world p log claims taken)
    (steady : ctx.Steady world fun t => .ok (done t)) :
    ∀ t d, ctx.Gave world log t (.ok d) → d = done t :=
  fun _ _ gave => (Except.ok.inj (steady.gave h.shares.listed gave)).symm

theorem Sound.output (h : Sound ctx world p log claims taken)
    (answers : ∀ t d, ctx.Gave world log t (.ok d) → d = done t) (some : p.workers ≠ [])
    (stopped : ∀ w ∈ p.workers, w.phase = .done) :
    p.output.outcomes.Perm (ctx.tasks.map fun t => (done t).1) ∧
      p.output.stats = (ctx.tasks.map fun t => (done t).2).sum := by
  obtain ⟨all, finished⟩ := h.complete some stopped
  have reports : p.reports = claims.map fun c => (c.1.batch.reverse, c.1.stats) := by
    rw [Pool.reports, List.filter_eq_self.2 fun w hw => decide_eq_true (stopped w hw),
      h.shares.workers, List.map_map]
    rfl
  have values : ∀ c ∈ claims, c.1.batch = c.2.map (fun t => (done t).1) ∧
      c.1.stats = (c.2.map fun t => (done t).2).sum :=
    fun c hc => Finished.eq answers (finished c hc)
  have batches : (claims.flatMap fun c => c.1.batch.reverse).Perm
      (claims.flatMap fun c => c.2.map fun t => (done t).1) :=
    .flatMap_left _ fun c hc => by
      rw [(values c hc).1]
      exact List.reverse_perm _
  have sums : claims.map (fun c => c.1.stats) =
      claims.map fun c => (c.2.map fun t => (done t).2).sum :=
    List.map_congr_left fun c hc => (values c hc).2
  constructor
  · rw [Pool.output, Output.ofReports, reports, List.flatMap_map]
    rw [← List.map_flatMap] at batches
    exact batches.trans (all.map _)
  · calc p.output.stats = (claims.map fun c => c.1.stats).sum := by
          rw [Pool.output, Output.ofReports_stats, reports, List.map_map]
          rfl
      _ = (claims.map fun c => (c.2.map fun t => (done t).2).sum).sum := congrArg List.sum sums
      _ = ((claims.flatMap Prod.snd).map fun t => (done t).2).sum := by
          rw [List.map_flatMap, List.flatMap_def, List.sum_flatten, List.map_map]
          rfl
      _ = (ctx.tasks.map fun t => (done t).2).sum := (all.map _).sum_eq

/-- Without a breakdown a run reports what the tasks come to, whatever its schedule is. -/
theorem run_output (workers : Nat) (some : 0 < workers)
    (room : ctx.tasks.length + workers < UInt64.size)
    (steady : ctx.Steady world fun t => .ok (done t)) (schedule : List Nat) :
    let pool := (Pool.start workers ⟨.fresh, world⟩).run ctx schedule
    pool.firstError = none ∧
      pool.output.outcomes.Perm (ctx.tasks.map fun t => (done t).1) ∧
      pool.output.stats = (ctx.tasks.map fun t => (done t).2).sum ∧
      ∃ log, (∀ t ∈ log, t ∈ ctx.tasks) ∧ pool.shared.world = ctx.after world log := by
  intro pool
  have countable : ctx.Countable := by unfold Context.Countable; omega
  obtain ⟨reached, stopped⟩ := run_reaches countable schedule (Pool.start workers ⟨.fresh, world⟩)
  obtain ⟨log, claims, taken, sound⟩ := (start_sound ctx world workers).reaches
    (by rwa [start_length]) reached
  have nonempty : pool.workers ≠ [] := by
    rw [← List.length_pos_iff, reaches_length reached, start_length]
    exact some
  have ended := sound.idle_done steady fun w hw => by
    rcases stopped w hw with phase | phase <;> simp [Worker.isActive, phase]
  have reported := ((start_reported ctx workers ⟨.fresh, world⟩).reaches reached).reported
  have quiet : pool.workers.any (fun w => w.phase = .failed) = false := by
    rw [List.any_eq_false]
    intro w hw
    simp [ended w hw]
  rw [quiet, Option.isSome_eq_false_iff, Option.isNone_iff_eq_none] at reported
  obtain ⟨outcomes, stats⟩ := sound.output (sound.answers steady) nonempty ended
  exact ⟨reported, outcomes, stats, log, sound.shares.listed, sound.shares.present⟩

theorem inline_output (room : ctx.tasks.length + 1 < UInt64.size)
    (steady : ctx.Steady world fun t => .ok (done t)) :
    ∃ outcomes, ((Worker.fresh 0).run ctx ⟨.fresh, world⟩).2.report =
        .ok (outcomes, (ctx.tasks.map fun t => (done t).2).sum) ∧
      outcomes.Perm (ctx.tasks.map fun t => (done t).1) := by
  have countable : ctx.Countable := by unfold Context.Countable; omega
  let start := Pool.start 1 ⟨.fresh, world⟩
  let ran := (Worker.fresh 0).run ctx ⟨.fresh, world⟩
  let p : Pool σ := { start with shared := ran.1, workers := [ran.2] }
  have reached : Reaches ctx start p :=
    workerRun_reaches countable ⟨.fresh, world⟩ (.fresh 0) start [] []
  obtain ⟨log, claims, taken, sound⟩ := (start_sound ctx world 1).reaches room reached
  have idle : ∀ w ∈ p.workers, w.isActive = false := by
    intro w hw
    rw [List.mem_singleton.1 hw]
    exact workerRun_idle ctx _ _
  have ended := sound.idle_done steady idle
  obtain ⟨outcomes, stats⟩ := sound.output (sound.answers steady) (List.cons_ne_nil _ _) ended
  have phase : ran.2.phase = .done := ended ran.2 (List.mem_singleton_self _)
  have reports : p.reports = [(ran.2.batch.reverse, ran.2.stats)] := by
    simp [Pool.reports, p, phase]
  rw [Pool.output, reports] at outcomes stats
  refine ⟨ran.2.batch.reverse, ?_, by simpa only [Output.ofReports, List.flatMap_cons,
    List.flatMap_nil, List.append_nil] using outcomes⟩
  rw [Output.ofReports_stats, List.map_singleton, List.sum_singleton] at stats
  change ran.2.report = _
  rw [← stats]
  simp only [Worker.report, phase]

end Pool

/-- What a run yields, but for how many workers made it. -/
def RunReport.yield (r : RunReport) : List FileReport × Stats × Option CacheChanges :=
  (r.files, r.stats, r.cache)

namespace Dispatcher

/-- The same dispatcher with another number of workers and another order of their steps. -/
def rescheduled (d : Dispatcher σ) (concurrency : Concurrency) (parallelism : Nat)
    (schedule : List Nat) : Dispatcher σ :=
  { d with options := { d.options with concurrency }, parallelism, schedule }

theorem rescheduled_conclude (d : Dispatcher σ) (concurrency : Concurrency) (parallelism : Nat)
    (schedule : List Nat) :
    (d.rescheduled concurrency parallelism schedule).conclude = d.conclude := rfl

theorem workers_le (parallelism : Nat) (concurrency : Concurrency) (tasks : Nat) :
    WorkerCount.ofConcurrency parallelism concurrency tasks ≤ max tasks 1 :=
  Nat.min_le_right _ _

theorem distinct_indices {tasks : List Task} {done : Task → Outcome × Stats}
    (numbered : Task.misnumbered? tasks = none)
    (indexed : ∀ t ∈ tasks, (done t).1.index = t.index) :
    ((tasks.map fun t => (done t).1).map Outcome.index).Nodup := by
  have indices : (tasks.map fun t => (done t).1).map Outcome.index = List.range tasks.length := by
    rw [List.map_map, ← Task.indices numbered]
    exact List.map_congr_left indexed
  rw [indices]
  exact List.nodup_range

def pool (d : Dispatcher σ) (tasks : List Task) (cache : Option Cache) (world : World σ) : Pool σ :=
  let workers := WorkerCount.ofConcurrency d.parallelism d.options.concurrency tasks.length
  (Pool.start (max workers 1) ⟨.fresh, world⟩).run (d.context tasks cache) d.schedule

theorem runWorkers_pool (d : Dispatcher σ) (tasks : List Task) (cache : Option Cache)
    (world : World σ) :
    d.runWorkers tasks cache world =
      match (d.pool tasks cache world).firstError with
      | some e => (.error e, (d.pool tasks cache world).shared.world)
      | none => d.conclude tasks cache
          (WorkerCount.ofConcurrency d.parallelism d.options.concurrency tasks.length)
          (mergeOutcomes (d.pool tasks cache world).output.outcomes tasks.length)
          (d.pool tasks cache world).output.stats (d.pool tasks cache world).shared.world := by
  unfold runWorkers Supervisor.run pool
  simp only [Supervisor.ofCount, ne_eq, not_true_eq_false, ite_false]
  cases ((Pool.start (max (WorkerCount.ofConcurrency d.parallelism d.options.concurrency
    tasks.length) 1) ⟨.fresh, world⟩).run (d.context tasks cache) d.schedule).firstError <;> rfl

theorem runWorkers_eq {d : Dispatcher σ} {tasks : List Task} {cache : Option Cache}
    {world : World σ} {done : Task → Outcome × Stats}
    (numbered : Task.misnumbered? tasks = none) (room : 2 * tasks.length < UInt64.size)
    (quiet : d.analyzer.Quiet) (steady : (d.context tasks cache).Steady world fun t => .ok (done t))
    (indexed : ∀ t ∈ tasks, (done t).1.index = t.index) :
    ∃ workers asked, (∀ p ∈ asked, p ∈ Context.asked tasks) ∧
      d.runWorkers tasks cache world = d.conclude tasks cache workers
        (mergeOutcomes (tasks.map fun t => (done t).1) tasks.length)
        (tasks.map fun t => (done t).2).sum
        ⟨world.files, d.resolver.after world.files world.resolver asked⟩ := by
  let workers := WorkerCount.ofConcurrency d.parallelism d.options.concurrency tasks.length
  let ctx := d.context tasks cache
  have few := workers_le d.parallelism d.options.concurrency tasks.length
  have size : UInt64.size = 18446744073709551616 := rfl
  have fits : ctx.tasks.length + max workers 1 < UInt64.size := by
    change tasks.length + max (WorkerCount.ofConcurrency _ _ _) 1 < _
    omega
  obtain ⟨none, outcomes, stats, log, listed, present⟩ :=
    Pool.run_output (max workers 1) (by omega) fits steady d.schedule
  refine ⟨workers, Context.asked log, Context.asked_subset listed, ?_⟩
  have merged := mergeOutcomes_perm outcomes.symm (distinct_indices numbered indexed) tasks.length
  rw [runWorkers_pool, pool, none]
  simp only
  rw [present, Context.after_eq quiet, ← merged, stats]
  rfl

theorem conclude_steady {d : Dispatcher σ} {fs : FileSystem} {state : σ} {tasks : List Task}
    (steady : d.resolver.Steady fs state (Context.asked tasks)) (cache : Option Cache)
    (workers workers' : Nat) (merged : List Merged) (stats : Stats) {asked asked' : List Path}
    (listed : ∀ p ∈ asked, p ∈ Context.asked tasks)
    (listed' : ∀ p ∈ asked', p ∈ Context.asked tasks) :
    let a := d.conclude tasks cache workers merged stats ⟨fs, d.resolver.after fs state asked⟩
    let b := d.conclude tasks cache workers' merged stats ⟨fs, d.resolver.after fs state asked'⟩
    a.1.map RunReport.yield = b.1.map RunReport.yield ∧ a.2.files = b.2.files := by
  cases cache with
  | none => exact ⟨rfl, rfl⟩
  | some cache =>
    have same := closeCache_steady steady merged listed listed' cache
    simp only [conclude]
    revert same
    cases d.closeCache tasks merged cache ⟨fs, d.resolver.after fs state asked⟩ with
    | mk answer world =>
      cases d.closeCache tasks merged cache ⟨fs, d.resolver.after fs state asked'⟩ with
      | mk answer' world' =>
        rintro ⟨rfl, files⟩
        match answer with
        | .error e => exact ⟨rfl, files⟩
        | .ok changes => exact ⟨rfl, files⟩

theorem lintTasks_opened {d : Dispatcher σ} {tasks : List Task} {cache : Option Cache}
    {before : FileSystem} {world : World σ} (numbered : Task.misnumbered? tasks = none)
    (opened : d.openCache before = (.ok cache, world.files)) :
    d.lintTasks tasks ⟨before, world.resolver⟩ = d.runWorkers tasks cache world := by
  simp only [lintTasks, numbered, opened]

end Dispatcher

def Context.done (ctx : Context σ) (world : World σ) (task : Task) : Outcome × Stats :=
  match (ctx.process task world).1 with
  | .ok done => done
  | .error _ => default

theorem Context.process_done {ctx : Context σ} {world : World σ} {task : Task}
    (answered : ∃ done, (ctx.process task world).1 = .ok done) :
    (ctx.process task world).1 = .ok (ctx.done world task) := by
  obtain ⟨done, answer⟩ := answered
  rw [Context.done, answer]

theorem Context.steady_done {ctx : Context σ} {world : World σ} (quiet : ctx.analyzer.Quiet)
    (steady : ctx.resolver.Steady world.files world.resolver (Context.asked ctx.tasks))
    (answered : ∀ t ∈ ctx.tasks, ∃ done, (ctx.process t world).1 = .ok done) :
    ctx.Steady world fun t => .ok (ctx.done world t) := by
  intro log listed t ht
  rw [Context.steady_of_quiet quiet steady log listed t ht]
  exact Context.process_done (answered t ht)

/-- Neither the number of the workers nor the order of their steps nor the order of their reports
makes a difference to what a run without a breakdown yields, or to the cache that it leaves. -/
theorem Supervisor.run_unscheduled {ctx : Context σ} {world : World σ}
    (numbered : Task.misnumbered? ctx.tasks = none)
    (room : 2 * ctx.tasks.length < UInt64.size) (quiet : ctx.analyzer.Quiet)
    (steady : ctx.resolver.Steady world.files world.resolver (Context.asked ctx.tasks))
    (answered : ∀ t ∈ ctx.tasks, ∃ done, (ctx.process t world).1 = .ok done) :
    (∃ outcomes stats,
      ((Worker.fresh 0).run ctx ⟨.fresh, world⟩).2.report = .ok (outcomes, stats) ∧
      ∀ workers schedule, ctx.tasks.length + max workers 1 < UInt64.size →
        let pool := (Pool.start (max workers 1) ⟨.fresh, world⟩).run ctx schedule
        ((Supervisor.ofCount workers).run ctx schedule ⟨.fresh, world⟩).1 =
            .ok (Output.ofReports pool.reports) ∧
          ∀ reports : List (List Outcome × Stats), reports.Perm pool.reports →
            let output := Output.ofReports reports
            mergeOutcomes output.outcomes ctx.tasks.length =
                mergeOutcomes outcomes ctx.tasks.length ∧
              output.stats = stats) ∧
    ∀ (d : Dispatcher σ) (before : FileSystem), d.openCache before = (.ok ctx.cache, world.files) →
      d.context ctx.tasks ctx.cache = ctx →
      ∀ concurrency parallelism schedule,
        let a := d.lintTasks ctx.tasks ⟨before, world.resolver⟩
        let b := (d.rescheduled concurrency parallelism schedule).lintTasks ctx.tasks
          ⟨before, world.resolver⟩
        a.1.map RunReport.yield = b.1.map RunReport.yield ∧ a.2.files = b.2.files := by
  have answers : ctx.Steady world fun t => .ok (ctx.done world t) := by
    intro log listed t ht
    rw [Context.steady_of_quiet quiet steady log listed t ht]
    exact Context.process_done (answered t ht)
  have indexed : ∀ t ∈ ctx.tasks, (ctx.done world t).1.index = t.index := fun t ht =>
    Context.process_index (Context.process_done (answered t ht))
  have size : UInt64.size = 18446744073709551616 := rfl
  constructor
  · obtain ⟨outcomes, report, inline⟩ := Pool.inline_output (by omega) answers
    refine ⟨outcomes, _, report, ?_⟩
    intro workers schedule fits pool
    obtain ⟨none, together, sum, -⟩ :=
      Pool.run_output (max workers 1) (by omega) fits answers schedule
    constructor
    · simp only [Supervisor.run, Supervisor.ofCount, ne_eq, not_true_eq_false, ite_false]
      rw [none]
      rfl
    · intro reports shuffled output
      obtain ⟨same, counts⟩ := Output.ofReports_perm shuffled
      have distinct := Dispatcher.distinct_indices numbered indexed
      refine ⟨?_, counts.trans sum⟩
      calc mergeOutcomes output.outcomes ctx.tasks.length
          = mergeOutcomes (ctx.tasks.map fun t => (ctx.done world t).1) ctx.tasks.length :=
            (mergeOutcomes_perm (same.trans together).symm distinct _).symm
        _ = mergeOutcomes outcomes ctx.tasks.length := mergeOutcomes_perm inline.symm distinct _
  · intro d before opened context concurrency parallelism schedule a b
    have analyzer : d.analyzer = ctx.analyzer := congrArg Context.analyzer context
    have resolver : d.resolver = ctx.resolver := congrArg Context.resolver context
    let d' := d.rescheduled concurrency parallelism schedule
    obtain ⟨workers, asked, listed, first⟩ := Dispatcher.runWorkers_eq (d := d) numbered room
      (analyzer ▸ quiet) (by rwa [context]) indexed
    obtain ⟨workers', asked', listed', second⟩ := Dispatcher.runWorkers_eq (d := d') numbered room
      (analyzer ▸ quiet) (by change (d.context _ _).Steady _ _; rwa [context]) indexed
    have same := Dispatcher.conclude_steady (d := d) (resolver ▸ steady) ctx.cache workers workers'
      (mergeOutcomes (ctx.tasks.map fun t => (ctx.done world t).1) ctx.tasks.length)
      (ctx.tasks.map fun t => (ctx.done world t).2).sum listed listed'
    have one : a = d.runWorkers ctx.tasks ctx.cache world :=
      Dispatcher.lintTasks_opened numbered opened
    have two : b = d'.runWorkers ctx.tasks ctx.cache world :=
      Dispatcher.lintTasks_opened numbered opened
    rw [one, two, first, second, Dispatcher.rescheduled_conclude]
    exact same

def Context.missing : Context Unit where
  tasks := [⟨0, ⟨"a.txt"⟩, false⟩, ⟨1, ⟨"b.txt"⟩, true⟩]
  resolver := .single default
  analyzer := textRules
  cache := none
  fix := .off
  warnIgnored := true

theorem Supervisor.run_unscheduled_missing :
    let ctx := Context.missing
    let world : World Unit := ⟨⟨[], [], 0⟩, ()⟩
    Task.misnumbered? ctx.tasks = none ∧ 2 * ctx.tasks.length < UInt64.size ∧
      ctx.analyzer.Quiet ∧
      ctx.resolver.Steady world.files world.resolver (Context.asked ctx.tasks) ∧
      (∀ t ∈ ctx.tasks, ∃ done, (ctx.process t world).1 = .ok done) ∧
      ∃ outcomes stats,
        ((Worker.fresh 0).run ctx ⟨.fresh, world⟩).2.report = .ok (outcomes, stats) ∧
        ∀ schedule, ∃ output,
          ((Supervisor.ofCount 2).run ctx schedule ⟨.fresh, world⟩).1 = .ok output ∧
          mergeOutcomes output.outcomes ctx.tasks.length =
            mergeOutcomes outcomes ctx.tasks.length ∧ output.stats = stats := by
  intro ctx world
  have numbered : Task.misnumbered? ctx.tasks = none := by decide
  have room : 2 * ctx.tasks.length < UInt64.size := by decide
  have quiet : ctx.analyzer.Quiet := fun _ _ => rfl
  have steady : ctx.resolver.Steady world.files world.resolver (Context.asked ctx.tasks) :=
    fun _ _ _ _ => rfl
  have answered : ∀ t ∈ ctx.tasks, ∃ done, (ctx.process t world).1 = .ok done :=
    fun t _ => Context.process_answered (fun _ _ => ⟨_, rfl⟩) fun _ => ⟨_, rfl⟩
  obtain ⟨⟨outcomes, stats, inline, pools⟩, -⟩ :=
    Supervisor.run_unscheduled numbered room quiet steady answered
  refine ⟨numbered, room, quiet, steady, answered, outcomes, stats, inline, fun schedule => ?_⟩
  obtain ⟨ran, reports⟩ := pools 2 schedule (by decide)
  obtain ⟨merged, counts⟩ := reports _ (.refl _)
  exact ⟨_, ran, merged, counts⟩

end ParallelLint
