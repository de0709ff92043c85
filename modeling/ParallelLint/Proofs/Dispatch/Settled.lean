import ParallelLint.Proofs.Config.Resolving
import ParallelLint.Proofs.Dispatch.Answers
import ParallelLint.Proofs.Dispatch.Ending

set_option autoImplicit false

namespace ParallelLint
variable {σ : Type}

/-- The configuration of a file, if the resolver finds one. -/
def Resolver.config? (r : Resolver σ) (fs : FileSystem) (state : σ) (path : Path) :
    Option ResolvedConfig :=
  match (r.resolve fs state path).1 with
  | .ok found => found
  | .error _ => none

theorem Resolver.config_found {r : Resolver σ} {fs : FileSystem} {state : σ} {path : Path}
    {found : Option ResolvedConfig} (h : (r.resolve fs state path).1 = .ok found) :
    r.config? fs state path = found := by
  rw [config?, h]

/-- The resolver answers this for the files of the tasks, whichever of them it has been asked. -/
def Resolver.Answers (r : Resolver σ) (fs : FileSystem) (state : σ) (tasks : List Task)
    (found : Path → Option ResolvedConfig) : Prop :=
  ∀ t ∈ tasks, t.ignored = false → ∀ asked, (∀ p ∈ asked, p ∈ Context.asked tasks) →
    (r.resolve fs (r.after fs state asked) t.path).1 = .ok (found t.path)

namespace Context

/-- A task that was answered is answered the same at the end, and changes nothing any more. -/
theorem Gave.settled {ctx : Context σ} (quiet : ctx.analyzer.Quiet) {world : World σ}
    (stable : ctx.resolver.Stable world.files) {log : List Task} {t : Task} {done : Outcome × Stats}
    (gave : ctx.Gave world log t (.ok done)) :
    (ctx.process t (ctx.after world log)).1 = .ok done ∧
      (t.ignored = false → ∃ found, ∀ asked,
        (ctx.resolver.resolve world.files
          (ctx.resolver.after world.files (ctx.after world log).resolver asked) t.path).1 =
            .ok found) := by
  obtain ⟨earlier, later, rfl, answer⟩ := gave
  have before := after_eq quiet world earlier
  have all := after_eq quiet world (earlier ++ t :: later)
  let s := ctx.resolver.after world.files world.resolver (asked earlier)
  have last : ctx.resolver.after world.files world.resolver (asked (earlier ++ t :: later)) =
      ctx.resolver.after world.files s (asked (t :: later)) := by
    rw [asked_append, Resolver.after_append]
  rw [before] at answer
  rw [all, last]
  have again : t.ignored = false → ∃ found,
      (ctx.resolver.resolve world.files s t.path).1 = .ok found ∧ ∀ more,
      (ctx.resolver.resolve world.files (ctx.resolver.after world.files
        (ctx.resolver.after world.files s (asked (t :: later))) more) t.path).1 = .ok found := by
    intro plain
    obtain ⟨found, resolved⟩ := process_resolves plain answer
    refine ⟨found, resolved, fun more => ?_⟩
    have cons : asked (t :: later) = t.path :: asked later := by simp [asked, plain]
    rw [cons, ← Resolver.after_append, List.cons_append]
    exact stable s t.path found resolved _
  refine ⟨?_, fun plain => ?_⟩
  · rw [← answer]
    refine process_answer ctx t fun plain => ?_
    obtain ⟨found, first, second⟩ := again plain
    rw [first]
    exact second []
  · obtain ⟨found, -, second⟩ := again plain
    exact ⟨found, second⟩

end Context

namespace Dispatcher
variable {d : Dispatcher σ} {tasks : List Task} {cache : Option Cache} {world : World σ}

theorem pool_noError {done : Task → Outcome × Stats} (room : 2 * tasks.length < UInt64.size)
    (answered : (d.context tasks cache).Steady world fun t => .ok (done t)) :
    (d.pool tasks cache world).firstError = none := by
  rw [pool]
  exact (Pool.run_output _ (by omega) (d.workers_room room) answered d.schedule).1

theorem runWorkers_finished (numbered : Task.misnumbered? tasks = none)
    (room : 2 * tasks.length < UInt64.size) (quiet : d.analyzer.Quiet)
    (stable : d.resolver.Stable world.files)
    (known : (d.pool tasks cache world).firstError = none) :
    ∃ workers asked, (∀ p ∈ asked, p ∈ Context.asked tasks) ∧
      let ctx := d.context tasks cache
      let state := d.resolver.after world.files world.resolver asked
      (d.pool tasks cache world).shared.world.resolver = state ∧
      d.resolver.Answers world.files state tasks (d.resolver.config? world.files state) ∧
      (∀ t ∈ tasks, (ctx.process t ⟨world.files, state⟩).1 =
        .ok (ctx.done ⟨world.files, state⟩ t)) ∧
      d.runWorkers tasks cache world = d.conclude tasks cache workers
        (tasks.filterMap fun t => (ctx.done ⟨world.files, state⟩ t).1.merged?)
        (tasks.map fun t => (ctx.done ⟨world.files, state⟩ t).2).sum ⟨world.files, state⟩ := by
  obtain ⟨log, claims, taken, sound, some, stopped⟩ := d.pool_sound tasks cache world room
  let ctx := d.context tasks cache
  let state := d.resolver.after world.files world.resolver (Context.asked log)
  have last : ctx.after world log = ⟨world.files, state⟩ := Context.after_eq quiet world log
  have present : (d.pool tasks cache world).shared.world = ⟨world.files, state⟩ :=
    sound.shares.present.trans last
  obtain ⟨all, finished⟩ := sound.complete some (stopped known)
  have gave : ∀ t ∈ tasks, ∃ done, ctx.Gave world log t (.ok done) := by
    intro t ht
    obtain ⟨c, hc, ht⟩ := List.mem_flatMap.1 (all.mem_iff.2 ht)
    exact Pool.Finished.answered (finished c hc) ht
  have done : ∀ t ∈ tasks, (ctx.process t ⟨world.files, state⟩).1 =
      .ok (ctx.done ⟨world.files, state⟩ t) := by
    intro t ht
    obtain ⟨done, gave⟩ := gave t ht
    rw [← last]
    exact Context.process_done ⟨done, (gave.settled quiet stable).1⟩
  have answers : ∀ t d, ctx.Gave world log t (.ok d) → d = ctx.done ⟨world.files, state⟩ t := by
    intro t d gave
    rw [← last, Context.done, (gave.settled quiet stable).1]
  have indexed : ∀ t ∈ tasks, (ctx.done ⟨world.files, state⟩ t).1.index = t.index :=
    fun t ht => Context.process_index (done t ht)
  obtain ⟨outcomes, stats⟩ := sound.output answers some (stopped known)
  have merged := mergeOutcomes_perm outcomes.symm (distinct_indices numbered indexed) tasks.length
  refine ⟨WorkerCount.ofConcurrency d.parallelism d.options.concurrency tasks.length,
    Context.asked log, Context.asked_subset sound.shares.listed, by rw [present], ?_, done, ?_⟩
  · intro t ht plain asked _
    obtain ⟨done, gave⟩ := gave t ht
    obtain ⟨found, found_eq⟩ := (gave.settled quiet stable).2 plain
    rw [last] at found_eq
    calc (d.resolver.resolve world.files (d.resolver.after world.files state asked) t.path).1
        = .ok found := found_eq asked
      _ = .ok (d.resolver.config? world.files state t.path) :=
          congrArg _ (Resolver.config_found (found_eq [])).symm
  · rw [runWorkers_pool, known]
    simp only
    rw [present, ← mergeOutcomes_map numbered indexed, ← merged, stats]
    rfl

theorem runWorkers_broken (room : 2 * tasks.length < UInt64.size) (quiet : d.analyzer.Quiet)
    {e : LintError} (known : (d.pool tasks cache world).firstError = some e) :
    d.runWorkers tasks cache world =
      (.error e, ⟨world.files, (d.pool tasks cache world).shared.world.resolver⟩) := by
  rw [runWorkers_pool, known, ← pool_files room quiet]

theorem lintTasks_ran {after : World σ} {r : RunReport} (wanted : d.options.cache = true)
    (ok : d.lintTasks tasks world = (.ok r, after)) :
    Task.misnumbered? tasks = none ∧ ∃ loaded,
      Cache.load world.files (d.cacheFile world.files) d.options.cacheStrategy = .ok loaded ∧
      (d.pool tasks (some loaded) world).firstError = none ∧
      d.runWorkers tasks (some loaded) world = (.ok r, after) := by
  cases numbered : Task.misnumbered? tasks with
  | some bad =>
    rw [lintTasks, numbered] at ok
    cases ok
  | none =>
    have opened : d.openCache world.files =
        ((Cache.load world.files (d.cacheFile world.files) d.options.cacheStrategy).map some,
          world.files) := if_pos wanted
    cases load : Cache.load world.files (d.cacheFile world.files) d.options.cacheStrategy with
    | error e =>
      rw [load] at opened
      simp only [lintTasks, numbered, opened, Except.map] at ok
      cases ok
    | ok loaded =>
      rw [load] at opened
      have ran := (lintTasks_opened numbered opened).symm.trans ok
      refine ⟨rfl, loaded, rfl, ?_, ran⟩
      cases known : (d.pool tasks (some loaded) world).firstError with
      | none => rfl
      | some e =>
        rw [runWorkers_pool, known] at ran
        cases ran

end Dispatcher
end ParallelLint
