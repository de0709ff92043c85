import ParallelLint.Proofs.Pool.Keeping
import ParallelLint.Proofs.Pool.Schedule

set_option autoImplicit false

namespace ParallelLint
variable {σ : Type}

theorem mergeOutcomes_map {tasks : List Task} {done : Task → Outcome × Stats}
    (numbered : Task.misnumbered? tasks = none)
    (indexed : ∀ t ∈ tasks, (done t).1.index = t.index) :
    mergeOutcomes (tasks.map fun t => (done t).1) tasks.length =
      tasks.filterMap fun t => (done t).1.merged? := by
  let merged := tasks.filterMap fun t => (done t).1.merged?
  have origin : ∀ m ∈ merged, ∃ t ∈ tasks, m.index = t.index := by
    intro m hm
    obtain ⟨t, ht, found⟩ := List.mem_filterMap.1 hm
    exact ⟨t, ht, (merged_index found).trans (indexed t ht)⟩
  have inside : ∀ m ∈ merged, m.index < tasks.length := by
    intro m hm
    obtain ⟨t, ht, same⟩ := origin m hm
    rw [same, ← List.mem_range, ← Task.indices numbered]
    exact List.mem_map_of_mem ht
  have ordered : tasks.Pairwise fun a b => a.index < b.index := by
    have range := List.pairwise_lt_range (n := tasks.length)
    rw [← Task.indices numbered] at range
    exact List.pairwise_map.1 range
  have increasing : (merged.map fun m => (m.index, m)).Pairwise
      fun a b => compare a.1 b.1 = .lt := by
    refine List.pairwise_map.2 (List.pairwise_filterMap.2 ?_)
    refine ordered.imp_of_mem fun {a b} ha hb less m hm n hn => ?_
    rw [merged_index hm, merged_index hn, indexed a ha, indexed b hb]
    exact Nat.compare_eq_lt.2 less
  have known : merged.filter (fun m => m.index < tasks.length) = merged :=
    List.filter_eq_self.2 fun m hm => decide_eq_true (inside m hm)
  have sorted := Sorted.ofList_entries (α := Merged) ⟨merged.map fun m => (m.index, m), increasing⟩
  rw [mergeOutcomes, List.filterMap_map]
  change (Sorted.ofList ((merged.filter fun m => m.index < tasks.length).map
    fun m => (m.index, m))).entries.map Prod.snd = merged
  rw [known, sorted, List.map_map]
  exact List.map_id _

theorem merged_reports (tasks : List Task) (done : Task → Outcome × Stats) :
    (tasks.filterMap fun t => (done t).1.merged?).map Merged.report =
      tasks.filterMap fun t => (done t).1.report := by
  rw [List.map_filterMap]
  refine List.filterMap_congr fun t _ => ?_
  rw [Outcome.merged?, Option.map_map]
  exact Option.map_id'

theorem filterMap_filter {α β : Type} {f : α → Option β} {shown : α → Bool} {xs : List α}
    (same : ∀ x ∈ xs, (f x).isSome = shown x) :
    (xs.filterMap f).map some = (xs.filter shown).map f := by
  induction xs with
  | nil => rfl
  | cons x rest ih =>
    have here := same x (List.mem_cons_self ..)
    have ih := ih fun y hy => same y (List.mem_cons_of_mem _ hy)
    rw [List.filterMap_cons, List.filter_cons, ← here]
    cases found : f x with
    | none => simpa using ih
    | some y => simp [found, ih]

namespace Dispatcher
variable {d : Dispatcher σ} {tasks : List Task} {cache : Option Cache} {world : World σ}

theorem workers_room (d : Dispatcher σ) (room : 2 * tasks.length < UInt64.size) :
    tasks.length + max (WorkerCount.ofConcurrency d.parallelism d.options.concurrency tasks.length)
      1 < UInt64.size := by
  have few := workers_le d.parallelism d.options.concurrency tasks.length
  have size : UInt64.size = 18446744073709551616 := rfl
  omega

theorem pool_reached (d : Dispatcher σ) (tasks : List Task) (cache : Option Cache) (world : World σ)
    (room : 2 * tasks.length < UInt64.size) :
    let workers := WorkerCount.ofConcurrency d.parallelism d.options.concurrency tasks.length
    Pool.Reaches (d.context tasks cache) (Pool.start (max workers 1) ⟨.fresh, world⟩)
        (d.pool tasks cache world) ∧
      (d.pool tasks cache world).workers ≠ [] ∧
      ((d.pool tasks cache world).firstError = none →
        ∀ w ∈ (d.pool tasks cache world).workers, w.phase = .done) := by
  intro workers
  have fits : tasks.length + max workers 1 < UInt64.size := d.workers_room room
  have countable : (d.context tasks cache).Countable := by
    change tasks.length < UInt64.size
    omega
  obtain ⟨reached, stopped⟩ := Pool.run_reaches countable d.schedule
    (Pool.start (max workers 1) ⟨.fresh, world⟩)
  have reported := (Pool.start_reported (d.context tasks cache) (max workers 1)
    ⟨.fresh, world⟩).reaches reached
  refine ⟨reached, ?_, reported.done stopped⟩
  rw [← List.length_pos_iff, pool, Pool.reaches_length reached, Pool.start_length]
  omega

theorem pool_sound (d : Dispatcher σ) (tasks : List Task) (cache : Option Cache) (world : World σ)
    (room : 2 * tasks.length < UInt64.size) :
    ∃ log claims taken,
      Pool.Sound (d.context tasks cache) world (d.pool tasks cache world) log claims taken ∧
      (d.pool tasks cache world).workers ≠ [] ∧
      ((d.pool tasks cache world).firstError = none →
        ∀ w ∈ (d.pool tasks cache world).workers, w.phase = .done) := by
  obtain ⟨reached, ended⟩ := d.pool_reached tasks cache world room
  obtain ⟨log, claims, taken, sound⟩ := (Pool.start_sound (d.context tasks cache) world _).reaches
    (by rw [Pool.start_length]; exact d.workers_room room) reached
  exact ⟨log, claims, taken, sound, ended⟩

theorem pool_files (room : 2 * tasks.length < UInt64.size) (quiet : d.analyzer.Quiet) :
    (d.pool tasks cache world).shared.world.files = world.files := by
  obtain ⟨log, claims, taken, sound, -⟩ := d.pool_sound tasks cache world room
  rw [sound.shares.present, Context.after_eq quiet]

theorem runWorkers_done (numbered : Task.misnumbered? tasks = none)
    (room : 2 * tasks.length < UInt64.size) (quiet : d.analyzer.Quiet)
    (steady : d.resolver.Steady world.files world.resolver (Context.asked tasks))
    (done : let ctx := d.context tasks cache
      ∀ t ∈ tasks, (ctx.process t world).1 = .ok (ctx.done world t)) :
    let ctx := d.context tasks cache
    ∃ workers asked, (∀ p ∈ asked, p ∈ Context.asked tasks) ∧
      d.runWorkers tasks cache world = d.conclude tasks cache workers
        (tasks.filterMap fun t => (ctx.done world t).1.merged?)
        (tasks.map fun t => (ctx.done world t).2).sum
        ⟨world.files, d.resolver.after world.files world.resolver asked⟩ := by
  intro ctx
  have answers : ctx.Steady world fun t => (ctx.process t world).1 :=
    Context.steady_of_quiet quiet steady
  have same : ctx.Steady world fun t => .ok (ctx.done world t) := by
    intro log listed t ht
    rw [answers log listed t ht]
    exact done t ht
  have indexed : ∀ t ∈ tasks, (ctx.done world t).1.index = t.index := fun t ht =>
    Context.process_index (done t ht)
  obtain ⟨workers, asked, listed, ended⟩ := runWorkers_eq numbered room quiet same indexed
  rw [mergeOutcomes_map numbered indexed] at ended
  exact ⟨workers, asked, listed, ended⟩

/-- Either a worker failed and no file was touched, or all tasks were answered and the run ends with
their reports. -/
theorem runWorkers_cases (numbered : Task.misnumbered? tasks = none)
    (room : 2 * tasks.length < UInt64.size) (quiet : d.analyzer.Quiet)
    (steady : d.resolver.Steady world.files world.resolver (Context.asked tasks)) :
    (∃ e state, d.runWorkers tasks cache world = (.error e, ⟨world.files, state⟩)) ∨
      let ctx := d.context tasks cache
      (∀ t ∈ tasks, (ctx.process t world).1 = .ok (ctx.done world t)) ∧
        ∃ workers asked, (∀ p ∈ asked, p ∈ Context.asked tasks) ∧
          d.runWorkers tasks cache world = d.conclude tasks cache workers
            (tasks.filterMap fun t => (ctx.done world t).1.merged?)
            (tasks.map fun t => (ctx.done world t).2).sum
            ⟨world.files, d.resolver.after world.files world.resolver asked⟩ := by
  let ctx := d.context tasks cache
  have answers : ctx.Steady world fun t => (ctx.process t world).1 :=
    Context.steady_of_quiet quiet steady
  cases known : (d.pool tasks cache world).firstError with
  | some e =>
    refine .inl ⟨e, (d.pool tasks cache world).shared.world.resolver, ?_⟩
    rw [runWorkers_pool, known, ← pool_files room quiet]
  | none =>
    have answered := Supervisor.run_answered answers _ (d.workers_room room) d.schedule known
    have done : ∀ t ∈ tasks, (ctx.process t world).1 = .ok (ctx.done world t) :=
      fun t ht => Context.process_done (answered t ht)
    exact .inr ⟨done, runWorkers_done numbered room quiet steady done⟩

theorem runWorkers_gave {after : World σ} {r : RunReport} (quiet : d.analyzer.Quiet)
    (ok : d.runWorkers tasks cache world = (.ok r, after)) :
    ∃ workers outcomes stats state,
      (∀ o ∈ outcomes, ∃ t ∈ tasks, ∃ state stats,
        ((d.context tasks cache).process t ⟨world.files, state⟩).1 = .ok (o, stats)) ∧
      d.conclude tasks cache workers (mergeOutcomes outcomes tasks.length) stats
        ⟨world.files, state⟩ = (.ok r, after) := by
  let gave : Outcome → Prop := fun o => ∃ t ∈ tasks, ∃ state stats,
    ((d.context tasks cache).process t ⟨world.files, state⟩).1 = .ok (o, stats)
  have within : (d.pool tasks cache world).Within (d.context tasks cache)
      (fun w => w.files = world.files) gave := by
    refine Pool.run_keeps (fun t ht w same => ?_) d.schedule _ rfl
    obtain ⟨files, state⟩ := w
    obtain rfl : files = world.files := same
    exact ⟨Context.process_files quiet t _, fun o stats answer => ⟨t, ht, state, stats, answer⟩⟩
  have present : (d.pool tasks cache world).shared.world =
      ⟨world.files, (d.pool tasks cache world).shared.world.resolver⟩ := by
    rw [← within.world]
  rw [runWorkers_pool] at ok
  split at ok
  · cases ok
  · rw [present] at ok
    exact ⟨_, _, _, _, within.output, ok⟩

end Dispatcher
end ParallelLint
