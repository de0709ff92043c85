import ParallelLint.Proofs.Cache.Entries
import ParallelLint.Proofs.Dispatch.Settled
import ParallelLint.Proofs.FileSystem.Top

set_option autoImplicit false

namespace ParallelLint
open Context
variable {σ : Type}

namespace Cache
variable {r : Resolver σ} {fs : FileSystem} {state : σ} {tasks : List Task}
  {found : Path → Option ResolvedConfig}

def insertAll (c : Cache) (news : List (Path × CacheEntry)) : Cache :=
  { c with entries := c.entries.insertAll news }

def new? (tasks : List Task) (found : Path → Option ResolvedConfig) (m : Merged) :
    Option (Path × CacheEntry) :=
  (storable? tasks m).bind fun wanted =>
    (found wanted.1.path).map fun config =>
      (wanted.1.path, entryOf wanted.2 config.fingerprint m.report.result)

theorem new_congr {found' : Path → Option ResolvedConfig}
    (same : ∀ t ∈ tasks, t.ignored = false → (found t.path).map ResolvedConfig.fingerprint =
      (found' t.path).map ResolvedConfig.fingerprint) (m : Merged) :
    new? tasks found m = new? tasks found' m := by
  cases wanted : storable? tasks m with
  | none => rw [new?, new?, wanted]; rfl
  | some pair =>
    obtain ⟨ht, plain⟩ := storable_mem wanted
    have made := congrArg (Option.map fun config =>
      (pair.1.path, entryOf pair.2 config m.report.result)) (same _ ht plain)
    rw [Option.map_map, Option.map_map] at made
    rwa [new?, new?, wanted, Option.bind_some, Option.bind_some]

theorem storeAll_answers (answers : r.Answers fs state tasks found) (merged : List Merged)
    {asked : List Path} (listed : ∀ p ∈ asked, p ∈ Context.asked tasks) (cache : Cache)
    (stored : Nat) :
    ∃ asked', (∀ p ∈ asked', p ∈ Context.asked tasks) ∧
      storeAll r fs tasks ⟨cache, stored, r.after fs state asked⟩ merged =
        (.ok (), ⟨cache.insertAll (merged.filterMap (new? tasks found)),
          stored + (merged.filterMap (new? tasks found)).length, r.after fs state asked'⟩) := by
  induction merged generalizing asked cache stored with
  | nil => exact ⟨asked, listed, rfl⟩
  | cons m rest ih =>
    cases wanted : storable? tasks m with
    | none =>
      have none : new? tasks found m = none := by rw [new?, wanted]; rfl
      rw [storeAll, wanted, List.filterMap_cons_none none]
      exact ih listed cache stored
    | some pair =>
      obtain ⟨task, signature⟩ := pair
      obtain ⟨ht, plain⟩ := storable_mem wanted
      have answer := answers task ht plain asked listed
      have listed' : ∀ p ∈ asked ++ [task.path], p ∈ Context.asked tasks :=
        fun p hp => (List.mem_append.1 hp).elim (listed p) fun hp =>
          List.mem_singleton.1 hp ▸ Context.mem_asked ht plain
      have next := r.after_single fs (r.after fs state asked) task.path
      rw [← Resolver.after_append] at next
      simp only [storeAll, wanted]
      revert answer next
      cases r.resolve fs (r.after fs state asked) task.path with
      | mk answer state' =>
        rintro rfl rfl
        cases configured : found task.path with
        | none =>
          have none : new? tasks found m = none := by
            rw [new?, wanted, Option.bind_some, configured]
            rfl
          rw [List.filterMap_cons_none none]
          exact ih listed' cache stored
        | some config =>
          have some : new? tasks found m = some (task.path,
              entryOf signature config.fingerprint m.report.result) := by
            rw [new?, wanted, Option.bind_some, configured]
            rfl
          obtain ⟨asked', listed'', ended⟩ := ih listed'
            (cache.store task.path signature config.fingerprint m.report.result) (stored + 1)
          refine ⟨asked', listed'', ended.trans ?_⟩
          rw [List.filterMap_cons_some some, List.length_cons, Nat.add_assoc, Nat.add_comm 1]
          rfl

end Cache

namespace Context
variable {ctx : Context σ} {cache : Cache} {fs : FileSystem} {world : World σ} {task : Task}
  {config : ResolvedConfig} {outcome : Outcome} {stats : Stats}

/-- The result for a task under a configuration, and the signature of its file: what the cache has,
unless fixes are wanted for its messages, or what an analysis of the file gives. -/
inductive Gives (ctx : Context σ) (cache : Cache) (fs : FileSystem) (task : Task)
    (config : ResolvedConfig) : LintResult → Signature → Prop
  | kept {e : CacheEntry} {result : LintResult} (known : cache.entry? task.path = some e)
      (hit : cache.lookup fs task.path config.fingerprint = some result)
      (usable : result.hasMessages = true → ctx.fix.isRequested = false) :
      Gives ctx cache fs task config result e.signature
  | fresh {bytes : Text.Bytes} {source : String} {result : LintResult} {signature : Signature}
      (missed : ∀ old, cache.lookup fs task.path config.fingerprint = some old →
        old.hasMessages = true ∧ ctx.fix.isRequested = true)
      (read : Signature.readAt fs task.path cache.strategy = .ok (bytes, signature))
      (text : Text.decode bytes = .ok source)
      (analyzed : (ctx.analyzer.analyze ⟨task.path, source, config, ctx.fix⟩ fs).1 = .ok result) :
      Gives ctx cache fs task config (withSource result source) signature

/-- The entry that is stored for a task: it is not ignored, has a configuration, and comes to a
result without a fixed text. -/
def Renews (ctx : Context σ) (cache : Cache) (world : World σ) (task : Task) (e : CacheEntry) :
    Prop :=
  task.ignored = false ∧ ∃ config result signature,
    (ctx.resolver.resolve world.files world.resolver task.path).1 = .ok (some config) ∧
    ctx.Gives cache world.files task config result signature ∧ result.output = none ∧
    e = Cache.entryOf signature config.fingerprint result

theorem cached_eq (present : ctx.cache = some cache) :
    ctx.cached fs task config =
      match cache.lookup fs task.path config.fingerprint with
      | none => none
      | some result =>
        if result.hasMessages && ctx.fix.isRequested then none
        else some ⟨task.index, some (ctx.report config result),
          (cache.entry? task.path).map CacheEntry.signature⟩ := by
  obtain ⟨tasks, resolver, analyzer, known, fix, warnIgnored⟩ := ctx
  obtain rfl : known = some cache := present
  rfl

theorem readSource_readAt (present : ctx.cache = some cache) {path : Path} {source : String}
    {signature : Option Signature} :
    ctx.readSource (.still fs) path = .ok (source, signature) ↔
      ∃ bytes s, Signature.readAt fs path cache.strategy = .ok (bytes, s) ∧
        Text.decode bytes = .ok source ∧ signature = some s := by
  simp only [readSource, present, Moments.still, Signature.readAt]
  cases Signature.readAcross fs fs path cache.strategy with
  | error e => simp
  | ok pair =>
    obtain ⟨bytes, s⟩ := pair
    cases decoded : Text.decode bytes <;> simp [decoded, eq_comm]

theorem analyzed_iff (present : ctx.cache = some cache)
    (answer : (ctx.analyzed task config (.still fs)).1 = .ok (outcome, stats)) {shown : FileReport}
    {signature : Signature} :
    outcome.report = some shown ∧ outcome.signature = some signature ↔
      ∃ bytes source found, Signature.readAt fs task.path cache.strategy = .ok (bytes, signature) ∧
        Text.decode bytes = .ok source ∧
        (ctx.analyzer.analyze ⟨task.path, source, config, ctx.fix⟩ fs).1 = .ok found ∧
        shown = ctx.report config (withSource found source) := by
  cases read : ctx.readSource (.still fs) task.path with
  | error e =>
    simp only [analyzed, read] at answer
    cases answer
    refine ⟨by rintro ⟨-, ⟨⟩⟩, ?_⟩
    rintro ⟨bytes, source, found, here, text, -⟩
    rw [(readSource_readAt present).2 ⟨bytes, signature, here, text, rfl⟩] at read
    cases read
  | ok pair =>
    obtain ⟨source, signed⟩ := pair
    obtain ⟨bytes, s, here, text, rfl⟩ := (readSource_readAt present).1 read
    have still : (Moments.still fs).analysis = fs := rfl
    simp only [analyzed, read, still] at answer
    cases done : ctx.analyzer.analyze ⟨task.path, source, config, ctx.fix⟩ fs with
    | mk found files =>
      rw [done] at answer
      cases found with
      | error cause => cases answer
      | ok found =>
        cases answer
        simp only [Option.some.injEq, here, Except.ok.injEq, Prod.mk.injEq]
        constructor
        · rintro ⟨rfl, rfl⟩
          exact ⟨bytes, source, found, ⟨rfl, rfl⟩, text, congrArg Prod.fst done, rfl⟩
        · rintro ⟨_, source', found', ⟨rfl, rfl⟩, text', done', rfl⟩
          rw [text] at text'
          cases text'
          rw [done] at done'
          cases done'
          exact ⟨rfl, rfl⟩

theorem gives_iff (present : ctx.cache = some cache)
    (answer : (match ctx.cached fs task config with
      | some outcome => .ok (outcome, { Stats.zero with cacheHits := 1 })
      | none => (ctx.analyzed task config (.still fs)).1 : Except Breakdown (Outcome × Stats)) =
        .ok (outcome, stats)) {shown : FileReport} {signature : Signature} :
    outcome.report = some shown ∧ outcome.signature = some signature ↔
      ∃ result, shown = ctx.report config result ∧
        ctx.Gives cache fs task config result signature := by
  have analysis : ctx.cached fs task config = none →
      (∀ old, cache.lookup fs task.path config.fingerprint = some old →
        old.hasMessages = true ∧ ctx.fix.isRequested = true) →
      (outcome.report = some shown ∧ outcome.signature = some signature ↔
        ∃ result, shown = ctx.report config result ∧
          ctx.Gives cache fs task config result signature) := by
    intro unknown missed
    rw [unknown] at answer
    refine (analyzed_iff present answer).trans ⟨?_, ?_⟩
    · rintro ⟨bytes, source, found, read, text, done, rfl⟩
      exact ⟨_, rfl, .fresh missed read text done⟩
    · rintro ⟨_, rfl, ⟨-, hit, usable⟩ | ⟨-, read, text, done⟩⟩
      · obtain ⟨messages, requested⟩ := missed _ hit
        simp [usable messages] at requested
      · exact ⟨_, _, _, read, text, done, rfl⟩
  have stored := @cached_eq _ ctx cache fs task config present
  cases hit : cache.lookup fs task.path config.fingerprint with
  | none =>
    rw [hit] at stored
    exact analysis stored (by simp [hit])
  | some old =>
    rw [hit] at stored
    by_cases unusable : (old.hasMessages && ctx.fix.isRequested) = true
    · simp only [unusable, if_true] at stored
      refine analysis stored fun old' same => ?_
      rw [hit, Option.some.injEq] at same
      rw [← same]
      simpa using unusable
    · obtain ⟨e, known, -, -, -⟩ := lookup_iff.1 hit
      simp only [unusable, Bool.false_eq_true, if_false, known, Option.map_some] at stored
      rw [stored] at answer
      cases answer
      simp only [Option.some.injEq]
      constructor
      · rintro ⟨rfl, rfl⟩
        exact ⟨old, rfl, .kept known hit fun messages => by simpa [messages] using unusable⟩
      · rintro ⟨_, rfl, ⟨known', hit', -⟩ | ⟨missed, -, -, -⟩⟩
        · rw [known] at known'
          rw [hit] at hit'
          cases known'
          cases hit'
          exact ⟨rfl, rfl⟩
        · exact absurd (by simpa using missed _ hit) unusable

end Context

namespace Cache
variable {tasks : List Task} {task : Task} {found : Path → Option ResolvedConfig}

theorem new_iff {m : Merged} (there : tasks[m.index]? = some task) {p : Path} {e : CacheEntry} :
    new? tasks found m = some (p, e) ↔
      p = task.path ∧ task.ignored = false ∧ ∃ signature config, m.signature = some signature ∧
        found task.path = some config ∧ m.report.result.output = none ∧
        e = entryOf signature config.fingerprint m.report.result := by
  unfold new? storable?
  rw [there]
  cases m.signature with
  | none => simp
  | some signature =>
    simp only
    split
    · rename_i refused
      simp only [Option.bind_none, reduceCtorEq, false_iff]
      rintro ⟨-, plain, -, -, -, -, unfixed, -⟩
      simp [plain, unfixed] at refused
    · rename_i wanted
      simp only [Bool.or_eq_true, not_or, Bool.not_eq_true, Option.isSome_eq_false_iff,
        Option.isNone_iff_eq_none] at wanted
      cases configured : found task.path <;> simp [wanted, configured, @eq_comm Path, @eq_comm CacheEntry]

end Cache

namespace Context
variable {ctx : Context σ} {cache : Cache} {world : World σ} {task : Task} {outcome : Outcome}
  {stats : Stats} {found : Path → Option ResolvedConfig}

theorem new_renews (present : ctx.cache = some cache) (there : ctx.tasks[task.index]? = some task)
    (answer : (ctx.process task world).1 = .ok (outcome, stats))
    (configured : task.ignored = false →
      (ctx.resolver.resolve world.files world.resolver task.path).1 = .ok (found task.path))
    {p : Path} {e : CacheEntry} :
    outcome.merged?.bind (Cache.new? ctx.tasks found) = some (p, e) ↔
      p = task.path ∧ ctx.Renews cache world task e := by
  have place : ctx.tasks[outcome.index]? = some task := by rw [process_index answer, there]
  have stored : outcome.merged?.bind (Cache.new? ctx.tasks found) = some (p, e) ↔
      p = task.path ∧ task.ignored = false ∧ ∃ shown signature config,
        (outcome.report = some shown ∧ outcome.signature = some signature) ∧
        found task.path = some config ∧ shown.result.output = none ∧
        e = Cache.entryOf signature config.fingerprint shown.result := by
    rw [Outcome.merged?]
    cases outcome.report with
    | none => simp
    | some shown =>
      rw [Option.map_some, Option.bind_some, Cache.new_iff place]
      simp
  refine stored.trans (and_congr_right fun _ => and_congr_right fun plain => ?_)
  have resolved := configured plain
  rw [process_plain plain, resolved] at answer
  cases config : found task.path with
  | none => simp [resolved, config]
  | some config' =>
    rw [config] at answer
    simp only [gives_iff present answer, resolved, config, Except.ok.injEq, Option.some.injEq]
    constructor
    · rintro ⟨_, signature, _, ⟨result, rfl, gives⟩, rfl, unfixed, rfl⟩
      exact ⟨_, result, signature, rfl, gives, unfixed, rfl⟩
    · rintro ⟨_, result, signature, rfl, gives, unfixed, rfl⟩
      exact ⟨_, signature, _, ⟨result, rfl, gives⟩, rfl, unfixed, rfl⟩

end Context

/-- The key under which a file has an entry, which may be another spelling of its path. -/
def Cache.keyOf (c : Cache) (path : Path) : Path := Sorted.keyIn path c.entries.entries

theorem Cache.keyOf_parts (c : Cache) (path : Path) : path.parts = (c.keyOf path).parts :=
  Path.compare_eq.1 (Sorted.compare_keyIn ..)

namespace Dispatcher
variable {d : Dispatcher σ} {tasks : List Task} {cache : Cache} {world after : World σ}
  {fs : FileSystem} {state : σ} {found : Path → Option ResolvedConfig} {r : RunReport}

theorem conclude_answers (answers : d.resolver.Answers fs state tasks found) (workers : Nat)
    (merged : List Merged) (stats : Stats) :
    let news := merged.filterMap (Cache.new? tasks found)
    let updated := cache.insertAll news
    let saved := (updated.prune fs).save fs
    ∃ asked, (∀ p ∈ asked, p ∈ Context.asked tasks) ∧
      d.conclude tasks (some cache) workers merged stats ⟨fs, state⟩ =
        (saved.1.map fun _ => ⟨merged.map Merged.report, stats, workers, some ⟨news.length,
          updated.entries.entries.countP fun e => !fs.contains e.1⟩⟩,
          ⟨saved.2, d.resolver.after fs state asked⟩) := by
  intro news updated saved
  obtain ⟨asked, listed, stored⟩ :=
    @Cache.storeAll_answers _ _ _ _ _ _ answers merged [] (by simp) cache 0
  have stored : Cache.storeAll d.resolver fs tasks ⟨cache, 0, state⟩ merged =
      (.ok (), ⟨updated, news.length, d.resolver.after fs state asked⟩) := by
    rw [← Nat.zero_add news.length]
    exact stored
  refine ⟨asked, listed, ?_⟩
  rw [← Cache.prune_size]
  simp only [conclude, closeCache, Cache.reconcile, stored, saved]
  cases (updated.prune fs).save fs with
  | mk answer files => cases answer <;> rfl

/-- What is stored at the end of a run. -/
def news (d : Dispatcher σ) (tasks : List Task) (cache : Cache) (world : World σ) :
    List (Path × CacheEntry) :=
  tasks.filterMap fun t => ((d.context tasks (some cache)).done world t).1.merged?.bind
    (Cache.new? tasks (d.resolver.config? world.files world.resolver))

def renewed (d : Dispatcher σ) (tasks : List Task) (cache : Cache) (world : World σ) : Cache :=
  cache.insertAll (d.news tasks cache world)

/-- A run under a cache that was loaded, when no worker has failed. All tasks are answered as they
would be at the end, when nothing but the state of the resolver has changed. -/
structure Processed (d : Dispatcher σ) (tasks : List Task) (world : World σ) (state : σ)
    (loaded : Cache) : Prop where
  numbered : Task.misnumbered? tasks = none
  opened : Cache.load world.files (d.cacheFile world.files) d.options.cacheStrategy = .ok loaded
  noError : (d.pool tasks (some loaded) world).firstError = none
  asked : ∃ asked, (∀ p ∈ asked, p ∈ Context.asked tasks) ∧
    (d.pool tasks (some loaded) world).shared.world.resolver =
      d.resolver.after world.files world.resolver asked
  closed : ∃ asked, (∀ p ∈ asked, p ∈ Context.asked tasks) ∧
    state = d.resolver.after world.files (d.pool tasks (some loaded) world).shared.world.resolver
      asked
  answers : d.resolver.Answers world.files
    (d.pool tasks (some loaded) world).shared.world.resolver tasks
    (d.resolver.config? world.files state)
  done : ∀ t ∈ tasks, ((d.context tasks (some loaded)).process t ⟨world.files, state⟩).1 =
    .ok ((d.context tasks (some loaded)).done ⟨world.files, state⟩ t)

theorem lintTasks_processed (wanted : d.options.cache = true)
    (room : 2 * tasks.length < UInt64.size) (quiet : d.analyzer.Quiet)
    (stable : d.resolver.Stable world.files) :
    (∃ e state, d.lintTasks tasks world = (.error e, ⟨world.files, state⟩)) ∨
      ∃ loaded state workers, d.Processed tasks world state loaded ∧
        let ctx := d.context tasks (some loaded)
        let last : World σ := ⟨world.files, state⟩
        let renewed := d.renewed tasks loaded last
        let saved := (renewed.prune world.files).save world.files
        d.lintTasks tasks world =
          (saved.1.map fun _ => ⟨tasks.filterMap fun t => (ctx.done last t).1.report,
            (tasks.map fun t => (ctx.done last t).2).sum, workers,
            some ⟨(d.news tasks loaded last).length,
              renewed.entries.entries.countP fun e => !world.files.contains e.1⟩⟩,
            ⟨saved.2, state⟩) := by
  cases numbered : Task.misnumbered? tasks with
  | some wrong => exact .inl ⟨_, world.resolver, by rw [lintTasks, numbered]⟩
  | none =>
  have opened : d.openCache world.files =
      ((Cache.load world.files (d.cacheFile world.files) d.options.cacheStrategy).map some,
        world.files) := if_pos wanted
  cases load : Cache.load world.files (d.cacheFile world.files) d.options.cacheStrategy with
  | error e =>
    rw [load] at opened
    exact .inl ⟨e, world.resolver, by simp only [lintTasks, numbered, opened, Except.map]⟩
  | ok loaded =>
  rw [load] at opened
  have ran : d.lintTasks tasks world = d.runWorkers tasks (some loaded) world :=
    lintTasks_opened numbered opened
  cases none : (d.pool tasks (some loaded) world).firstError with
  | some e => exact .inl ⟨e, _, ran.trans (runWorkers_broken room quiet none)⟩
  | none =>
  obtain ⟨workers, asked, listed, begun, answers, done, ended⟩ :=
    runWorkers_finished numbered room quiet stable none
  let ctx := d.context tasks (some loaded)
  let fs := world.files
  let first := d.resolver.after fs world.resolver asked
  obtain ⟨asked', listed', concluded⟩ := @conclude_answers _ d tasks loaded fs first
    (d.resolver.config? fs first) answers workers
    (tasks.filterMap fun t => (ctx.done ⟨fs, first⟩ t).1.merged?)
    (tasks.map fun t => (ctx.done ⟨fs, first⟩ t).2).sum
  let last := d.resolver.after fs first asked'
  have found : ∀ t ∈ tasks, t.ignored = false →
      d.resolver.config? fs last t.path = d.resolver.config? fs first t.path :=
    fun t ht plain => Resolver.config_found (answers t ht plain asked' listed')
  have answer : ∀ t ∈ tasks, (ctx.process t ⟨fs, last⟩).1 = (ctx.process t ⟨fs, first⟩).1 := by
    refine fun t ht => Context.process_answer ctx t fun plain => ?_
    calc (d.resolver.resolve fs last t.path).1 = .ok (d.resolver.config? fs first t.path) :=
          answers t ht plain asked' listed'
      _ = (d.resolver.resolve fs first t.path).1 := (answers t ht plain [] (by simp)).symm
  have same : ∀ t ∈ tasks, ctx.done ⟨fs, last⟩ t = ctx.done ⟨fs, first⟩ t :=
    fun t ht => by rw [Context.done, Context.done, answer t ht]
  have news : d.news tasks loaded ⟨fs, last⟩ = (tasks.filterMap fun t =>
      (ctx.done ⟨fs, first⟩ t).1.merged?).filterMap
        (Cache.new? tasks (d.resolver.config? fs first)) := by
    rw [Dispatcher.news, List.filterMap_filterMap]
    refine List.filterMap_congr fun t ht => ?_
    simp only [ctx] at same
    simp only [same t ht, funext (Cache.new_congr fun t ht plain =>
      congrArg (Option.map ResolvedConfig.fingerprint) (found t ht plain))]
    rfl
  have reports : (tasks.filterMap fun t => (ctx.done ⟨fs, first⟩ t).1.merged?).map Merged.report =
      tasks.filterMap fun t => (ctx.done ⟨fs, last⟩ t).1.report := by
    rw [merged_reports]
    exact List.filterMap_congr fun t ht => by rw [same t ht]
  have stats : (tasks.map fun t => (ctx.done ⟨fs, first⟩ t).2) =
      tasks.map fun t => (ctx.done ⟨fs, last⟩ t).2 :=
    List.map_congr_left fun t ht => by rw [same t ht]
  refine .inr ⟨loaded, last, workers, ⟨numbered, load, none, ⟨asked, listed, begun⟩,
    ⟨asked', listed', by rw [begun]⟩, ?_, ?_⟩, ?_⟩
  · intro t ht plain more listed''
    rw [begun, found t ht plain]
    exact answers t ht plain more listed''
  · intro t ht
    calc (ctx.process t ⟨fs, last⟩).1 = (ctx.process t ⟨fs, first⟩).1 := answer t ht
      _ = .ok (ctx.done ⟨fs, first⟩ t) := done t ht
      _ = .ok (ctx.done ⟨fs, last⟩ t) := by rw [same t ht]
  · rw [← news, reports, stats] at concluded
    simp only [ctx, fs, first] at stats
    rw [stats] at ended
    calc d.lintTasks tasks world = d.runWorkers tasks (some loaded) world := ran
      _ = d.conclude tasks (some loaded) workers _ _ ⟨fs, first⟩ := ended
      _ = _ := concluded

namespace Processed
variable {loaded : Cache}

theorem resolved (h : d.Processed tasks world state loaded) {t : Task} (ht : t ∈ tasks)
    (plain : t.ignored = false) :
    (d.resolver.resolve world.files state t.path).1 =
      .ok (d.resolver.config? world.files state t.path) := by
  obtain ⟨asked, listed, same⟩ := h.closed
  have answer := h.answers t ht plain asked listed
  rwa [← same] at answer

theorem resolved_steady (h : d.Processed tasks world state loaded)
    (steady : d.resolver.Steady world.files world.resolver (Context.asked tasks)) {t : Task}
    (ht : t ∈ tasks) (plain : t.ignored = false) :
    (d.resolver.resolve world.files state t.path).1 =
      (d.resolver.resolve world.files world.resolver t.path).1 := by
  obtain ⟨first, listed, begun⟩ := h.asked
  obtain ⟨rest, listed', ended⟩ := h.closed
  rw [ended, begun, ← Resolver.after_append]
  exact steady _ (List.forall_mem_append.2 ⟨listed, listed'⟩) _ (mem_asked ht plain)

theorem new_iff (h : d.Processed tasks world state loaded) {t : Task} (ht : t ∈ tasks) {p : Path}
    {e : CacheEntry} :
    ((d.context tasks (some loaded)).done ⟨world.files, state⟩ t).1.merged?.bind
        (Cache.new? tasks (d.resolver.config? world.files state)) = some (p, e) ↔
      p = t.path ∧ (d.context tasks (some loaded)).Renews loaded ⟨world.files, state⟩ t e := by
  obtain ⟨i, there⟩ := List.mem_iff_getElem?.1 ht
  have place : tasks[t.index]? = some t := by rw [Task.index_eq h.numbered there, there]
  exact @Context.new_renews _ (d.context tasks (some loaded)) loaded ⟨world.files, state⟩ t
    _ _ _ rfl place (h.done t ht) (fun plain => h.resolved ht plain) p e

theorem mem_news (h : d.Processed tasks world state loaded) {p : Path} {e : CacheEntry} :
    (p, e) ∈ d.news tasks loaded ⟨world.files, state⟩ ↔ ∃ t ∈ tasks, p = t.path ∧
      (d.context tasks (some loaded)).Renews loaded ⟨world.files, state⟩ t e := by
  rw [news, List.mem_filterMap]
  exact exists_congr fun t => and_congr_right fun ht => h.new_iff ht

theorem distinct_news (h : d.Processed tasks world state loaded)
    (distinct : (tasks.map fun t => t.path.parts).Nodup) :
    Sorted.Distinct (d.news tasks loaded ⟨world.files, state⟩) := by
  refine List.pairwise_filterMap.2 ((List.pairwise_map.1 distinct).imp_of_mem ?_)
  rintro t t' ht ht' apart ⟨p, e⟩ new ⟨p', e'⟩ new'
  obtain ⟨rfl, -⟩ := (h.new_iff ht).1 new
  obtain ⟨rfl, -⟩ := (h.new_iff ht').1 new'
  exact fun same => apart (Path.compare_eq.1 same)

/-- Every task that renews its entry does so under the key that the cache has for its file; all other
entries stay. -/
theorem mem_renewed (h : d.Processed tasks world state loaded)
    (distinct : (tasks.map fun t => t.path.parts).Nodup) {key : Path} {e : CacheEntry} :
    let renews := (d.context tasks (some loaded)).Renews loaded ⟨world.files, state⟩
    (key, e) ∈ (d.renewed tasks loaded ⟨world.files, state⟩).entries.entries ↔
      (∃ t ∈ tasks, key = loaded.keyOf t.path ∧ renews t e) ∨
        (key, e) ∈ loaded.entries.entries ∧
          ∀ t ∈ tasks, t.path.parts = key.parts → ∀ e', ¬renews t e' := by
  refine (Sorted.mem_insertAll (h.distinct_news distinct)).trans (or_congr ?_ ?_)
  · constructor
    · rintro ⟨⟨p, e'⟩, mem, rfl, rfl⟩
      obtain ⟨t, ht, rfl, renews⟩ := h.mem_news.1 mem
      exact ⟨t, ht, rfl, renews⟩
    · rintro ⟨t, ht, rfl, renews⟩
      exact ⟨(t.path, e), h.mem_news.2 ⟨t, ht, rfl, renews⟩, rfl, rfl⟩
  · refine and_congr_right fun _ => ⟨fun apart t ht same e' renews => ?_, fun apart => ?_⟩
    · exact apart (t.path, e') (h.mem_news.2 ⟨t, ht, rfl, renews⟩) (Path.compare_eq.2 same)
    · rintro ⟨p, e'⟩ mem same
      obtain ⟨t, ht, rfl, renews⟩ := h.mem_news.1 mem
      exact apart t ht (Path.compare_eq.1 same) e' renews

end Processed

/-- A run with a cache that was loaded and saved. -/
structure Cached (d : Dispatcher σ) (tasks : List Task) (world after : World σ) (r : RunReport)
    (loaded : Cache) : Prop extends Processed d tasks world after.resolver loaded where
  files : r.files = tasks.filterMap fun t =>
    ((d.context tasks (some loaded)).done ⟨world.files, after.resolver⟩ t).1.report
  stats : r.stats = (tasks.map fun t =>
    ((d.context tasks (some loaded)).done ⟨world.files, after.resolver⟩ t).2).sum
  saved : ((d.renewed tasks loaded ⟨world.files, after.resolver⟩).prune world.files).save
    world.files = (.ok (), after.files)
  changes : r.cache = some ⟨(d.news tasks loaded ⟨world.files, after.resolver⟩).length,
    (d.renewed tasks loaded ⟨world.files, after.resolver⟩).entries.entries.countP
      fun e => !world.files.contains e.1⟩

theorem lintTasks_cached (wanted : d.options.cache = true) (room : 2 * tasks.length < UInt64.size)
    (quiet : d.analyzer.Quiet) (stable : d.resolver.Stable world.files)
    (ok : d.lintTasks tasks world = (.ok r, after)) :
    ∃ loaded, d.Cached tasks world after r loaded := by
  rcases @lintTasks_processed _ d tasks world wanted room quiet stable with
    ⟨e, state, failed⟩ | ⟨loaded, state, workers, processed, ended⟩
  · rw [ok] at failed
    cases failed
  rw [ok] at ended
  dsimp only at ended
  revert ended
  cases saved : ((d.renewed tasks loaded ⟨world.files, state⟩).prune world.files).save
      world.files with
  | mk answer files =>
    cases answer with
    | error e => rintro ⟨⟩
    | ok =>
      rintro ⟨⟩
      exact ⟨loaded, processed, rfl, rfl, saved, rfl⟩

theorem Cached.mem_saved {loaded : Cache} (h : d.Cached tasks world after r loaded)
    (distinct : (tasks.map fun t => t.path.parts).Nodup) {t : Task} (ht : t ∈ tasks)
    (key : loaded.keyOf t.path = t.path) (there : world.files.contains t.path = true)
    {e : CacheEntry}
    (renews : (d.context tasks (some loaded)).Renews loaded ⟨world.files, after.resolver⟩ t e) :
    (t.path, e) ∈ ((d.renewed tasks loaded ⟨world.files, after.resolver⟩).prune
      world.files).entries.entries :=
  List.mem_filter.2 ⟨(h.mem_renewed distinct).2 (.inl ⟨t, ht, key.symm, renews⟩), there⟩

theorem lintTasks_saves (wanted : d.options.cache = true)
    (numbered : Task.misnumbered? tasks = none) (room : 2 * tasks.length < UInt64.size)
    (quiet : d.analyzer.Quiet) (stable : d.resolver.Stable world.files) {loaded : Cache}
    (load : Cache.load world.files (d.cacheFile world.files) d.options.cacheStrategy = .ok loaded)
    (none : (d.pool tasks (some loaded) world).firstError = none)
    (saves : ∀ c : Cache, c.path = d.cacheFile world.files →
      ∃ files, c.save world.files = (.ok (), files)) :
    ∃ r after, d.lintTasks tasks world = (.ok r, after) := by
  have opened : d.openCache world.files = (.ok (some loaded), world.files) := by
    rw [openCache, if_pos wanted, load]
    rfl
  obtain ⟨workers, asked, -, -, answers, -, ended⟩ :=
    runWorkers_finished numbered room quiet stable none
  let state := d.resolver.after world.files world.resolver asked
  let ctx := d.context tasks (some loaded)
  let merged := tasks.filterMap fun t => (ctx.done ⟨world.files, state⟩ t).1.merged?
  obtain ⟨asked', -, concluded⟩ := @conclude_answers _ d tasks loaded _ _ _ answers workers merged
    (tasks.map fun t => (ctx.done ⟨world.files, state⟩ t).2).sum
  let updated := loaded.insertAll
    (merged.filterMap (Cache.new? tasks (d.resolver.config? world.files state)))
  obtain ⟨files, saved⟩ := saves (updated.prune world.files) (Cache.load_place load).1
  rw [saved] at concluded
  have ran := lintTasks_opened numbered opened
  exact ⟨_, _, ran.trans (ended.trans concluded)⟩

/-- Text rules under an empty configuration, with a cache right below the root. -/
def plainRules : Dispatcher Unit where
  options := { Options.standard ⟨"/"⟩ with cache := true, cacheLocation := ⟨"c"⟩ }
  analyzer := textRules
  resolver := .single (.ofConfig .empty none)
  parallelism := 1
  schedule := []

theorem plainRules_quiet : plainRules.analyzer.Quiet := fun _ _ => rfl

theorem plainRules_stable (fs : FileSystem) : plainRules.resolver.Stable fs := by
  rintro _ _ _ ⟨⟩ _
  rfl

section Former
open FileSystem

def formerEntry : CacheEntry := ⟨⟨1, some 0, none⟩, ⟨""⟩, .ofMessages ⟨""⟩ [], false⟩

def formerCache : Cache :=
  ⟨top "c", .metadata,
    .ofList [(top "b", formerEntry), (top "d", formerEntry), (top "e", formerEntry)]⟩

def formerFiles : FileSystem :=
  ⟨[(["b"], .file [] 0), (["d"], .file [] 0), (["c"], .file formerCache.bytes 0)], [], 0⟩

variable {b d e : CacheEntry} {p : Path} {known : CacheEntry}

theorem three_distinct : Sorted.Distinct [(top "b", b), (top "d", d), (top "e", e)] := by
  simp only [Sorted.Distinct, ne_eq, Path.compare_eq, List.pairwise_cons, List.mem_cons,
    List.not_mem_nil, or_false, forall_eq_or_imp, forall_eq, false_imp_iff, implies_true]
  decide

theorem mem_three : (p, known) ∈
      (Sorted.ofList [(top "b", b), (top "d", d), (top "e", e)]).entries ↔
    p = top "b" ∧ known = b ∨ p = top "d" ∧ known = d ∨ p = top "e" ∧ known = e := by
  rw [(Sorted.ofList_perm three_distinct).mem_iff]
  simp

theorem formerCache_small : formerCache.Small := by
  have small : formerEntry.Small := ⟨⟨by decide, by rintro n ⟨⟩; decide⟩,
    ⟨by rintro m ⟨⟩, by rintro m ⟨⟩, by decide, by decide, by decide, by decide, by decide⟩⟩
  rintro ⟨p, known⟩ mem
  rcases mem_three.1 mem with ⟨-, rfl⟩ | ⟨-, rfl⟩ | ⟨-, rfl⟩ <;> exact small

theorem former_status {name : String} (own : Path.OwnName name) {bytes : Text.Bytes}
    (here : formerFiles.statusAt? [name] = some (.file bytes 0)) :
    formerFiles.status (top name) = .ok (.file bytes 0) :=
  status_top own here

theorem former_place : plainRules.cacheFile formerFiles = top "c" :=
  locate_top (by decide) (by rw [isDirectory, former_status (by decide) rfl])

theorem former_load : Cache.load formerFiles (plainRules.cacheFile formerFiles)
    plainRules.options.cacheStrategy = .ok formerCache := by
  rw [former_place, Cache.load_read (read_iff.2 ⟨0, former_status (by decide) rfl⟩),
    Cache.ofBytes_bytes formerCache_small]
  rfl

theorem former_ran : ∃ r after, plainRules.lintTasks [⟨0, top "b", false⟩] ⟨formerFiles, ()⟩ =
    (.ok r, after) := by
  have answered := @Context.steady_done _
    (plainRules.context [⟨0, top "b", false⟩] (some formerCache)) ⟨formerFiles, ()⟩
    plainRules_quiet (fun _ _ _ _ => rfl) fun t _ =>
      Context.process_answered (fun _ _ => ⟨_, rfl⟩) fun _ => ⟨_, rfl⟩
  exact lintTasks_saves rfl rfl (by decide) plainRules_quiet (plainRules_stable _) former_load
    (pool_noError (by decide) answered) fun c path =>
      ⟨_, Cache.save_top (by decide) (path.trans former_place) (by rintro ⟨⟩)⟩

theorem former_renews : ∃ new : CacheEntry, new ≠ formerEntry ∧
    (plainRules.context [⟨0, top "b", false⟩] (some formerCache)).Renews formerCache
      ⟨formerFiles, ()⟩ ⟨0, top "b", false⟩ new := by
  have status : formerFiles.status (top "b") = .ok (.file [] 0) := former_status (by decide) rfl
  have known : formerCache.entry? (top "b") = some formerEntry :=
    (Sorted.find?_iff _).2 ⟨_, mem_three.2 (.inl ⟨rfl, rfl⟩), Std.ReflCmp.compare_self⟩
  have missed (config : Fingerprint) : formerCache.lookup formerFiles (top "b") config = none := by
    refine Option.eq_none_iff_forall_ne_some.2 fun result hit => ?_
    obtain ⟨e, known', -, signed, -⟩ := Context.lookup_iff.1 hit
    rw [known] at known'
    cases known'
    rw [Signature.compute, status] at signed
    exact absurd signed (by decide)
  have read : Signature.readAt formerFiles (top "b") .metadata = .ok ([], ⟨0, some 0, none⟩) := by
    rw [Signature.readAt, Signature.readAcross, status, FileSystem.read, status]
    rfl
  exact ⟨_, fun same => absurd (congrArg (Signature.size ∘ CacheEntry.signature) same) (by decide),
    rfl, _, _, _, rfl, .fresh (by simp [missed]) read rfl rfl, rfl, rfl⟩

end Former

end Dispatcher
end ParallelLint
