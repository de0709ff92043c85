import ParallelLint.Proofs.Cache.Paths
import ParallelLint.Proofs.Dispatch.Fixing
import ParallelLint.Proofs.Dispatch.Unreadable
import ParallelLint.Proofs.Pool.Ledger

set_option autoImplicit false

/-!
The account of a run. A task ends in one of six ways, and which one it was is told by its report and
by the counts: every task that a run without a failure is given is among its results or is skipped,
and is counted once or is one of those that have no count of their own.
-/
namespace ParallelLint
variable {σ : Type}

/-- The ways in which a task ends. -/
inductive Fate where
  | skipped | ignored | unconfigured | cached | unreadable | analyzed
  deriving DecidableEq, Repr

def Fate.stats : Fate → Stats
  | .skipped => { Stats.zero with skipped := 1 }
  | .ignored => { Stats.zero with ignored := 1 }
  | .cached => { Stats.zero with cacheHits := 1 }
  | .analyzed => { Stats.zero with analyzed := 1 }
  | .unconfigured | .unreadable => .zero

theorem Fate.sum_stats (fates : List Fate) :
    (fates.map Fate.stats).sum = ⟨fates.count .analyzed, fates.count .cached,
      fates.count .skipped, fates.count .ignored⟩ := by
  induction fates with
  | nil => rfl
  | cons fate rest ih =>
    rw [List.map_cons, List.sum_cons, ih, ← Stats.add_eq]
    cases fate <;> simp [Stats.add, Fate.stats, Stats.zero, Nat.add_comm]

theorem Fate.count_all (fates : List Fate) :
    fates.count .analyzed + fates.count .cached + fates.count .skipped + fates.count .ignored +
      fates.count .unconfigured + fates.count .unreadable = fates.length := by
  induction fates with
  | nil => rfl
  | cons fate rest ih =>
    rw [List.length_cons, ← ih]
    cases fate <;> simp <;> omega

/-- The analyzer gives results for the path that it is asked about. -/
def Analyzer.KeepsPath (a : Analyzer) : Prop :=
  ∀ request files result, (a.analyze request files).1 = .ok result →
    result.path.parts = request.path.parts

namespace Context

theorem report_path (ctx : Context σ) (config : ResolvedConfig) (result : LintResult) :
    (ctx.report config result).result.path = result.path := rfl

theorem withSource_path (result : LintResult) (source : String) :
    (withSource result source).path = result.path := by
  unfold withSource
  split <;> rfl

/-- How a task ends that sees the file system at some moments, and what is reported about it. -/
inductive Ends (ctx : Context σ) (task : Task) (see : Moments) (state : σ) :
    Fate → Option FileReport → Prop where
  | skipped (ignored : task.ignored = true) (quiet : ctx.warnIgnored = false) :
      Ends ctx task see state .skipped none
  | ignored (ignored : task.ignored = true) (warned : ctx.warnIgnored = true) :
      Ends ctx task see state .ignored (some (LintResult.ignored task.path).alone)
  | unconfigured (plain : task.ignored = false)
      (unfound : (ctx.resolver.resolve see.resolving state task.path).1 = .ok none) :
      Ends ctx task see state .unconfigured (some (LintResult.unconfigured task.path).alone)
  | cached {config : ResolvedConfig} {outcome : Outcome} (plain : task.ignored = false)
      (found : (ctx.resolver.resolve see.resolving state task.path).1 = .ok (some config))
      (hit : ctx.cached see.lookup task config = some outcome) :
      Ends ctx task see state .cached outcome.report
  | unreadable {config : ResolvedConfig} {e : FileError} (plain : task.ignored = false)
      (found : (ctx.resolver.resolve see.resolving state task.path).1 = .ok (some config))
      (missed : ctx.cached see.lookup task config = none)
      (unread : ctx.readSource see task.path = .error e) :
      Ends ctx task see state .unreadable (some (LintResult.readFailure task.path e).alone)
  | analyzed {config : ResolvedConfig} {source : String} {signature : Option Signature}
      {result : LintResult} (plain : task.ignored = false)
      (found : (ctx.resolver.resolve see.resolving state task.path).1 = .ok (some config))
      (missed : ctx.cached see.lookup task config = none)
      (read : ctx.readSource see task.path = .ok (source, signature))
      (answer : (ctx.analyzer.analyze ⟨task.path, source, config, ctx.fix⟩ see.analysis).1 =
        .ok result) :
      Ends ctx task see state .analyzed (some (ctx.report config (withSource result source)))

variable {ctx : Context σ} {task : Task} {see : Moments} {state : σ} {fate : Fate}
  {report : Option FileReport} {outcome : Outcome} {stats : Stats}

theorem processAcross_ends (answer : (ctx.processAcross task see state).1 = .ok (outcome, stats)) :
    ∃ fate, ctx.Ends task see state fate outcome.report ∧ stats = fate.stats := by
  unfold processAcross at answer
  split at answer
  · rename_i ignored
    split at answer
    · rename_i warned
      cases answer
      exact ⟨.ignored, .ignored ignored warned, rfl⟩
    · rename_i quiet
      cases answer
      exact ⟨.skipped, .skipped ignored (by simpa using quiet), rfl⟩
  · rename_i plain
    have plain : task.ignored = false := by simpa using plain
    split at answer
    · cases answer
    · rename_i resolved
      cases answer
      exact ⟨.unconfigured, .unconfigured plain (by rw [resolved]), rfl⟩
    · rename_i config next resolved
      have found : (ctx.resolver.resolve see.resolving state task.path).1 = .ok (some config) := by
        rw [resolved]
      split at answer
      · rename_i hit
        cases answer
        exact ⟨.cached, .cached plain found hit, rfl⟩
      · rename_i missed
        unfold analyzed at answer
        simp only at answer
        split at answer
        · rename_i unread
          cases answer
          exact ⟨.unreadable, .unreadable plain found missed unread, rfl⟩
        · rename_i read
          split at answer
          · cases answer
          · rename_i analyzed
            cases answer
            exact ⟨.analyzed, .analyzed plain found missed read (by rw [analyzed]), rfl⟩

namespace Ends
variable (ends : ctx.Ends task see state fate report)
include ends

theorem shown : report.isSome = (!task.ignored || ctx.warnIgnored) := by
  cases ends with
  | skipped ignored quiet => simp [ignored, quiet]
  | ignored ignored warned => simp [ignored, warned]
  | unconfigured plain | unreadable plain | analyzed plain => simp [plain]
  | cached plain found hit =>
    obtain ⟨_, _, _, -, -, -, -, rfl⟩ := cached_ok hit
    simp [plain]

theorem skipped_iff : fate = .skipped ↔ task.ignored = true ∧ ctx.warnIgnored = false := by
  cases ends with
  | skipped ignored quiet => simp [ignored, quiet]
  | ignored ignored warned => simp [ignored, warned]
  | unconfigured plain | unreadable plain | analyzed plain | cached plain => simp [plain]

theorem ignored_iff : fate = .ignored ↔ task.ignored = true ∧ ctx.warnIgnored = true := by
  cases ends with
  | skipped ignored quiet => simp [ignored, quiet]
  | ignored ignored warned => simp [ignored, warned]
  | unconfigured plain | unreadable plain | analyzed plain | cached plain => simp [plain]

theorem unconfigured_iff : fate = .unconfigured ↔ task.ignored = false ∧
    (ctx.resolver.resolve see.resolving state task.path).1 = .ok none := by
  cases ends with
  | skipped ignored | ignored ignored => simp [ignored]
  | unconfigured plain unfound => simp [plain, unfound]
  | unreadable plain found | analyzed plain found | cached plain found => simp [found]

theorem unreadable_iff : fate = .unreadable ↔ task.ignored = false ∧ ∃ config,
    (ctx.resolver.resolve see.resolving state task.path).1 = .ok (some config) ∧
      ctx.cached see.lookup task config = none ∧
      ∃ e, ctx.readSource see task.path = .error e := by
  cases ends with
  | skipped ignored | ignored ignored => simp [ignored]
  | unconfigured plain unfound => simp [unfound]
  | cached plain found hit => simp [found, hit]
  | unreadable plain found missed unread => simp [plain, found, missed, unread]
  | analyzed plain found missed read => simp [found, read]

theorem path (keeps : ctx.analyzer.KeepsPath)
    (named : ∀ cache, ctx.cache = some cache → cache.All CacheEntry.Named)
    {r : FileReport} (reported : report = some r) : r.result.path.parts = task.path.parts := by
  cases ends with
  | skipped => cases reported
  | ignored | unconfigured | unreadable =>
    cases reported
    rfl
  | cached plain found hit =>
    obtain ⟨cache, result, signature, present, known, -, -, rfl⟩ := cached_ok hit
    cases Option.some.inj reported
    obtain ⟨e, entry, -, -, restored⟩ := lookup_iff.1 known
    obtain ⟨key, mem, same⟩ := (Sorted.find?_iff _).1 entry
    have here : e.Named key := named cache present (key, e) mem
    have kept := congrArg LintResult.path (Cache.restore_result restored)
    rw [report_path, Path.compare_eq.1 same]
    exact (congrArg Path.parts kept).trans here
  | @analyzed config source signature result plain found missed read answer =>
    cases Option.some.inj reported
    have kept := keeps ⟨task.path, source, config, ctx.fix⟩ see.analysis result answer
    rw [report_path, withSource_path]
    exact kept

end Ends

/-- The world as a task finds it that is processed when the tasks before it in the log have been. -/
def turn (ctx : Context σ) (start : World σ) (log : List Task) (task : Task) : World σ :=
  ctx.after start (log.takeWhile (· ≠ task))

theorem turn_eq (ctx : Context σ) (start : World σ) {log earlier later : List Task} {task : Task}
    (once : log.Nodup) (parts : log = earlier ++ task :: later) :
    ctx.turn start log task = ctx.after start earlier := by
  subst parts
  have before : ∀ t ∈ earlier, (decide (t ≠ task)) = true := by
    intro t ht
    refine decide_eq_true fun same => ?_
    exact (List.nodup_append.1 once).2.2 t ht task (List.mem_cons_self ..) same
  rw [turn, List.takeWhile_append_of_pos before, List.takeWhile_cons_of_neg (by simp),
    List.append_nil]

theorem Gave.at_turn {start : World σ} {log : List Task} {answer : Answer}
    (gave : ctx.Gave start log task answer) (once : log.Nodup) :
    (ctx.process task (ctx.turn start log task)).1 = answer := by
  obtain ⟨earlier, later, parts, same⟩ := gave
  rwa [ctx.turn_eq start once parts]

end Context

theorem Finished.answered {gave : Task → Answer → Prop} {tasks : List Task}
    {outcomes : List Outcome} {sum : Stats} (f : Finished gave tasks outcomes sum) :
    ∀ t ∈ tasks, ∃ done, gave t (.ok done) := by
  induction f with
  | nil => exact fun t ht => absurd ht List.not_mem_nil
  | cons answer _ ih =>
    intro t ht
    rcases List.mem_cons.1 ht with rfl | ht
    · exact ⟨_, answer⟩
    · exact ih t ht

namespace Dispatcher
variable {d : Dispatcher σ} {tasks : List Task} {cache : Option Cache} {world after : World σ}
  {r : RunReport}

theorem conclude_stats {workers : Nat} {merged : List Merged} {stats : Stats}
    (h : d.conclude tasks cache workers merged stats world = (.ok r, after)) : r.stats = stats := by
  unfold conclude at h
  split at h
  · cases h
    rfl
  · simp only at h
    split at h <;> cases h
    rfl

theorem conclude_saves {loaded : Cache} {workers : Nat} {merged : List Merged} {stats : Stats}
    {holds : Path → CacheEntry → Prop} (entries : loaded.All holds)
    (new : ∀ m ∈ merged, ∀ task signature, Cache.storable? tasks m = some (task, signature) →
      ∀ fingerprint, Cache.Holds holds task.path
        (Cache.entryOf signature fingerprint m.report.result))
    (h : d.conclude tasks (some loaded) workers merged stats world = (.ok r, after)) :
    ∃ saved : Cache, saved.path = loaded.path ∧ saved.All holds ∧
      saved.save world.files = (.ok (), after.files) := by
  rcases @conclude_cases _ d world.files world.resolver tasks (fun _ => True) holds loaded merged
    workers stats entries trivial (fun _ _ _ _ _ => trivial)
    (fun m hm task signature wanted _ _ config _ =>
      new m hm task signature wanted config.fingerprint)
    with ⟨e, failed, -⟩ | ⟨saved, all, path, -, files, ⟨e, failed, -⟩ | ⟨changes, -, done⟩⟩
  · cases (congrArg Prod.fst h).symm.trans failed
  · cases (congrArg Prod.fst h).symm.trans failed
  · have left := congrArg (fun a => a.2.files) h
    exact ⟨saved, path, all, Prod.ext done (files.symm.trans left)⟩

def doneAt (d : Dispatcher σ) (tasks : List Task) (cache : Option Cache) (world : World σ)
    (log : List Task) (task : Task) : Outcome × Stats :=
  let ctx := d.context tasks cache
  ctx.done (ctx.turn world log task) task

/-- A run that is over without a failure has processed every task once, and closes with what the
tasks have come to in their turns. -/
theorem runWorkers_turns (numbered : Task.misnumbered? tasks = none)
    (room : 2 * tasks.length < UInt64.size)
    (ok : d.runWorkers tasks cache world = (.ok r, after)) :
    ∃ log, log.Perm tasks ∧
      let ctx := d.context tasks cache
      let done := d.doneAt tasks cache world log
      let pool := d.pool tasks cache world
      (∀ t ∈ tasks, (ctx.process t (ctx.turn world log t)).1 = .ok (done t)) ∧
      pool.output.outcomes.Perm (tasks.map fun t => (done t).1) ∧
      ∃ workers, d.conclude tasks cache workers (tasks.filterMap fun t => (done t).1.merged?)
        (tasks.map fun t => (done t).2).sum pool.shared.world = (.ok r, after) := by
  let ctx := d.context tasks cache
  obtain ⟨reached, some, ended⟩ := d.pool_reached tasks cache world room
  obtain ⟨log, claims, taken, ledger⟩ := (Pool.start_ledger ctx world _).reaches
    (by rw [Pool.start_length]; exact d.workers_room room) reached
  rw [runWorkers_pool] at ok
  split at ok
  · cases ok
  rename_i unbroken
  have stopped := ended unbroken
  have all : log.Perm tasks := ledger.complete some stopped
  have once : log.Nodup := by
    have indices : (tasks.map Task.index).Nodup := by
      rw [Task.indices numbered]
      exact List.nodup_range
    exact all.nodup_iff.2 (List.Nodup.of_map _ indices)
  obtain ⟨shared, finished⟩ := ledger.sound.complete some stopped
  have answered : ∀ t ∈ tasks,
      (ctx.process t (ctx.turn world log t)).1 = .ok (d.doneAt tasks cache world log t) := by
    intro t ht
    refine Context.process_done ?_
    obtain ⟨c, hc, mem⟩ := List.mem_flatMap.1 (shared.mem_iff.2 ht)
    obtain ⟨done, gave⟩ := (finished c hc).answered t mem
    exact ⟨done, gave.at_turn once⟩
  have answers : ∀ t e, ctx.Gave world log t (.ok e) → e = d.doneAt tasks cache world log t := by
    intro t e gave
    have answer := gave.at_turn once
    rw [doneAt, Context.done, answer]
  obtain ⟨outcomes, stats⟩ := ledger.sound.output answers some stopped
  have indexed : ∀ t ∈ tasks, (d.doneAt tasks cache world log t).1.index = t.index := fun t ht =>
    Context.process_index (answered t ht)
  have sorted := mergeOutcomes_perm outcomes.symm (distinct_indices numbered indexed) tasks.length
  have merged := sorted.symm.trans (mergeOutcomes_map numbered indexed)
  rw [merged, stats] at ok
  exact ⟨log, all, answered, outcomes, _, ok⟩

end Dispatcher

namespace Run
variable {c : Run} {r : RunReport}

/-- A run with a cache whose analyzer gives results for the paths that it is asked about. -/
structure KeepsPaths (c : Run) : Prop where
  analyzer : c.dispatcher.analyzer.KeepsPath
  cache : c.dispatcher.options.cache = true
  room : 2 * c.tasks.length < UInt64.size
  ok : ∃ r, c.answer.1 = .ok r

/-- The cache file that the run finds, if there is one, has named entries. -/
def FindsNamed (c : Run) : Prop :=
  ∀ bytes, c.world.files.read c.cacheFile = .ok bytes →
    Cache.Written (fun _ => CacheEntry.Named) bytes

theorem FindsNamed.opened (h : c.FindsNamed) {cache : Option Cache} {opened : FileSystem}
    (found : c.dispatcher.openCache c.world.files = (.ok cache, opened)) :
    ∀ loaded, cache = some loaded → loaded.All CacheEntry.Named := by
  rintro loaded rfl
  rcases Dispatcher.openCache_cases found with ⟨-, -, loaded, same, load⟩ | ⟨-, none, -⟩
  · cases same
    exact Cache.load_named load h
  · cases none

theorem KeepsPaths.saves (h : c.KeepsPaths) (found : c.FindsNamed) :
    ∃ (saved : Cache) (files : FileSystem), saved.path = c.cacheFile ∧
      saved.All CacheEntry.Named ∧ saved.save files = (.ok (), c.answer.2.files) := by
  obtain ⟨r, ok⟩ := h.ok
  have ended : c.dispatcher.lintTasks c.tasks c.world = (.ok r, c.answer.2) := Prod.ext ok rfl
  obtain ⟨numbered, cache, opened, opens, ran⟩ := Dispatcher.lintTasks_opens ended
  have named := found.opened opens
  obtain ⟨log, -, answered, -, workers, closed⟩ :=
    Dispatcher.runWorkers_turns numbered h.room ran
  rcases Dispatcher.openCache_cases opens with ⟨-, rfl, loaded, rfl, load⟩ | ⟨none, -⟩
  · have new : ∀ m ∈ c.tasks.filterMap fun t =>
          (c.dispatcher.doneAt c.tasks (some loaded) c.world log t).1.merged?,
        ∀ task signature, Cache.storable? c.tasks m = some (task, signature) → ∀ fingerprint,
          Cache.Holds CacheEntry.Named task.path
            (Cache.entryOf signature fingerprint m.report.result) := by
      intro m hm task signature wanted fingerprint
      obtain ⟨t, ht, merged⟩ := List.mem_filterMap.1 hm
      obtain ⟨report, reported, rfl⟩ := Option.map_eq_some_iff.1 merged
      obtain ⟨i, there⟩ := List.mem_iff_getElem?.1 ht
      have index := Context.process_index (answered t ht)
      rw [Task.index_eq numbered there] at index
      obtain ⟨rfl, -⟩ := Cache.storable_signed wanted (index ▸ there)
      obtain ⟨fate, ends, -⟩ := Context.processAcross_ends (answered task ht)
      exact CacheEntry.Named.holds (ends.path h.analyzer named reported)
    obtain ⟨saved, path, all, save⟩ := Dispatcher.conclude_saves (named loaded rfl) new closed
    exact ⟨saved, _, path.trans (Cache.load_place load).1, all, save⟩
  · rw [h.cache] at none
    cases none

end Run

/-- The contents of a cache file that only such runs have written: the last of them left it, and what
that run found itself was left so. -/
inductive LeftNamed : Text.Bytes → Prop where
  | left {c : Run} {bytes : Text.Bytes} (keeps : c.KeepsPaths)
      (found : ∀ old, c.world.files.read c.cacheFile = .ok old → LeftNamed old)
      (left : c.answer.2.files.read c.cacheFile = .ok bytes) : LeftNamed bytes

theorem LeftNamed.written {bytes : Text.Bytes} (h : LeftNamed bytes) :
    Cache.Written (fun _ => CacheEntry.Named) bytes := by
  induction h with
  | left keeps _ left found =>
    obtain ⟨saved, files, path, named, save⟩ := keeps.saves found
    exact ⟨saved, named, Cache.save_read save (path ▸ left)⟩

theorem count_fates {tasks : List Task} {fate : Task → Fate} {kind : Fate} {p : Task → Bool}
    (same : ∀ t ∈ tasks, fate t = kind ↔ p t = true) :
    (tasks.map fate).count kind = tasks.countP p := by
  rw [List.count, List.countP_map]
  exact List.countP_congr fun t ht => by simpa using same t ht

theorem paths_of_reports {files : List FileReport} {tasks : List Task}
    {report : Task → Option FileReport} (same : files.map some = tasks.map report)
    (paths : ∀ t ∈ tasks, ∀ r, report t = some r → r.result.path.parts = t.path.parts) :
    files.map (fun r => r.result.path.parts) = tasks.map fun t => t.path.parts := by
  induction tasks generalizing files with
  | nil =>
    rw [List.map_nil, List.map_eq_nil_iff] at same
    rw [same]
    rfl
  | cons t rest ih =>
    cases files with
    | nil => cases same
    | cons r files =>
      obtain ⟨first, others⟩ := List.cons.inj same
      rw [List.map_cons, List.map_cons, paths t (List.mem_cons_self ..) r first.symm,
        ih others fun u hu => paths u (List.mem_cons_of_mem _ hu)]

theorem textRules_keepsPath : textRules.KeepsPath := by
  rintro request files result answer
  cases answer
  rfl

def patchyRules : Dispatcher Unit where
  options :=
    { Options.standard ⟨"/"⟩ with cache := true, cacheLocation := ⟨"c"⟩, warnIgnored := true }
  analyzer := textRules
  resolver := ⟨fun _ state path => (.ok (if path = FileSystem.top "u" then none else
    some (.ofConfig .empty none)), state)⟩
  parallelism := 1
  schedule := []

def Run.patchy (files : FileSystem) : Run where
  σ := Unit
  dispatcher := patchyRules
  tasks := [⟨0, FileSystem.top "b", false⟩, ⟨1, FileSystem.top "i", true⟩,
    ⟨2, FileSystem.top "u", false⟩, ⟨3, FileSystem.top "e", false⟩]
  world := ⟨files, ()⟩

namespace Run
open FileSystem
variable {fs : FileSystem}

theorem patchy_place (there : fs.FreeOrFile "c") : (patchy fs).cacheFile = top "c" :=
  there.locate (by decide)

theorem patchy_room : 2 * (patchy fs).tasks.length < UInt64.size := by
  change 2 * 4 < UInt64.size
  decide

theorem patchy_ok (there : fs.FreeOrFile "c") : ∃ r bytes, (patchy fs).answer.1 = .ok r ∧
    (patchy fs).answer.2.files = fs.set ["c"] (.file bytes fs.clock) := by
  have answered := fun loaded => @Context.steady_done _
    (patchyRules.context (patchy fs).tasks loaded) (patchy fs).world textRules_quiet
    (fun _ _ _ _ => rfl) fun t _ =>
      Context.process_answered textRules_total fun _ => ⟨_, rfl⟩
  have stable : patchyRules.resolver.Stable fs := by
    rintro _ _ _ ⟨⟩ _
    rfl
  exact @Dispatcher.lintTasks_top _ patchyRules (patchy fs).tasks (patchy fs).world rfl rfl
    patchy_room textRules_quiet stable _ (by decide) (patchy_place there) there fun loaded =>
      Dispatcher.pool_noError patchy_room (answered loaded)

theorem patchy_unreadable (file : fs.readText (top "b") = .ok "")
    (gone : fs.status (top "e") = .error .notFound) {cache : Option Cache} {t : Task}
    (ht : t ∈ (patchy fs).tasks) {fate : Fate} {report : Option FileReport}
    (ends : (patchyRules.context (patchy fs).tasks cache).Ends t (.still fs) () fate report) :
    fate = .unreadable ↔ t.path = top "e" := by
  have lost : fs.read (top "e") = .error .notFound := by rw [FileSystem.read, gone]
  have missed (config : ResolvedConfig) :
      (patchyRules.context (patchy fs).tasks cache).cached fs ⟨3, top "e", false⟩ config = none := by
    refine Option.eq_none_iff_forall_ne_some.2 fun outcome hit => ?_
    obtain ⟨cache, result, signature, -, -, -, computed, -⟩ := Context.cached_ok hit
    rw [Signature.compute, gone] at computed
    cases computed
  rw [ends.unreadable_iff]
  simp only [patchy, List.mem_cons, List.not_mem_nil, or_false] at ht
  rcases ht with rfl | rfl | rfl | rfl
  · obtain ⟨signature, read⟩ := Context.readSource_readable file
    refine iff_of_false ?_ (by decide)
    rintro ⟨-, config, -, -, e, unread⟩
    cases read.symm.trans unread
  · exact iff_of_false (by rintro ⟨⟨⟩, -⟩) (by decide)
  · refine iff_of_false ?_ (by decide)
    rintro ⟨-, config, found, -⟩
    cases found
  · exact iff_of_true ⟨rfl, _, rfl, missed _, _, Context.readSource_failed lost⟩ rfl

theorem patchy_fates (file : fs.readText (top "b") = .ok "")
    (gone : fs.status (top "e") = .error .notFound) {cache : Option Cache} {fate : Task → Fate}
    {report : Task → Option FileReport} (ends : ∀ t ∈ (patchy fs).tasks,
      (patchyRules.context (patchy fs).tasks cache).Ends t (.still fs) () (fate t) (report t)) :
    ((patchy fs).tasks.map fate).count .unreadable = 1 ∧
      ((patchy fs).tasks.map fate).count .unconfigured = 1 := by
  constructor
  · refine (count_fates (p := fun t => t.path = top "e") fun t ht => ?_).trans rfl
    rw [patchy_unreadable file gone ht (ends t ht), decide_eq_true_eq]
  · refine (count_fates (p := fun t => !t.ignored && t.path = top "u") fun t ht => ?_).trans rfl
    rw [(ends t ht).unconfigured_iff]
    change _ ∧ Except.ok (if t.path = top "u" then none else _) = _ ↔ _
    split <;> simp [*]

end Run

/-- Every task of a run that succeeds is accounted for. It is processed once and has one outcome; the
results are those of the tasks in their order, without those that are skipped; and each task is
counted once or has no configuration or cannot be read. -/
theorem Run.accounts {c : Run} {r : RunReport} (room : 2 * c.tasks.length < UInt64.size)
    (ok : c.answer.1 = .ok r) :
    ∃ (cache : Option Cache) (opened : FileSystem) (log : List Task) (fate : Task → Fate)
      (outcome : Task → Outcome),
      let d := c.dispatcher
      let ctx := d.context c.tasks cache
      let start : World c.σ := { c.world with files := opened }
      let warned := d.options.warnIgnored
      let shown := c.tasks.filter fun t => !t.ignored || warned
      let fates := c.tasks.map fate
      d.openCache c.world.files = (.ok cache, opened) ∧
      log.Perm c.tasks ∧
      (∀ t ∈ c.tasks, (outcome t).index = t.index ∧
        let world := ctx.turn start log t
        ctx.Ends t (.still world.files) world.resolver (fate t) (outcome t).report) ∧
      (d.pool c.tasks cache start).output.outcomes.Perm (c.tasks.map outcome) ∧
      r.files.map some = shown.map (fun t => (outcome t).report) ∧
      (d.analyzer.KeepsPath →
        (∀ bytes, c.world.files.read c.cacheFile = .ok bytes → LeftNamed bytes) →
        r.results.map (fun result => result.path.parts) = shown.map fun t => t.path.parts) ∧
      r.stats = ⟨fates.count .analyzed, fates.count .cached, fates.count .skipped,
        fates.count .ignored⟩ ∧
      r.stats.analyzed + r.stats.cacheHits + r.stats.skipped + r.stats.ignored +
        fates.count .unconfigured + fates.count .unreadable = c.tasks.length ∧
      r.stats.skipped = (if warned then 0 else c.tasks.countP Task.ignored) ∧
      r.stats.ignored = if warned then c.tasks.countP Task.ignored else 0 := by
  have ended : c.dispatcher.lintTasks c.tasks c.world = (.ok r, c.answer.2) := Prod.ext ok rfl
  obtain ⟨numbered, cache, opened, opens, ran⟩ := Dispatcher.lintTasks_opens ended
  obtain ⟨log, all, answered, outcomes, workers, closed⟩ :=
    Dispatcher.runWorkers_turns numbered room ran
  let start : World c.σ := { c.world with files := opened }
  let ctx := c.dispatcher.context c.tasks cache
  let done := c.dispatcher.doneAt c.tasks cache start log
  let warned := c.dispatcher.options.warnIgnored
  have each : ∀ t, ∃ fate, t ∈ c.tasks →
      ctx.Ends t (.still (ctx.turn start log t).files) (ctx.turn start log t).resolver fate
        (done t).1.report ∧ (done t).2 = fate.stats := by
    intro t
    by_cases ht : t ∈ c.tasks
    · obtain ⟨fate, ends, counts⟩ := Context.processAcross_ends (answered t ht)
      exact ⟨fate, fun _ => ⟨ends, counts⟩⟩
    · exact ⟨.skipped, fun h => absurd h ht⟩
  choose fate ends using each
  have stats : r.stats = ⟨(c.tasks.map fate).count .analyzed, (c.tasks.map fate).count .cached,
      (c.tasks.map fate).count .skipped, (c.tasks.map fate).count .ignored⟩ := by
    have sum : (c.tasks.map fun t => (done t).2) = (c.tasks.map fate).map Fate.stats := by
      rw [List.map_map]
      exact List.map_congr_left fun t ht => (ends t ht).2
    rw [Dispatcher.conclude_stats closed, ← Fate.sum_stats]
    exact congrArg List.sum sum
  have reports : r.files.map some =
      (c.tasks.filter fun t => !t.ignored || warned).map fun t => (done t).1.report := by
    rw [(Dispatcher.conclude_ok closed).1, merged_reports]
    exact filterMap_filter fun t ht => (ends t ht).1.shown
  refine ⟨cache, opened, log, fate, fun t => (done t).1, opens, all, fun t ht => ?_, outcomes,
    reports, fun keeps left => ?_, stats, ?_, ?_, ?_⟩
  · exact ⟨Context.process_index (answered t ht), (ends t ht).1⟩
  · have named := FindsNamed.opened (fun bytes read => (left bytes read).written) opens
    rw [RunReport.results, List.map_map]
    refine paths_of_reports reports fun t ht report reported => ?_
    exact (ends t (List.mem_filter.1 ht).1).1.path keeps named reported
  · rw [stats, ← List.length_map fate]
    exact Fate.count_all _
  · have skipped := count_fates (p := fun t => t.ignored && !warned) fun t ht => by
      rw [(ends t ht).1.skipped_iff, Bool.and_eq_true, Bool.not_eq_true']
      rfl
    rw [stats, skipped]
    change _ = if warned then _ else _
    cases warned <;> simp
  · have ignored := count_fates (p := fun t => t.ignored && warned) fun t ht => by
      rw [(ends t ht).1.ignored_iff, Bool.and_eq_true]
      rfl
    rw [stats, ignored]
    change _ = if warned then _ else _
    cases warned <;> simp

namespace Run
open FileSystem

theorem accounts_patchy :
    let first := patchy ⟨[(["b"], .file [] 1)], [], 0⟩
    let last := patchy first.answer.2.files
    2 * last.tasks.length < UInt64.size ∧ ∃ r, last.answer.1 = .ok r ∧
      r.results.map (fun result => result.path.parts) = [(FileSystem.top "b").parts,
        (FileSystem.top "i").parts, (FileSystem.top "u").parts, (FileSystem.top "e").parts] ∧
      r.stats.analyzed + r.stats.cacheHits = 1 ∧ r.stats.skipped = 0 ∧ r.stats.ignored = 1 := by
  intro first last
  have free : FreeOrFile ⟨[(["b"], .file [] 1)], [], 0⟩ "c" := .inl rfl
  obtain ⟨r', bytes, succeeds, left⟩ := patchy_ok free
  have there : first.answer.2.files.FreeOrFile "c" :=
    left ▸ .inr ⟨bytes, 0, statusAt_set (by decide) _ _⟩
  obtain ⟨r, -, ok, -⟩ := patchy_ok there
  have leaves : ∀ bytes, last.world.files.read last.cacheFile = .ok bytes → LeftNamed bytes := by
    intro bytes read
    rw [patchy_place there, ← patchy_place free] at read
    refine .left ⟨textRules_keepsPath, rfl, patchy_room, r', succeeds⟩ (fun old found => ?_) read
    rw [FileSystem.read, patchy_place free, FileSystem.status_top_free (by decide) rfl] at found
    cases found
  have file : first.answer.2.files.readText (top "b") = .ok "" := by
    rw [left]
    exact Context.readText_iff.2 ⟨[], 1, status_top (by decide)
      (statusAt_set_other (by rfl) (by decide) _), rfl⟩
  have gone : first.answer.2.files.status (top "e") = .error .notFound := by
    rw [left]
    exact status_top_free (by decide) ((get_set_other (by decide) _).trans rfl)
  obtain ⟨cache, opened, log, fate, outcome, opens, -, ends, -, -, paths, -, total, skipped,
    ignored⟩ := accounts patchy_room ok
  have found : opened = last.world.files := by
    rcases Dispatcher.openCache_cases opens with ⟨-, same, -⟩ | ⟨⟨⟩, -⟩
    exact same
  subst found
  let ctx := patchyRules.context last.tasks cache
  have still (t : Task) : (ctx.turn last.world log t).files = last.world.files :=
    congrArg World.files (Context.after_eq textRules_quiet _ _)
  have here : ∀ t ∈ last.tasks,
      ctx.Ends t (.still last.world.files) () (fate t) (outcome t).report := by
    intro t ht
    rw [← still t]
    exact (ends t ht).2
  obtain ⟨unreadable, unconfigured⟩ := patchy_fates file gone here
  rw [unreadable, unconfigured] at total
  have total : r.stats.analyzed + r.stats.cacheHits + r.stats.skipped + r.stats.ignored + 1 + 1 =
      4 := total
  have skipped : r.stats.skipped = 0 := skipped
  have ignored : r.stats.ignored = 1 := ignored
  refine ⟨patchy_room, r, ok, paths textRules_keepsPath leaves, ?_, skipped, ignored⟩
  omega

end Run
end ParallelLint
