import ParallelLint.Proofs.Analyzer.Remaining
import ParallelLint.Proofs.Dispatch.Clean
import ParallelLint.Proofs.Dispatch.Failing
import ParallelLint.Proofs.FileSystem.Writes
import ParallelLint.Proofs.Task.Expansion

set_option autoImplicit false

namespace ParallelLint
open FileSystem

/-- The output is the text without blanks at the ends of its lines. -/
def TextRules.Trims (source output : String) : Prop :=
  output.toList = ((splitLines source.toList).map trimmed).flatten

def Cache.Unfixed (c : Cache) : Prop := c.All fun _ e => e.result.output = none

theorem Cache.delete_within {fs deleted : FileSystem} {path : Path} {answer : Except LintError Bool}
    (h : Cache.delete fs path = (answer, deleted)) : deleted.Within fs := by
  unfold Cache.delete at h
  split at h
  · rename_i removed
    cases h
    exact remove_within removed
  · split at h <;> cases h <;> exact ⟨rfl, fun _ _ found => found⟩

section
variable {σ : Type}

namespace Context
variable {ctx : Context σ} {world : World σ} {task : Task} {outcome : Outcome} {stats : Stats}

theorem process_reports (rules : ctx.analyzer = textRules)
    (answer : (ctx.process task world).1 = .ok (outcome, stats)) {report : FileReport}
    (reported : outcome.report = some report) :
    report.result = .ignored task.path ∨ report.result = .unconfigured task.path ∨
      (∃ error, report.result = .readFailure task.path error) ∨
      (∃ cache key e, ctx.cache = some cache ∧ (key, e) ∈ cache.entries.entries ∧
        Cache.restore world.files task.path e = some report.result) ∨
      (task.ignored = false ∧ ∃ source config, world.files.readText task.path = .ok source ∧
        report.result = withSource (TextRules.analyze task.path source config ctx.fix) source) := by
  cases ignored : task.ignored with
  | true =>
    rw [process_ignored ignored] at answer
    split at answer <;> cases answer <;> cases reported
    exact .inl rfl
  | false =>
    rw [process_plain ignored] at answer
    split at answer
    · cases answer
    · cases answer
      cases reported
      exact .inr (.inl rfl)
    rename_i config _
    split at answer
    · rename_i hit
      cases answer
      obtain ⟨cache, result, signature, present, found, -, -, rfl⟩ := cached_ok hit
      cases reported
      obtain ⟨e, known, -, -, restored⟩ := lookup_iff.1 found
      obtain ⟨key, mem, -⟩ := (Sorted.find?_iff _).1 known
      exact .inr (.inr (.inr (.inl ⟨cache, key, e, present, mem, restored⟩)))
    · cases read : ctx.readSource (.still world.files) task.path with
      | error e =>
        simp only [analyzed, read] at answer
        cases answer
        cases reported
        exact .inr (.inr (.inl ⟨e, rfl⟩))
      | ok pair =>
        obtain ⟨source, signature⟩ := pair
        simp only [analyzed, read, rules, textRules] at answer
        cases answer
        cases reported
        exact .inr (.inr (.inr (.inr ⟨rfl, source, config.config, (readSource_ok read).1, rfl⟩)))

theorem process_fixed (rules : ctx.analyzer = textRules)
    (unfixed : ∀ cache, ctx.cache = some cache → cache.Unfixed)
    (answer : (ctx.process task world).1 = .ok (outcome, stats)) {report : FileReport}
    (reported : outcome.report = some report) {output : String}
    (fixed : report.result.output = some output) :
    task.ignored = false ∧ report.result.path = task.path ∧ ∃ source config,
      world.files.readText task.path = .ok source ∧
      (TextRules.analyze task.path source config ctx.fix).output = some output := by
  rcases process_reports rules answer reported with same | same | ⟨_, same⟩ |
    ⟨cache, key, e, present, mem, restored⟩ | ⟨plain, source, config, text, same⟩
  · rw [same] at fixed
    cases fixed
  · rw [same] at fixed
    cases fixed
  · rw [same] at fixed
    cases fixed
  · have kept := congrArg LintResult.output (Cache.restore_result restored)
    have none : report.result.output = none := kept.trans (unfixed cache present _ mem)
    cases none.symm.trans fixed
  · rw [same, withSource_output] at fixed
    refine ⟨plain, ?_, source, config, text, fixed⟩
    rw [same, withSource]
    split <;> rfl

end Context

namespace Dispatcher
variable {d : Dispatcher σ} {tasks : List Task} {cache : Option Cache} {world after : World σ}
  {r : RunReport}

theorem conclude_ok {workers : Nat} {merged : List Merged} {stats : Stats}
    (h : d.conclude tasks cache workers merged stats world = (.ok r, after)) :
    r.files = merged.map Merged.report ∧ r.workers = workers ∧
      (cache = none → after.files = world.files) ∧
      ∀ loaded, cache = some loaded → ∃ saved : Cache, saved.path = loaded.path ∧
        saved.strategy = loaded.strategy ∧ saved.save world.files = (.ok (), after.files) := by
  cases cache with
  | none =>
    cases h
    exact ⟨rfl, rfl, fun _ => rfl, by rintro _ ⟨⟩⟩
  | some loaded =>
    rcases @conclude_cases _ d world.files world.resolver tasks (fun _ => True) (fun _ _ => True)
      loaded merged workers stats (fun _ _ => trivial) trivial (fun _ _ _ _ _ => trivial)
      (fun _ _ _ _ _ _ _ _ _ => ⟨trivial, fun _ _ _ _ => trivial⟩)
      with ⟨e, failed, -⟩ | ⟨saved, -, path, strategy, files, ⟨e, failed, -⟩ | ⟨changes, ok, done⟩⟩
    · cases (congrArg Prod.fst h).symm.trans failed
    · cases (congrArg Prod.fst h).symm.trans failed
    · cases (congrArg Prod.fst h).symm.trans ok
      refine ⟨rfl, rfl, by rintro ⟨⟩, ?_⟩
      rintro _ ⟨⟩
      refine ⟨saved, path, strategy, Prod.ext done ?_⟩
      rw [← files]
      exact congrArg (fun a => a.2.files) h

theorem runWorkers_fixed (rules : d.analyzer = textRules) (all : d.options.fix = .all)
    (unfixed : ∀ loaded, cache = some loaded → loaded.Unfixed)
    (ok : d.runWorkers tasks cache world = (.ok r, after)) :
    ∀ result ∈ r.results, ∀ output, result.output = some output → ∃ t ∈ tasks,
      t.ignored = false ∧ result.path = t.path ∧ ∃ source,
        world.files.readText t.path = .ok source ∧ TextRules.Trims source output := by
  intro result hr output fixed
  obtain ⟨workers, outcomes, stats, state, gave, closed⟩ :=
    runWorkers_gave (by rw [rules]; exact textRules_quiet) ok
  obtain ⟨report, listed, rfl⟩ := List.mem_map.1 hr
  rw [(conclude_ok closed).1] at listed
  obtain ⟨m, hm, rfl⟩ := List.mem_map.1 listed
  obtain ⟨o, ho, merged⟩ := mem_mergeOutcomes hm
  obtain ⟨report, reported, rfl⟩ := Option.map_eq_some_iff.1 merged
  obtain ⟨t, ht, state, stats, answer⟩ := gave o ho
  obtain ⟨plain, path, source, config, text, trims⟩ :=
    @Context.process_fixed _ _ ⟨world.files, state⟩ _ _ _ rules unfixed answer _ reported _ fixed
  have trims : (TextRules.analyze t.path source config .all).output = some output := by
    rw [← trims]
    exact congrArg (fun fix => (TextRules.analyze t.path source config fix).output) all.symm
  exact ⟨t, ht, plain, path, source, text, TextRules.analyze_trimmed trims⟩

/-- The path of a cache file names the entry at a location, before a run or after it. -/
def CacheAt (path : Path) (before after : FileSystem) (l : Location) : Prop :=
  before.placeOfEntry path = .ok (.found l) ∨ after.placeOfEntry path = .ok (.found l)

theorem openCache_cases {fs opened : FileSystem} (h : d.openCache fs = (.ok cache, opened)) :
    (d.options.cache = true ∧ opened = fs ∧ ∃ loaded, cache = some loaded ∧
      Cache.load fs (d.cacheFile fs) d.options.cacheStrategy = .ok loaded) ∨
    (d.options.cache = false ∧ cache = none ∧
      ∃ found, Cache.delete fs (d.cacheFile fs) = (.ok found, opened)) := by
  cases wanted : d.options.cache with
  | true =>
    rw [openCache, wanted, if_pos rfl] at h
    cases load : Cache.load fs (d.cacheFile fs) d.options.cacheStrategy with
    | error e =>
      rw [load] at h
      cases h
    | ok loaded =>
      rw [load] at h
      cases h
      exact .inl ⟨rfl, rfl, loaded, rfl, rfl⟩
  | false =>
    rw [openCache_unwanted wanted] at h
    cases deleted : Cache.delete fs (d.cacheFile fs) with
    | mk answer files =>
      rw [deleted] at h
      cases answer with
      | error e => cases h
      | ok found =>
        cases h
        exact .inr ⟨rfl, rfl, found, rfl⟩

theorem lintTasks_opens (ok : d.lintTasks tasks world = (.ok r, after)) :
    Task.misnumbered? tasks = none ∧ ∃ cache opened,
      d.openCache world.files = (.ok cache, opened) ∧
      d.runWorkers tasks cache { world with files := opened } = (.ok r, after) := by
  unfold lintTasks at ok
  split at ok
  · cases ok
  rename_i numbered
  split at ok
  · cases ok
  · rename_i cache opened found
    exact ⟨numbered, cache, opened, found, ok⟩

/-- A run leaves all files but that of the cache as they are, and paths lead to the files that it
has read. -/
theorem lintTasks_leaves (quiet : d.analyzer.Quiet) (tree : world.files.IsTree)
    (linkFree : world.files.LinkFree) (ok : d.lintTasks tasks world = (.ok r, after)) :
    ∃ cache opened, d.openCache world.files = (.ok cache, opened) ∧
      d.runWorkers tasks cache { world with files := opened } = (.ok r, after) ∧
      (∀ l, ¬CacheAt (d.cacheFile world.files) world.files after.files l →
        after.files.bytesAt? l = world.files.bytesAt? l) ∧
      ∀ p l, opened.FileAt p l → world.files.FileAt p l ∧ after.files.FileAt p l ∧
        world.files.bytesAt? l = opened.bytesAt? l := by
  obtain ⟨-, cache, opened, found, ran⟩ := lintTasks_opens ok
  refine ⟨cache, opened, found, ran, ?_⟩
  obtain ⟨workers, outcomes, stats, state, -, closed⟩ := runWorkers_gave quiet ran
  obtain ⟨-, -, uncached, saves⟩ := conclude_ok closed
  rcases openCache_cases found with ⟨-, rfl, loaded, rfl, load⟩ | ⟨-, rfl, present, deleted⟩
  · obtain ⟨saved, path, -, save⟩ := saves loaded rfl
    obtain ⟨l, here, others, kept⟩ := Cache.save_changes linkFree save
    rw [path, (Cache.load_place load).1] at here
    refine ⟨fun m apart => others m ?_, fun p m at_ => ⟨at_, kept p m at_, rfl⟩⟩
    rintro rfl
    exact apart (.inr here)
  · have within := Cache.delete_within deleted
    have same : after.files = opened := uncached rfl
    rw [same]
    refine ⟨fun m apart => ?_, fun p m at_ => ⟨at_.within within, at_, ?_⟩⟩
    · rcases Cache.delete_loses tree deleted with rfl | ⟨-, l, here, loses⟩
      · rfl
      · refine loses.others m ?_
        rintro rfl
        exact apart (.inl here)
    · obtain ⟨bytes, file⟩ := Option.isSome_iff_exists.1 at_.file
      obtain ⟨modified, entry⟩ := bytesAt_iff.1 file
      rw [file, bytesAt_iff.2 ⟨modified, within.2 m _ entry⟩]

/-- Every fixed text is for the file of a task that is not ignored. -/
def FixesTasks (tasks : List Task) (results : List LintResult) (before after : FileSystem) : Prop :=
  ∀ result ∈ results, ∀ output, result.output = some output →
    ∃ t ∈ tasks, t.ignored = false ∧ result.path = t.path ∧ ∃ l,
      before.FileAt result.path l ∧ after.FileAt result.path l

theorem FixesTasks.before {results : List LintResult} {before after : FileSystem}
    (fixes : FixesTasks tasks results before after) {result : LintResult} (hr : result ∈ results)
    {l : Location} {output : String} (fixed : result.Fixes after l output) :
    result.Fixes before l output ∧
      ∃ t ∈ tasks, t.ignored = false ∧ before.locate t.path = .ok l := by
  obtain ⟨some, located⟩ := fixed
  obtain ⟨t, ht, plain, path, m, first, last⟩ := fixes result hr output some
  obtain rfl : m = l := Except.ok.inj (last.located.symm.trans located)
  exact ⟨⟨some, first.located⟩, t, ht, plain, path ▸ first.located⟩

theorem lintTasks_fixes (rules : d.analyzer = textRules) (all : d.options.fix = .all)
    (tree : world.files.IsTree) (linkFree : world.files.LinkFree)
    (unfixed : d.options.cache = true → ∀ loaded,
      Cache.load world.files (d.cacheFile world.files) d.options.cacheStrategy = .ok loaded →
        loaded.Unfixed)
    (ok : d.lintTasks tasks world = (.ok r, after)) :
    FixesTasks tasks r.results world.files after.files ∧
      ∀ n files, writeFixes after.files 0 r.results = (.ok n, files) →
        FixesWritten r.results after.files files := by
  obtain ⟨cache, opened, found, ran, -, leads⟩ :=
    lintTasks_leaves (by rw [rules]; exact textRules_quiet) tree linkFree ok
  have loaded : ∀ loaded, cache = some loaded → loaded.Unfixed := by
    rintro loaded rfl
    rcases openCache_cases found with ⟨wanted, -, c, present, load⟩ | ⟨-, none, -⟩
    · cases present
      exact unfixed wanted loaded load
    · cases none
  have fixes := runWorkers_fixed rules all loaded ran
  have read : ∀ result ∈ r.results, ∀ output, result.output = some output →
      ∃ t ∈ tasks, t.ignored = false ∧ result.path = t.path ∧ ∃ l bytes source,
        opened.FileAt result.path l ∧ opened.bytesAt? l = some bytes ∧
        Text.decode bytes = .ok source ∧ TextRules.Trims source output := by
    intro result hr output some
    obtain ⟨t, ht, plain, path, source, text, trims⟩ := fixes result hr output some
    obtain ⟨bytes, modified, status, decoded⟩ := Context.readText_iff.1 text
    obtain ⟨l, at_, bytesAt⟩ := fileAt_of_read (read_iff.2 ⟨modified, status⟩)
    exact ⟨t, ht, plain, path, l, bytes, source, path ▸ at_, bytesAt, decoded, trims⟩
  have tasksFixed : FixesTasks tasks r.results world.files after.files := by
    intro result hr output some
    obtain ⟨t, ht, plain, path, l, -, -, at_, -⟩ := read result hr output some
    exact ⟨t, ht, plain, path, l, (leads _ _ at_).1, (leads _ _ at_).2.1⟩
  refine ⟨tasksFixed, fun n files => writeFixes_written ⟨fun result hr some => ?_, ?_⟩⟩
  · obtain ⟨output, some⟩ := Option.isSome_iff_exists.1 some
    obtain ⟨-, -, -, -, l, -, at_⟩ := tasksFixed result hr output some
    exact ⟨l, at_⟩
  · -- both are the trimmed text of the same file
    rintro result hr result' hr' l output output' ⟨some, located⟩ ⟨some', located'⟩
    obtain ⟨-, -, -, -, m, bytes, source, at_, file, decoded, trims⟩ := read result hr output some
    obtain ⟨-, -, -, -, m', bytes', source', at', file', decoded', trims'⟩ :=
      read result' hr' output' some'
    obtain rfl : m = l := Except.ok.inj ((leads _ _ at_).2.1.located.symm.trans located)
    obtain rfl : m' = m := Except.ok.inj ((leads _ _ at').2.1.located.symm.trans located')
    rw [file] at file'
    cases file'
    rw [decoded] at decoded'
    cases decoded'
    exact String.toList_injective (trims.trans trims'.symm)

theorem toOption_eq_of_yield {a b : Except LintError RunReport}
    (yields : a.map RunReport.yield = b.map RunReport.yield)
    (workers : ∀ r r', a = .ok r → b = .ok r' → r.workers = r'.workers) :
    a.toOption = b.toOption := by
  cases a with
  | error e =>
    cases b with
    | error e' => rfl
    | ok r' => cases yields
  | ok r =>
    cases b with
    | error e' => cases yields
    | ok r' =>
      have count := workers r r' rfl rfl
      obtain ⟨reports, stats, workers, changes⟩ := r
      obtain ⟨reports', stats', workers', changes'⟩ := r'
      cases count
      cases Except.ok.inj yields
      rfl

theorem runWorkers_workers (ok : d.runWorkers tasks cache world = (.ok r, after)) :
    r.workers = WorkerCount.ofConcurrency d.parallelism d.options.concurrency tasks.length := by
  rw [runWorkers_pool] at ok
  split at ok
  · cases ok
  · exact (conclude_ok ok).2.1

/-- Whatever the order of the steps, the report and the files are the same. -/
theorem runWorkers_scheduled (schedule : List Nat) (numbered : Task.misnumbered? tasks = none)
    (room : 2 * tasks.length < UInt64.size) (quiet : d.analyzer.Quiet)
    (steady : d.resolver.Steady world.files world.resolver (Context.asked tasks)) :
    let a := d.runWorkers tasks cache world
    let b := { d with schedule }.runWorkers tasks cache world
    a.1.toOption = b.1.toOption ∧ a.2.files = b.2.files := by
  intro a b
  let other : Dispatcher σ := { d with schedule }
  let ctx := d.context tasks cache
  by_cases done : ∀ t ∈ tasks, (ctx.process t world).1 = .ok (ctx.done world t)
  · obtain ⟨workers, asked, listed, first⟩ :=
      @runWorkers_done _ d tasks cache world numbered room quiet steady done
    obtain ⟨workers', asked', listed', second⟩ :=
      @runWorkers_done _ other tasks cache world numbered room quiet steady done
    obtain ⟨yields, files⟩ := conclude_steady steady cache workers workers'
      (tasks.filterMap fun t => (ctx.done world t).1.merged?)
      (tasks.map fun t => (ctx.done world t).2).sum listed listed'
    have concludes : other.conclude = d.conclude := rfl
    rw [concludes] at second
    have one : a = _ := first
    have two : b = _ := second
    rw [one, two]
    refine ⟨toOption_eq_of_yield yields fun r r' ok ok' => ?_, files⟩
    calc r.workers = WorkerCount.ofConcurrency d.parallelism d.options.concurrency tasks.length :=
          runWorkers_workers (one.trans (Prod.ext ok rfl))
      _ = r'.workers := (runWorkers_workers (two.trans (Prod.ext ok' rfl))).symm
  · have fails : ∀ other : Dispatcher σ, other.context tasks cache = ctx →
        other.resolver = d.resolver → other.analyzer = d.analyzer →
        ∃ e state, other.runWorkers tasks cache world = (.error e, ⟨world.files, state⟩) := by
      intro other same resolver analyzer
      rcases @runWorkers_cases _ other tasks cache world numbered room (analyzer ▸ quiet)
        (resolver ▸ steady) with failed | ⟨answered, -⟩
      · exact failed
      · rw [same] at answered
        exact absurd answered done
    obtain ⟨e, state, first⟩ := fails d rfl rfl rfl
    obtain ⟨e', state', second⟩ := fails other rfl rfl rfl
    rw [show a = _ from first, show b = _ from second]
    exact ⟨rfl, rfl⟩

theorem lintTasks_scheduled (schedule : List Nat) (room : 2 * tasks.length < UInt64.size)
    (quiet : d.analyzer.Quiet)
    (steady : ∀ files, d.resolver.Steady files world.resolver (Context.asked tasks)) :
    let a := d.lintTasks tasks world
    let b := { d with schedule }.lintTasks tasks world
    a.1.toOption = b.1.toOption ∧ a.2.files = b.2.files := by
  intro a b
  have opens : { d with schedule }.openCache world.files = d.openCache world.files := rfl
  simp only [a, b, lintTasks, opens]
  split
  · exact ⟨rfl, rfl⟩
  rename_i numbered
  split
  · exact ⟨rfl, rfl⟩
  · exact runWorkers_scheduled schedule numbered room quiet (steady _)

end Dispatcher
end

namespace Dispatcher
variable {d : Dispatcher Nearest} {fs : FileSystem} {patterns : List String} {tasks : List Task}

theorem expand_normal (ok : d.expand fs patterns = .ok tasks) :
    ∀ p ∈ Context.asked tasks, p.Normal := by
  intro p hp
  unfold expand at ok
  cases selection : Selection.ofOptions d.options with
  | error e =>
    rw [selection] at ok
    cases ok
  | ok s =>
    rw [selection] at ok
    obtain ⟨found, expanded, rfl⟩ := Selection.expand_ok ok
    obtain ⟨t, ht, rfl⟩ := List.mem_map.1 hp
    obtain ⟨⟨pattern, -, selects⟩, -⟩ :=
      (Selection.mem_expanded expanded _ _).1 (Task.number_mem (List.mem_filter.1 ht).1)
    exact selects.normal

theorem lintPatterns_scheduled (schedule : List Nat) (resolver : d.resolver = .nearest)
    (quiet : d.analyzer.Quiet) (base : Config) (root : Option Path)
    (room : ∀ tasks, d.expand fs patterns = .ok tasks → 2 * tasks.length < UInt64.size) :
    let a := d.lintPatterns patterns ⟨fs, .fresh base root⟩
    let b := { d with schedule }.lintPatterns patterns ⟨fs, .fresh base root⟩
    a.1.toOption = b.1.toOption ∧ a.2.files = b.2.files := by
  intro a b
  have expands : { d with schedule }.expand fs patterns = d.expand fs patterns := rfl
  simp only [a, b, lintPatterns, expands]
  split
  · exact ⟨rfl, rfl⟩
  · rename_i tasks expanded
    refine lintTasks_scheduled schedule (room tasks expanded) quiet fun files => ?_
    rw [resolver]
    exact Nearest.nearest_steady files base root (expand_normal expanded)

end Dispatcher
end ParallelLint
