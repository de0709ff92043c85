import Mathlib.Data.List.Nodup
import ParallelLint.Proofs.Config.Spelling
import ParallelLint.Proofs.Dispatch.Again
import ParallelLint.Proofs.Pool.Lockstep

set_option autoImplicit false

namespace ParallelLint
open Context
variable {σ : Type}

theorem Nearest.setting_alike {fs : FileSystem} {state state' : Nearest} {file : Path}
    {found : Option ResolvedConfig} (known : (Resolver.nearest.resolve fs state' file).1 = .ok found)
    (alike : setting? ((resolve fs state file).map Prod.fst) =
      setting? ((resolve fs state' file).map Prod.fst)) :
    Resolver.nearest.setting fs state file = Resolver.nearest.setting fs state' file := by
  rw [nearest_answer] at known
  rw [Resolver.setting, Resolver.setting, nearest_answer, nearest_answer]
  revert known alike
  generalize (resolve fs state file).map Prod.fst = answer
  generalize (resolve fs state' file).map Prod.fst = answer'
  cases answer' with
  | error e => rintro ⟨⟩
  | ok config' =>
    cases answer with
    | error e => rintro - ⟨⟩
    | ok config =>
      intro _ alike
      have same := Option.some.inj alike
      exact congrArg (fun setting => Except.ok (some setting)) same

theorem Stats.sum_analyzed {counts : List Stats} (none : ∀ s ∈ counts, s.analyzed = 0) :
    counts.sum.analyzed = 0 := by
  induction counts with
  | nil => rfl
  | cons s rest' ih =>
    have rest := ih fun t ht => none t (List.mem_cons_of_mem _ ht)
    calc (s :: rest').sum.analyzed = s.analyzed + rest'.sum.analyzed := by
          rw [List.sum_cons, ← Stats.add_eq, Stats.add]
      _ = 0 := by rw [none s (List.mem_cons_self ..), rest]

theorem Cache.entry_prune (c : Cache) (fs : FileSystem) {path : Path} {e : CacheEntry} :
    Cache.entry? (c.prune fs) path = some e ↔
      ∃ key, (key, e) ∈ c.entries.entries ∧ path.parts = key.parts ∧ fs.contains key = true := by
  rw [prune, entry?, Sorted.find?_filter]
  exact exists_congr fun key => and_congr_right fun _ => and_congr_left' Path.compare_eq

namespace Dispatcher
variable {d : Dispatcher σ} {tasks : List Task} {world : World σ} {state : σ} {loaded : Cache}

def kept (d : Dispatcher σ) (tasks : List Task) (loaded : Cache) (world : World σ) : Cache :=
  (d.renewed tasks loaded world).prune world.files

theorem Processed.kept_given (h : d.Processed tasks world state loaded)
    (rules : d.analyzer = textRules) (off : d.options.fix = .off)
    (entries : loaded.All fun path e => e.Stored path)
    (distinct : (tasks.map fun t => t.path.parts).Nodup) {t : Task} (ht : t ∈ tasks)
    (plain : t.ignored = false) {config : ResolvedConfig} {result : LintResult}
    {signature : Signature}
    (resolved : (d.resolver.resolve world.files state t.path).1 = .ok (some config))
    (gives : (d.context tasks (some loaded)).Gives loaded world.files t config result signature) :
    Cache.entry? (d.kept tasks loaded ⟨world.files, state⟩) t.path =
      some (Cache.entryOf signature config.fingerprint result) := by
  have renews : (d.context tasks (some loaded)).Renews loaded ⟨world.files, state⟩ t _ :=
    ⟨plain, config, result, signature, resolved, gives, gives.unfixed rules off entries, rfl⟩
  have there := (h.mem_renewed distinct).2 (.inl ⟨t, ht, rfl, renews⟩)
  have same := loaded.keyOf_parts t.path
  refine (Cache.entry_prune _ _).2 ⟨_, there, same, ?_⟩
  obtain ⟨s, status⟩ := gives.status
  have found : world.files.contains t.path = true := FileSystem.contains_iff.2 ⟨s, status⟩
  rcases Sorted.keyIn_cases t.path loaded.entries.entries with own | ⟨old, mem⟩
  · rwa [Cache.keyOf, own]
  · obtain ⟨fs, file⟩ := (entries _ mem).file
    exact FileSystem.contains_iff.2 ⟨s, FileSystem.status_sameParts same status file⟩

theorem Processed.kept_unread (h : d.Processed tasks world state loaded)
    (distinct : (tasks.map fun t => t.path.parts).Nodup) {t : Task} (ht : t ∈ tasks)
    (none : ∀ e, ¬(d.context tasks (some loaded)).Renews loaded ⟨world.files, state⟩ t e)
    {e : CacheEntry}
    (known : Cache.entry? (d.kept tasks loaded ⟨world.files, state⟩) t.path = some e) :
    loaded.entry? t.path = some e := by
  obtain ⟨key, mem, same, -⟩ := (Cache.entry_prune _ _).1 known
  rcases (h.mem_renewed distinct).1 mem with ⟨t', ht', rfl, renews⟩ | ⟨mem, -⟩
  · obtain rfl := List.inj_on_of_nodup_map distinct ht' ht
      ((loaded.keyOf_parts t'.path).trans same.symm)
    exact absurd renews (none e)
  · exact (Sorted.find?_iff _).2 ⟨key, mem, Path.compare_eq.2 same⟩

theorem Processed.keeps (h : d.Processed tasks world state loaded)
    (rules : d.analyzer = textRules) (off : d.options.fix = .off)
    (entries : loaded.All fun path e => e.Stored path)
    (distinct : (tasks.map fun t => t.path.parts).Nodup) {t : Task} (ht : t ∈ tasks)
    (plain : t.ignored = false) {config : ResolvedConfig}
    (resolved : (d.resolver.resolve world.files state t.path).1 = .ok (some config)) :
    (d.context tasks (some loaded)).Keeps loaded (d.kept tasks loaded ⟨world.files, state⟩)
      world.files t config where
  strategy := rfl
  given gives := ⟨h.kept_given rules off entries distinct ht plain resolved gives,
    fun _ shown => gives.sourced rules off entries shown⟩
  unread none e known := by
    refine h.kept_unread distinct ht ?_ known
    rintro e ⟨-, config', result, signature, resolved', gives, -, -⟩
    have same := resolved.symm.trans resolved'
    cases same
    exact none _ _ gives

end Dispatcher

namespace Call
variable {c : Call} {r : RunReport} {loaded : Cache}
  {analyze : Request → FileSystem → Except Breakdown LintResult × FileSystem}
  {parallelism : Nat} {schedule : List Nat}

/-- The same run again, with the files that are left. -/
def repeated (c : Call)
    (analyze : Request → FileSystem → Except Breakdown LintResult × FileSystem)
    (parallelism : Nat) (schedule : List Nat) : Call :=
  { c with
    files := c.left
    dispatcher :=
      { c.dispatcher with
        analyzer := { c.dispatcher.analyzer with analyze }
        parallelism
        schedule } }

/-- Saving the cache disturbs nothing that the run goes by: its paths lead to what they have led to,
what was there is still there, and the cache file is found where it was saved. -/
structure Undisturbed (c : Call) : Prop where
  linted : ∀ loaded, Cache.load c.files c.cacheFile c.strategy = .ok loaded →
    ∀ p ∈ c.paths, loaded.Unmoved c.files c.left p
  configured : ∀ p ∈ c.paths, ∀ q ∈ Nearest.candidates p, Nearest.SameFile c.files c.left q
  kept : ∀ p, c.files.contains p = true → c.left.contains p = true
  saved : ∃ bytes, c.left.read c.cacheFile = .ok bytes

/-- The cache that the run saves. -/
def kept (c : Call) (loaded : Cache) : Cache :=
  c.dispatcher.kept c.tasks loaded ⟨c.files, c.answer.2.resolver⟩

theorem reopens (fits : c.Fits) (off : c.dispatcher.options.fix = .off)
    (run : c.dispatcher.Cached c.tasks c.start c.answer.2 r loaded)
    (entries : loaded.All fun path e => e.Stored path)
    (there : ∃ bytes, c.left.read c.cacheFile = .ok bytes) :
    c.left.read c.cacheFile = .ok (c.kept loaded).bytes ∧
      Cache.load c.left (c.dispatcher.cacheFile c.left) c.strategy = .ok (c.kept loaded) := by
  have path : (c.kept loaded).path = c.cacheFile := (Cache.load_place run.opened).1
  have strategy : (c.kept loaded).strategy = c.strategy := (Cache.load_place run.opened).2
  have small : (c.kept loaded).Small := fun e he =>
    ((run.stored fits.analyzer off fits.small entries).prune c.files e he).small
  obtain ⟨bytes, there⟩ := there
  have read : c.left.read c.cacheFile = .ok (c.kept loaded).bytes := by
    rw [there]
    exact congrArg _ (Cache.save_read run.saved (path.symm ▸ there))
  have place : c.dispatcher.cacheFile c.left = c.cacheFile :=
    Cache.locate_again (FileSystem.isFile_of_read there)
  refine ⟨read, ?_⟩
  rw [place, Cache.load, read]
  simp only
  rw [Cache.ofBytes_bytes small, if_pos strategy, ← path, ← strategy]

/-- In this state the resolver finds what it would have found at the end of the run. -/
def FindsAgain (c : Call) (state : Nearest) (t : Task) : Prop :=
  t.ignored = false → c.dispatcher.resolver.setting c.left state t.path =
    c.dispatcher.resolver.setting c.files c.answer.2.resolver t.path

theorem resolve_left (fits : c.Fits) (undisturbed : c.Undisturbed) (state : Nearest) {path : Path}
    (hp : path ∈ c.paths) :
    c.dispatcher.resolver.resolve c.left state path =
      c.dispatcher.resolver.resolve c.files state path := by
  rw [fits.resolver]
  exact (Nearest.nearest_congr (undisturbed.configured path hp)).symm

theorem after_left (fits : c.Fits) (undisturbed : c.Undisturbed) (state : Nearest)
    {asked : List Path} (listed : ∀ p ∈ asked, p ∈ c.paths) :
    c.dispatcher.resolver.after c.left state asked =
      c.dispatcher.resolver.after c.files state asked := by
  rw [fits.resolver]
  exact (Nearest.after_congr fun p hp => undisturbed.configured p (listed p hp)).symm

section
variable (fits : c.Fits) (run : c.dispatcher.Cached c.tasks c.start c.answer.2 r loaded)
  (undisturbed : c.Undisturbed)
include fits run undisturbed

theorem finds_spelled (spelled : Nearest.SpelledAlike c.files c.paths) {asked : List Path}
    (listed : ∀ p ∈ asked, p ∈ c.paths) {t : Task} (ht : t ∈ c.tasks) :
    c.FindsAgain (c.dispatcher.resolver.after c.left (.fresh c.base c.root) asked) t := by
  intro plain
  obtain ⟨first, listed₁, begun⟩ := run.asked
  obtain ⟨rest, listed₂, ended⟩ := run.closed
  have mem : t.path ∈ c.paths := mem_asked ht plain
  have last : c.answer.2.resolver =
      c.dispatcher.resolver.after c.files (.fresh c.base c.root) (first ++ rest) := by
    rw [Resolver.after_append, ended]
    exact congrArg (fun state => c.dispatcher.resolver.after c.files state rest) begun
  have whole : ∀ p ∈ first ++ rest, p ∈ c.paths :=
    fun p hp => (List.mem_append.1 hp).elim (listed₁ p) (listed₂ p)
  have resolved := run.resolved ht plain
  have alike := @Nearest.resolve_spelled _ _ spelled c.base c.root _ _ listed whole _ mem
  rw [Resolver.setting, resolve_left fits undisturbed _ mem, after_left fits undisturbed _ listed,
    ← Resolver.setting]
  rw [last] at resolved ⊢
  rw [fits.resolver] at resolved ⊢
  exact Nearest.setting_alike resolved alike

theorem finds_settled {asked : List Path} (listed : ∀ p ∈ asked, p ∈ c.paths) {t : Task}
    (ht : t ∈ c.tasks) :
    c.FindsAgain (c.dispatcher.resolver.after c.left
      (c.dispatcher.pool c.tasks (some loaded) c.start).shared.world.resolver asked) t := by
  intro plain
  have mem : t.path ∈ c.paths := mem_asked ht plain
  have answer := run.answers t ht plain asked listed
  have resolved := run.resolved ht plain
  rw [after_left fits undisturbed _ listed, Resolver.setting, Resolver.setting,
    resolve_left fits undisturbed _ mem]
  exact congrArg _ (answer.trans resolved.symm)

variable (off : c.dispatcher.options.fix = .off)
  (entries : loaded.All fun path e => e.Stored path)
include off entries

theorem repeated_succeeds (quiet : ∀ request fs, (analyze request fs).2 = fs)
    (none : ((c.repeated analyze parallelism schedule).dispatcher.pool c.tasks
      (some (c.kept loaded)) (c.repeated analyze parallelism schedule).start).firstError = none) :
    let next := c.repeated analyze parallelism schedule
    ∃ r', next.answer.1 = .ok r' ∧
      next.dispatcher.Cached c.tasks next.start next.answer.2 r' (c.kept loaded) := by
  intro next
  have stable : next.dispatcher.resolver.Stable c.left := by
    change c.dispatcher.resolver.Stable c.left
    rw [fits.resolver]
    exact Nearest.nearest_stable _
  obtain ⟨read, load⟩ := reopens fits off run entries undisturbed.saved
  have path : (c.kept loaded).path = c.cacheFile := (Cache.load_place run.opened).1
  have place : next.dispatcher.cacheFile c.left = c.cacheFile :=
    Cache.locate_again (FileSystem.isFile_of_read read)
  obtain ⟨r', after, ok⟩ := @Dispatcher.lintTasks_saves _ next.dispatcher c.tasks next.start
    fits.cache run.numbered fits.room quiet stable _ load none fun cache same => by
      obtain ⟨files, saved, -⟩ := Cache.save_again run.saved (path.symm ▸ read)
        ((same.trans place).trans path.symm)
      exact ⟨files, saved⟩
  have ok' : next.answer = (.ok r', after) := ok
  obtain ⟨loaded', run'⟩ := @Dispatcher.lintTasks_cached _ next.dispatcher c.tasks next.start _ _
    fits.cache fits.room quiet stable ok
  obtain rfl := Except.ok.inj (load.symm.trans run'.opened)
  exact ⟨r', by rw [ok'], by rw [ok']; exact run'⟩

variable (distinct : (c.tasks.map fun t => t.path.parts).Nodup)
include distinct

theorem repeated_process {state : Nearest} {t : Task} (ht : t ∈ c.tasks)
    (finds : c.FindsAgain state t) :
    (((c.repeated analyze parallelism schedule).context (c.kept loaded)).process t
      ⟨c.left, state⟩).1 =
        .ok (again ((c.context loaded).done ⟨c.files, c.answer.2.resolver⟩ t)) :=
  @process_again _ (c.context loaded) _ _ _ _ _ _ rfl off _ _
    (fun plain => undisturbed.linted loaded run.opened _ (mem_asked ht plain)) finds
    (fun plain _ resolved => run.keeps fits.analyzer off entries distinct ht plain resolved)
    _ (run.done t ht)

theorem repeated_done {state : Nearest} {t : Task} (ht : t ∈ c.tasks)
    (finds : c.FindsAgain state t) :
    ((c.repeated analyze parallelism schedule).context (c.kept loaded)).done ⟨c.left, state⟩ t =
      again ((c.context loaded).done ⟨c.files, c.answer.2.resolver⟩ t) := by
  rw [Context.done, repeated_process fits run undisturbed off entries distinct ht finds]

theorem repeated_kept {state : Nearest} (finds : ∀ t ∈ c.tasks, c.FindsAgain state t) :
    (c.repeated analyze parallelism schedule).dispatcher.kept c.tasks (c.kept loaded)
      ⟨c.left, state⟩ = c.kept loaded := by
  let next := c.repeated analyze parallelism schedule
  have news : next.dispatcher.news c.tasks (c.kept loaded) ⟨c.left, state⟩ =
      c.dispatcher.news c.tasks loaded ⟨c.files, c.answer.2.resolver⟩ := by
    refine List.filterMap_congr fun t ht => ?_
    have done := @repeated_done c r loaded analyze parallelism schedule fits run undisturbed off
      entries distinct state t ht (finds t ht)
    have prints : ∀ m, Cache.new? c.tasks (c.dispatcher.resolver.config? c.left state) m =
        Cache.new? c.tasks (c.dispatcher.resolver.config? c.files c.answer.2.resolver) m :=
      Cache.new_congr fun t ht plain => Resolver.setting_fingerprint (finds t ht plain)
    let first := (c.context loaded).done ⟨c.files, c.answer.2.resolver⟩ t
    calc _ = (again first).1.merged?.bind
          (Cache.new? c.tasks (c.dispatcher.resolver.config? c.left state)) :=
          congrArg (fun done => done.1.merged?.bind
            (Cache.new? c.tasks (c.dispatcher.resolver.config? c.left state))) done
      _ = first.1.merged?.bind
          (Cache.new? c.tasks (c.dispatcher.resolver.config? c.files c.answer.2.resolver)) :=
          congrArg (Option.bind _) (funext prints)
  have known : ∀ e ∈ next.dispatcher.news c.tasks (c.kept loaded) ⟨c.left, state⟩,
      (c.kept loaded).entries.find? e.1 = some e.2 := by
    rw [news]
    rintro ⟨p, e⟩ new
    obtain ⟨t, ht, rfl, plain, config, result, signature, resolved, gives, -, rfl⟩ :=
      run.mem_news.1 new
    exact run.kept_given fits.analyzer off entries distinct ht plain resolved gives
  have there : ∀ e ∈ (c.kept loaded).entries.entries, c.left.contains e.1 = true :=
    fun e he => undisturbed.kept _ (List.mem_filter.1 he).2
  rw [Dispatcher.kept, Dispatcher.renewed, Cache.insertAll, Sorted.insertAll_found known,
    Cache.prune, Sorted.filter_all there]

theorem repeated_ends {r' : RunReport}
    (run' : (c.repeated analyze parallelism schedule).dispatcher.Cached c.tasks
      (c.repeated analyze parallelism schedule).start
      (c.repeated analyze parallelism schedule).answer.2 r' (c.kept loaded))
    (finds : ∀ t ∈ c.tasks,
      c.FindsAgain (c.repeated analyze parallelism schedule).answer.2.resolver t) :
    r'.files = r.files ∧ r'.stats.analyzed = 0 ∧
      ∃ bytes, c.left.read c.cacheFile = .ok bytes ∧
        (c.repeated analyze parallelism schedule).left.read c.cacheFile = .ok bytes := by
  have done := fun {t : Task} (ht : t ∈ c.tasks) =>
    @repeated_done c r loaded analyze parallelism schedule fits run undisturbed off entries distinct
      _ t ht (finds t ht)
  refine ⟨?_, ?_, ?_⟩
  · rw [run'.files, run.files]
    refine List.filterMap_congr fun t ht => ?_
    exact congrArg (fun done => done.1.report) (done ht)
  · rw [run'.stats]
    refine Stats.sum_analyzed fun s hs => ?_
    obtain ⟨t, ht, rfl⟩ := List.mem_map.1 hs
    calc _ = (again ((c.context loaded).done ⟨c.files, c.answer.2.resolver⟩ t)).2.analyzed :=
          congrArg (fun done => done.2.analyzed) (done ht)
      _ = 0 := again_analyzed _
  · have path : (c.kept loaded).path = c.cacheFile := (Cache.load_place run.opened).1
    obtain ⟨read, -⟩ := reopens fits off run entries undisturbed.saved
    obtain ⟨files, saved, same⟩ : ∃ files, (c.kept loaded).save c.left = (.ok (), files) ∧
        files.read (c.kept loaded).path = .ok (c.kept loaded).bytes :=
      Cache.save_again run.saved (path.symm ▸ read) rfl
    have saved' : ((c.repeated analyze parallelism schedule).dispatcher.kept c.tasks
        (c.kept loaded) ⟨c.left, (c.repeated analyze parallelism schedule).answer.2.resolver⟩).save
          c.left = (.ok (), (c.repeated analyze parallelism schedule).left) := run'.saved
    rw [repeated_kept fits run undisturbed off entries distinct finds, saved] at saved'
    refine ⟨_, read, ?_⟩
    rw [← (Prod.mk.inj saved').2, ← path]
    exact same

theorem repeated_steady (quiet : ∀ request fs, (analyze request fs).2 = fs)
    (spelled : Nearest.SpelledAlike c.files c.paths) :
    ((c.repeated analyze parallelism schedule).dispatcher.pool c.tasks (some (c.kept loaded))
      (c.repeated analyze parallelism schedule).start).firstError = none := by
  refine @Dispatcher.pool_noError _ _ c.tasks _ _
    (fun t => again ((c.context loaded).done ⟨c.files, c.answer.2.resolver⟩ t)) fits.room ?_
  intro log listed t ht
  have quiet : ((c.repeated analyze parallelism schedule).context (c.kept loaded)).analyzer.Quiet :=
    quiet
  have after := Context.after_eq quiet (c.repeated analyze parallelism schedule).start log
  have finds := finds_spelled fits run undisturbed spelled (asked_subset listed) ht
  calc _ = (Context.process _ t _).1 := congrArg (fun world => (Context.process _ t world).1) after
    _ = .ok (again ((c.context loaded).done ⟨c.files, c.answer.2.resolver⟩ t)) :=
      repeated_process fits run undisturbed off entries distinct ht finds

theorem repeated_answer {state : Nearest} {t : Task} (ht : t ∈ c.tasks)
    (onward : c.dispatcher.resolver.Onward c.files
      ((c.context loaded).process t ⟨c.files, state⟩).2.resolver
      (c.dispatcher.pool c.tasks (some loaded) c.start).shared.world.resolver) :
    SameAnswer ((c.context loaded).process t ⟨c.files, state⟩).1
      (((c.repeated analyze parallelism schedule).context (c.kept loaded)).process t
        ⟨c.left, state⟩).1 := by
  have total : (c.context loaded).analyzer.Total := by
    change c.dispatcher.analyzer.Total
    rw [fits.analyzer]
    exact textRules_total
  cases answer : ((c.context loaded).process t ⟨c.files, state⟩).1 with
  | error cause =>
    cases plain : t.ignored with
    | true =>
      rw [process_ignored plain] at answer
      split at answer <;> cases answer
    | false =>
      cases resolved : (c.dispatcher.resolver.resolve c.files state t.path).1 with
      | ok found =>
        obtain ⟨done, ok⟩ := @process_answered _ (c.context loaded) total t ⟨c.files, state⟩
          fun _ => ⟨found, resolved⟩
        rw [answer] at ok
        cases ok
      | error e =>
        have resolved' : (c.dispatcher.resolver.resolve c.left state t.path).1 = .error e := by
          rw [resolve_left fits undisturbed state (mem_asked ht plain), resolved]
        have failed := @process_unresolved _ (c.context loaded) t ⟨c.files, state⟩ plain e resolved
        have failed' := @process_unresolved _ ((c.repeated analyze parallelism schedule).context
          (c.kept loaded)) t ⟨c.left, state⟩ plain e resolved'
        rw [failed']
        exact Except.error.inj (answer.symm.trans failed)
  | ok done =>
    have finds : c.FindsAgain state t := by
      intro plain
      obtain ⟨found, resolved⟩ := process_resolves plain answer
      obtain ⟨asked, last⟩ := onward
      have next : Context.asked [t] = [t.path] := by simp [Context.asked, plain]
      have kept := stable fits state t.path found resolved asked
      -- this state lies on the way of the resolver to its last one
      rw [process_resolver, next] at last
      change _ = c.dispatcher.resolver.after c.files
        (c.dispatcher.resolver.after c.files state [t.path]) asked at last
      rw [← Resolver.after_append, List.singleton_append] at last
      rw [← last] at kept
      rw [Resolver.setting, Resolver.setting, resolve_left fits undisturbed _ (mem_asked ht plain)]
      refine congrArg _ ?_
      calc (c.dispatcher.resolver.resolve c.files state t.path).1 = .ok found := resolved
        _ = (c.dispatcher.resolver.resolve c.files (c.dispatcher.pool c.tasks (some loaded)
              c.start).shared.world.resolver t.path).1 := kept.symm
        _ = .ok (c.dispatcher.resolver.config? c.files c.answer.2.resolver t.path) :=
              run.answers t ht plain [] (by simp)
        _ = (c.dispatcher.resolver.resolve c.files c.answer.2.resolver t.path).1 :=
              (run.resolved ht plain).symm
    rw [repeated_process fits run undisturbed off entries distinct ht finds]
    trivial

theorem repeated_mirrors (quiet : ∀ request fs, (analyze request fs).2 = fs) :
    (c.context loaded).Mirrors
      ((c.repeated analyze parallelism schedule).context (c.kept loaded)) c.files c.left
      (c.dispatcher.pool c.tasks (some loaded) c.start).shared.world.resolver where
  tasks := rfl
  answer t ht state onward := by
    refine ⟨repeated_answer fits run undisturbed off entries distinct ht onward, ?_⟩
    have listed : ∀ p ∈ Context.asked [t], p ∈ c.paths :=
      asked_subset fun t' ht' => List.mem_singleton.1 ht' ▸ ht
    have quiet' : ((c.repeated analyze parallelism schedule).context
        (c.kept loaded)).analyzer.Quiet := quiet
    have files := Context.process_files quiet' t ⟨c.left, state⟩
    have resolver := Context.process_resolver
      ((c.repeated analyze parallelism schedule).context (c.kept loaded)) t ⟨c.left, state⟩
    have resolver' := Context.process_resolver (c.context loaded) t ⟨c.files, state⟩
    have same := after_left fits undisturbed state listed
    rw [resolver']
    exact congrArg₂ World.mk files (resolver.trans same)

/-- In the same order the workers make the same steps. -/
theorem repeated_lockstep (quiet : ∀ request fs, (analyze request fs).2 = fs) :
    let next := c.repeated analyze c.dispatcher.parallelism c.dispatcher.schedule
    let pool := c.dispatcher.pool c.tasks (some loaded) c.start
    let pool' := next.dispatcher.pool c.tasks (some (c.kept loaded)) next.start
    pool'.firstError = pool.firstError ∧
      pool'.shared.world.resolver = pool.shared.world.resolver := by
  intro next pool pool'
  have quiet₀ : (c.context loaded).analyzer.Quiet := by
    change c.dispatcher.analyzer.Quiet
    exact fits.analyzer ▸ textRules_quiet
  have countable : (c.context loaded).Countable := by
    have room := fits.room
    change c.tasks.length < UInt64.size
    omega
  have alike := Pool.run_alike quiet₀ countable
    (@repeated_mirrors c r loaded analyze c.dispatcher.parallelism c.dispatcher.schedule fits run
      undisturbed off entries distinct quiet)
  exact ⟨alike.firstError, alike.shared.resolver⟩

theorem repeated_spelled (quiet : ∀ request fs, (analyze request fs).2 = fs)
    (spelled : Nearest.SpelledAlike c.files c.paths) :
    let next := c.repeated analyze parallelism schedule
    ∃ r', next.answer.1 = .ok r' ∧ r'.files = r.files ∧ r'.stats.analyzed = 0 ∧
      ∃ bytes, c.left.read c.cacheFile = .ok bytes ∧ next.left.read c.cacheFile = .ok bytes := by
  intro next
  obtain ⟨r', ok, run'⟩ := repeated_succeeds fits run undisturbed off entries quiet
    (@repeated_steady c r loaded analyze parallelism schedule fits run undisturbed off entries
      distinct quiet spelled)
  refine ⟨r', ok, repeated_ends fits run undisturbed off entries distinct run' fun t ht => ?_⟩
  obtain ⟨asked, listed, begun⟩ := run'.asked
  obtain ⟨asked', listed', ended⟩ := run'.closed
  rw [ended, begun, ← Resolver.after_append]
  exact finds_spelled fits run undisturbed spelled
    (List.forall_mem_append.2 ⟨listed, listed'⟩) ht

theorem repeated_inOrder (quiet : ∀ request fs, (analyze request fs).2 = fs) :
    let next := c.repeated analyze c.dispatcher.parallelism c.dispatcher.schedule
    ∃ r', next.answer.1 = .ok r' ∧ r'.files = r.files ∧ r'.stats.analyzed = 0 ∧
      ∃ bytes, c.left.read c.cacheFile = .ok bytes ∧ next.left.read c.cacheFile = .ok bytes := by
  intro next
  obtain ⟨failed, state⟩ := @repeated_lockstep c r loaded analyze fits run undisturbed off entries
    distinct quiet
  obtain ⟨r', ok, run'⟩ := repeated_succeeds fits run undisturbed off entries quiet
    (failed.trans run.noError)
  refine ⟨r', ok, repeated_ends fits run undisturbed off entries distinct run' fun t ht => ?_⟩
  obtain ⟨asked, listed, ended⟩ := run'.closed
  rw [ended, state]
  exact finds_settled fits run undisturbed listed ht

end

end Call

end ParallelLint
