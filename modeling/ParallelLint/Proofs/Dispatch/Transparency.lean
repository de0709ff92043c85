import ParallelLint.Proofs.Dispatch.Stored

set_option autoImplicit false

/-!
A cache makes no difference to what is reported about files that can be read. The same run without a
cache succeeds too, whatever the number of its workers and the order of their steps.
-/
namespace ParallelLint
open Context

/-- If the path leads to a file, this is not the file of a cache: it is still there when the cache
has been deleted. -/
def FileSystem.Apart (fs : FileSystem) (place p : Path) : Prop :=
  ∀ without, fs.remove place = .ok without → fs.isFile p = true →
    without.status p = fs.status p

namespace FileSystem
variable {fs fs' : FileSystem} {place p : Path}

/-- The path leads to the same file, or to one in neither of the file systems. -/
def KeepsFile (fs fs' : FileSystem) (p : Path) : Prop :=
  fs.isFile p = fs'.isFile p ∧ (fs.isFile p = true → fs'.status p = fs.status p)

theorem remove_within {without : FileSystem} (h : fs.remove p = .ok without) : without.Within fs := by
  unfold remove at h
  split at h
  · cases h
  · cases h
  split at h
  · cases h
  split at h
  · cases h
  · cases h
    exact erase_within fs _

theorem Apart.keepsFile {without : FileSystem} (apart : fs.Apart place p)
    (removed : fs.remove place = .ok without) : fs.KeepsFile without p := by
  have kept := apart without removed
  refine ⟨?_, kept⟩
  rw [Bool.eq_iff_iff]
  constructor
  · intro file
    rw [isFile, kept file]
    exact file
  · exact isFile_within (remove_within removed)

theorem KeepsFile.refl (fs : FileSystem) (p : Path) : fs.KeepsFile fs p := ⟨rfl, fun _ => rfl⟩

theorem KeepsFile.readText (h : fs.KeepsFile fs' p) {source : String}
    (text : fs.readText p = .ok source) : fs'.readText p = .ok source := by
  obtain ⟨bytes, modified, status, decoded⟩ := readText_iff.1 text
  have same := h.2 (isFile_status.2 ⟨_, status, rfl⟩)
  exact readText_iff.2 ⟨bytes, modified, same.trans status, decoded⟩

theorem KeepsFile.sameFile (h : fs.KeepsFile fs' p) : Nearest.SameFile fs fs' p := by
  refine ⟨h.1, fun file => ?_⟩
  rw [FileSystem.readText, FileSystem.readText, read, read, h.2 file]

end FileSystem

namespace Call
variable {c : Call}

/-- The same run without a cache, by any number of workers that make their steps in any order. -/
def uncached (c : Call) (concurrency : Concurrency) (parallelism : Nat) (schedule : List Nat) :
    Call :=
  { c with
    dispatcher :=
      { c.dispatcher with
        options := { c.dispatcher.options with cache := false, concurrency }
        parallelism
        schedule } }

/-- The tasks that are reported. -/
def shown (c : Call) : List Task :=
  c.tasks.filter fun t => !t.ignored || c.dispatcher.options.warnIgnored

section
variable (concurrency : Concurrency) (parallelism : Nat) (schedule : List Nat)

theorem uncached_opens (fits : c.Fits)
    (apart : ∀ p ∈ c.paths, ∀ q ∈ p :: Nearest.candidates p, c.files.Apart c.cacheFile q)
    {r : RunReport} (ok : c.answer.1 = .ok r) :
    ∃ files, (c.uncached concurrency parallelism schedule).dispatcher.openCache c.files =
        (.ok none, files) ∧
      ∀ p ∈ c.paths, ∀ q ∈ p :: Nearest.candidates p, c.files.KeepsFile files q := by
  obtain ⟨saved, saves⟩ := saves fits ok
  have opened : (c.uncached concurrency parallelism schedule).dispatcher.openCache c.files =
      ((Cache.delete c.files c.cacheFile).1.map fun _ => none,
        (Cache.delete c.files c.cacheFile).2) := Dispatcher.openCache_unwanted rfl
  have deleted := Cache.delete_of_save saves.save
  rw [saves.path] at deleted
  rcases deleted with missing | ⟨without, removed, done⟩
  · exact ⟨c.files, by rw [opened, missing, Except.map], fun p _ q _ => .refl _ _⟩
  · exact ⟨without, by rw [opened, done, Except.map],
      fun p hp q hq => (apart p hp q hq).keepsFile removed⟩

theorem uncached_answer (fits : c.Fits) (normal : c.Normal)
    (numbered : Task.misnumbered? c.tasks = none) {files : FileSystem}
    (opened : (c.uncached concurrency parallelism schedule).dispatcher.openCache c.files =
      (.ok none, files))
    (resolved : ∀ t ∈ c.tasks, t.ignored = false → ∃ found,
      (Resolver.nearest.resolve files (.fresh c.base c.root) t.path).1 = .ok found) :
    let ctx := c.dispatcher.context c.tasks none
    let world : World Nearest := ⟨files, .fresh c.base c.root⟩
    ∃ r, (c.uncached concurrency parallelism schedule).answer.1 = .ok r ∧
      (∀ t ∈ c.tasks, ctx.Shows world t (ctx.done world t).1.report) ∧
      r.files.map some = c.shown.map fun t => (ctx.done world t).1.report := by
  intro ctx world
  let d := (c.uncached concurrency parallelism schedule).dispatcher
  have total : ctx.analyzer.Total := by
    change c.dispatcher.analyzer.Total
    rw [fits.analyzer]
    exact textRules_total
  have quiet : d.analyzer.Quiet := by
    change c.dispatcher.analyzer.Quiet
    rw [fits.analyzer]
    exact textRules_quiet
  have done : ∀ t ∈ c.tasks, (ctx.process t world).1 = .ok (ctx.done world t) := by
    intro t ht
    refine process_done (process_answered total fun plain => ?_)
    change ∃ found, (c.dispatcher.resolver.resolve _ _ _).1 = .ok found
    rw [fits.resolver]
    exact resolved t ht plain
  have steady : d.resolver.Steady world.files world.resolver (asked c.tasks) := by
    change c.dispatcher.resolver.Steady _ _ _
    rw [fits.resolver]
    exact Nearest.nearest_steady _ _ _ normal
  obtain ⟨workers, asked, listed, ended⟩ :=
    @Dispatcher.runWorkers_done _ d c.tasks none world numbered fits.room quiet steady done
  have ran : (c.uncached concurrency parallelism schedule).answer =
      d.runWorkers c.tasks none world :=
    @Dispatcher.lintTasks_opened _ d c.tasks none c.files world numbered opened
  rw [ended] at ran
  have shows : ∀ t ∈ c.tasks, ctx.Shows world t (ctx.done world t).1.report := fun t ht =>
    (@process_shows _ ctx t world _ _ fits.analyzer fits.fix (fun _ => by rintro cache ⟨⟩)
      (done t ht)).1
  refine ⟨_, by rw [ran]; rfl, shows, ?_⟩
  simp only [merged_reports]
  exact filterMap_filter fun t ht => (shows t ht).isSome

end

end Call

theorem History.answered {earlier : List Call} {last : Call} (history : History (last :: earlier))
    (fits : ∀ c ∈ last :: earlier, c.Fits) (normal : ∀ c ∈ last :: earlier, c.Normal)
    (told : Told (last :: earlier)) {r : RunReport} (ok : last.answer.1 = .ok r) :
    Task.misnumbered? last.tasks = none ∧ ∃ cache : Cache,
      let ctx := last.context cache
      (∀ t ∈ last.tasks, (ctx.process t last.start).1 = .ok (ctx.done last.start t)) ∧
        (∀ t ∈ last.tasks, ctx.Shows last.start t (ctx.done last.start t).1.report) ∧
        r.files.map some = last.shown.map fun t => (ctx.done last.start t).1.report := by
  have mem : last ∈ last :: earlier := List.mem_cons_self ..
  have lastFits := fits last mem
  have lastNormal := normal last mem
  have before : ∀ bytes, last.files.read last.cacheFile = .ok bytes →
      Cache.Written (Recorded (last :: earlier)) bytes := by
    intro bytes read
    cases history with
    | next history found =>
      obtain ⟨d, hd, saved, saves, rfl⟩ := found bytes read
      exact history.recorded (fun c hc => List.mem_cons_of_mem _ hc) told fits normal d hd saved saves
  rcases Call.answer_saved told mem lastFits lastNormal before with ⟨e, failed, -⟩ |
    ⟨saved, -, -, -, ⟨e, failed, -⟩ | ⟨r', cache, ok', -, numbered, all, kind, done, reports⟩⟩
  · rw [ok] at failed
    cases failed
  · rw [ok] at failed
    cases failed
  · rw [ok] at ok'
    cases ok'
    have shows : ∀ t ∈ last.tasks, (last.context cache).Shows last.start t
        ((last.context cache).done last.start t).1.report := fun t ht =>
      (process_shows lastFits.analyzer lastFits.fix
        (fun plain => Recorded.recalls told mem lastFits lastNormal all kind ht plain) (done t ht)).1
    refine ⟨numbered, cache, done, shows, ?_⟩
    rw [reports, merged_reports]
    exact filterMap_filter fun t ht => (shows t ht).isSome

/-- A file with a tab right below the root, and perhaps a cache file beside it. -/
structure FileSystem.HasTab (fs : FileSystem) : Prop where
  tab : fs.statusAt? ["b"] = some (.file [9] 1)
  bare : fs.entry? [".lintpool.toml"] = none
  cache : fs.entry? ["c"] = none ∨ ∃ bytes, fs.statusAt? ["c"] = some (.file bytes 0)

namespace FileSystem.HasTab
variable {fs : FileSystem}

theorem status (h : fs.HasTab) : fs.status (top "b") = .ok (.file [9] 1) :=
  status_top (by decide) h.tab

theorem unconfigured (h : fs.HasTab) : fs.status (top ".lintpool.toml") = .error .notFound :=
  status_top_free (by decide) h.bare

theorem candidates : Nearest.candidates (top "b") = [top ".lintpool.toml"] := by decide

end FileSystem.HasTab

/-- A run with a cache that looks for tabs. -/
def Call.tabs (files : FileSystem) : Call where
  dispatcher :=
    { options := { Options.standard ⟨"/"⟩ with cache := true, cacheLocation := ⟨"c"⟩ }
      analyzer := textRules
      resolver := .nearest
      parallelism := 1
      schedule := [] }
  tasks := [⟨0, FileSystem.top "b", false⟩]
  files
  base := Config.empty.withRule "no-tabs" (.plain .error)
  root := none

theorem History.first_top {c : Call} {name : String} (own : Path.OwnName name)
    (place : c.cacheFile = FileSystem.top name) (free : c.files.entry? [name] = none) :
    History [c] := by
  refine .next .empty fun bytes read => ?_
  rw [FileSystem.read, place, FileSystem.status_top_free own free] at read
  cases read

theorem Dispatcher.lintTasks_top {σ : Type} {d : Dispatcher σ} {tasks : List Task} {world : World σ}
    (wanted : d.options.cache = true) (numbered : Task.misnumbered? tasks = none)
    (room : 2 * tasks.length < UInt64.size) (quiet : d.analyzer.Quiet)
    (stable : d.resolver.Stable world.files) {name : String} (own : Path.OwnName name)
    (place : d.cacheFile world.files = FileSystem.top name) (there : world.files.FreeOrFile name)
    (none : ∀ loaded, (d.pool tasks (some loaded) world).firstError = none) :
    ∃ r bytes, (d.lintTasks tasks world).1 = .ok r ∧
      (d.lintTasks tasks world).2.files =
        world.files.set [name] (.file bytes world.files.clock) := by
  have saves : ∀ cache : Cache, cache.path = d.cacheFile world.files → cache.save world.files =
      (.ok (), world.files.set [name] (.file cache.bytes world.files.clock)) :=
    fun cache path => Cache.save_top own (path.trans place) there.plain
  obtain ⟨loaded, load⟩ := there.load own d.options.cacheStrategy
  rw [← place] at load
  obtain ⟨r, after, ok⟩ := lintTasks_saves wanted numbered room quiet stable load (none loaded)
    fun cache path => ⟨_, saves cache path⟩
  obtain ⟨loaded', run⟩ := lintTasks_cached wanted room quiet stable ok
  have written := run.saved.symm.trans (saves _ (Cache.load_place run.opened).1)
  have left : (d.lintTasks tasks world).2.files = after.files := congrArg (fun a => a.2.files) ok
  exact ⟨r, _, congrArg Prod.fst ok, left.trans (congrArg Prod.snd written)⟩

namespace FileSystem.HasTab
variable {fs : FileSystem}

theorem freeOrFile (h : fs.HasTab) : fs.FreeOrFile "c" :=
  h.cache.imp_right fun ⟨bytes, found⟩ => ⟨bytes, 0, found⟩

theorem cacheFile (h : fs.HasTab) : (Call.tabs fs).cacheFile = top "c" :=
  h.freeOrFile.locate (by decide)

theorem resolved (h : fs.HasTab) :
    (Resolver.nearest.resolve fs (.fresh (Call.tabs fs).base none) (top "b")).1 =
      .ok (some (.ofConfig (Call.tabs fs).base none)) := by
  have noFile : fs.isFile (top ".lintpool.toml") = false := by
    rw [isFile, h.unconfigured]
  have around : Nearest.directories (top "b") = [⟨"/"⟩] := by decide
  have file : (⟨"/"⟩ : Path).join Nearest.fileName = top ".lintpool.toml" := by decide
  simp only [Resolver.nearest, Nearest.resolve, around, Nearest.resolveIn, file, noFile]
  rfl

theorem config? (h : fs.HasTab) :
    (Call.tabs fs).config? (top "b") = some (.ofConfig (Call.tabs fs).base none) := by
  have found : (Resolver.nearest.resolve (Call.tabs fs).files
      (.fresh (Call.tabs fs).base (Call.tabs fs).root) (top "b")).1 =
        .ok (some (.ofConfig (Call.tabs fs).base none)) := h.resolved
  rw [Call.config?, found]

theorem read (h : fs.HasTab) : fs.read (top "b") = .ok [9] :=
  read_iff.2 ⟨1, h.status⟩

theorem fits (h : fs.HasTab) : (Call.tabs fs).Fits where
  resolver := rfl
  analyzer := rfl
  cache := rfl
  fix := .inl rfl
  room := by
    change 2 * 1 < UInt64.size
    decide
  small t ht bytes read := by
    rw [List.mem_singleton.1 ht] at read
    cases h.read.symm.trans read
    decide

theorem normal (fs : FileSystem) : (Call.tabs fs).Normal := by
  intro p hp
  rw [List.mem_singleton.1 hp]
  exact top_normal (by decide)

theorem succeeds (h : fs.HasTab) {tasks : List Task} (numbered : Task.misnumbered? tasks = none)
    (room : 2 * tasks.length < UInt64.size) (normal : ∀ p ∈ asked tasks, p.Normal)
    (resolved : ∀ t ∈ tasks, ∃ found,
      (Resolver.nearest.resolve fs (.fresh (Call.tabs fs).base none) t.path).1 = .ok found) :
    let c : Call := { Call.tabs fs with tasks }
    ∃ r bytes, c.answer.1 = .ok r ∧ c.left = fs.set ["c"] (.file bytes fs.clock) := by
  intro c
  have answered := fun loaded => @Context.steady_done _ (c.context loaded) c.start textRules_quiet
    (Nearest.nearest_steady _ _ _ normal) fun t ht => process_answered textRules_total fun _ =>
      resolved t ht
  exact @Dispatcher.lintTasks_top _ c.dispatcher tasks c.start rfl numbered room textRules_quiet
    (Nearest.nearest_stable fs) _ (by decide) h.cacheFile h.freeOrFile fun loaded =>
      Dispatcher.pool_noError room (answered loaded)

theorem left (h : fs.HasTab) : ∃ r bytes, (Call.tabs fs).answer.1 = .ok r ∧
    (Call.tabs fs).left = fs.set ["c"] (.file bytes fs.clock) :=
  h.succeeds rfl h.fits.room (normal fs) fun t ht => by
    rw [List.mem_singleton.1 ht]
    exact ⟨_, h.resolved⟩

theorem set_cache (h : fs.HasTab) (bytes : Text.Bytes) :
    (fs.set ["c"] (.file bytes 0)).HasTab where
  tab := statusAt_set_other h.tab (by decide) _
  bare := (get_set_other (by decide) _).trans h.bare
  cache := .inr ⟨bytes, statusAt_set (by decide) _ _⟩

theorem erase_cache (h : fs.HasTab) : (fs.erase ["c"]).HasTab where
  tab := statusAt_erase_other h.tab (by decide)
  bare := (entry_erase ..).trans h.bare
  cache := .inl (entry_erase ..)

theorem apart (h : fs.HasTab) : ∀ p ∈ (Call.tabs fs).paths, ∀ q ∈ p :: Nearest.candidates p,
    fs.Apart (Call.tabs fs).cacheFile q := by
  intro p hp q hq without removed file
  obtain ⟨place, can⟩ := top_replaceable (by decide) h.freeOrFile.plain
  rw [h.cacheFile] at removed
  rw [List.mem_singleton.1 hp, candidates] at hq
  rcases can.remove with missing | gone
  · cases missing.symm.trans removed
  · cases gone.symm.trans removed
    rcases List.mem_cons.1 hq with rfl | hq
    · rw [h.status, h.erase_cache.status]
    · rw [List.mem_singleton.1 hq, isFile, h.unconfigured] at file
      cases file

theorem told {calls : List Call}
    (all : ∀ c ∈ calls, ∃ fs : FileSystem, fs.HasTab ∧ c = Call.tabs fs) : Told calls := by
  constructor
  · intro c hc d hd _ path hp _ _ _ _
    obtain ⟨fs, h, rfl⟩ := all c hc
    obtain ⟨fs', h', rfl⟩ := all d hd
    rw [List.mem_singleton.1 hp]
    exact h.read.trans h'.read.symm
  · intro c hc d hd p hp q hq f g found found' _
    obtain ⟨fs, h, rfl⟩ := all c hc
    obtain ⟨fs', h', rfl⟩ := all d hd
    rw [List.mem_singleton.1 hp, h.config?] at found
    rw [List.mem_singleton.1 hq, h'.config?] at found'
    cases found
    cases found'
    rfl

end FileSystem.HasTab

end ParallelLint
