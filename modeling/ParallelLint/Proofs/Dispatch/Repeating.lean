import ParallelLint.Proofs.Dispatch.Rerun
import ParallelLint.Proofs.Dispatch.Transparency
import ParallelLint.Proofs.FileSystem.Contents

set_option autoImplicit false

/-!
Running again. When a run without fixes has saved its cache and disturbed nothing else by this, the
same run finds all results in the cache: nothing is analyzed, the same is reported, and the cache
file stays as it is.
-/
namespace ParallelLint
open Context

/-- A run without fixes that has succeeded and has disturbed nothing by saving its cache can be
repeated: it reports the same, without an analysis, and leaves the cache file as it was. Either the
tasks are taken in the same order, or all spellings of a configuration file's path lead to it. -/
theorem History.repeats {first : Call} {earlier : List Call} (history : History (first :: earlier))
    (fits : ∀ c ∈ first :: earlier, c.Fits)
    (off : ∀ c ∈ first :: earlier, c.dispatcher.options.fix = .off)
    (distinct : (first.tasks.map fun t => t.path.parts).Nodup)
    {r : RunReport} (ok : first.answer.1 = .ok r) (undisturbed : first.Undisturbed)
    {analyze : Request → FileSystem → Except Breakdown LintResult × FileSystem}
    (quiet : ∀ request fs, (analyze request fs).2 = fs) {parallelism : Nat} {schedule : List Nat}
    (order : Nearest.SpelledAlike first.files first.paths ∨
      parallelism = first.dispatcher.parallelism ∧ schedule = first.dispatcher.schedule) :
    let next := first.repeated analyze parallelism schedule
    ∃ r', next.answer.1 = .ok r' ∧ r'.files = r.files ∧ r'.stats.analyzed = 0 ∧
      ∃ bytes, first.left.read first.cacheFile = .ok bytes ∧
        next.left.read first.cacheFile = .ok bytes := by
  intro next
  have fits₁ := fits first (List.mem_cons_self ..)
  have off₁ := off first (List.mem_cons_self ..)
  obtain ⟨loaded, run⟩ := Call.cached fits₁ ok
  have entries : loaded.All fun path e => e.Stored path := by
    refine @Cache.load_all _ _ _ (fun _ path e => e.Stored path) _ run.opened
      (fun _ _ _ h => h.small) fun bytes read => ?_
    cases history with
    | next history found =>
      obtain ⟨d, hd, saved, saves, rfl⟩ := found bytes read
      exact history.stored (fun c hc => fits c (List.mem_cons_of_mem _ hc))
        (fun c hc => off c (List.mem_cons_of_mem _ hc)) d hd saved saves
  rcases order with spelled | ⟨rfl, rfl⟩
  · exact Call.repeated_spelled fits₁ run undisturbed off₁ entries distinct quiet spelled
  · exact Call.repeated_inOrder fits₁ run undisturbed off₁ entries distinct quiet

namespace FileSystem.HasTab
variable {fs : FileSystem}

theorem undisturbed (h : fs.HasTab) (free : fs.entry? ["c"] = none) {bytes : Text.Bytes}
    (left : (Call.tabs fs).left = fs.set ["c"] (.file bytes 0)) : (Call.tabs fs).Undisturbed := by
  have after := h.set_cache bytes
  refine ⟨?_, ?_, ?_, ?_⟩ <;> rw [left]
  · intro _ _ p hp
    rw [List.mem_singleton.1 hp]
    exact .inl (after.status.trans h.status.symm)
  · intro p hp q hq
    rw [List.mem_singleton.1 hp, candidates] at hq
    rw [List.mem_singleton.1 hq]
    exact Nearest.sameFile_of_status (after.unconfigured.trans h.unconfigured.symm)
  · exact fun p => contains_within (set_within free _)
  · rw [h.cacheFile]
    exact ⟨bytes, read_iff.2 ⟨0, status_top (by decide) (statusAt_set (by decide) _ _)⟩⟩

end FileSystem.HasTab

theorem History.repeats_tabs :
    let first := Call.tabs ⟨[(["b"], .file [9] 1)], [], 0⟩
    let next := first.repeated (fun _ fs => (.error (.crashed none), fs)) 3 [2, 1]
    History [first] ∧ ∃ r r', first.answer.1 = .ok r ∧ next.answer.1 = .ok r' ∧
      r'.files = r.files ∧ r'.stats.analyzed = 0 ∧
      ∃ bytes, first.left.read first.cacheFile = .ok bytes ∧
        next.left.read first.cacheFile = .ok bytes := by
  intro first next
  have start : FileSystem.HasTab ⟨[(["b"], .file [9] 1)], [], 0⟩ := ⟨rfl, rfl, .inl rfl⟩
  obtain ⟨r, bytes, ok, left⟩ := start.left
  have history : History [first] := .first_top (by decide) start.cacheFile rfl
  have spelled : Nearest.SpelledAlike first.files first.paths := by
    intro p hp q hq p' hp' q' hq' _
    rw [List.mem_singleton.1 hp, FileSystem.HasTab.candidates] at hq
    rw [List.mem_singleton.1 hp', FileSystem.HasTab.candidates] at hq'
    rw [List.mem_singleton.1 hq, List.mem_singleton.1 hq']
  obtain ⟨r', ok', same, analyzed, stays⟩ := @History.repeats first [] history
    (fun c hc => List.mem_singleton.1 hc ▸ start.fits)
    (fun c hc => by rw [List.mem_singleton.1 hc]; rfl) (by decide) r ok
    (start.undisturbed rfl left) (fun _ fs => (.error (.crashed none), fs)) (fun _ _ => rfl) 3 [2, 1]
    (.inl spelled)
  exact ⟨history, r, r', ok, ok', same, analyzed, stays⟩

/-- A run without fixes that finds no cache. It makes one that is none of its own files, and changes
nothing else. -/
structure Call.Secluded (c : Call) : Prop where
  tree : c.files.IsTree
  first : History [c]
  fits : c.Fits
  off : c.dispatcher.options.fix = .off
  distinct : (c.tasks.map fun t => t.path.parts).Nodup
  apart : ∀ t ∈ c.tasks, t.path.parts ≠ c.cacheFile.parts
  alone : ∃ name, c.cacheFile = FileSystem.top name ∧
    ∀ l, l ≠ [name] → c.left.entry? l = c.files.entry? l

theorem Call.reports_unread {c : Call} {r : RunReport} {loaded : Cache} (fits : c.Fits)
    (off : c.dispatcher.options.fix = .off)
    (run : c.dispatcher.Cached c.tasks c.start c.answer.2 r loaded) {t : Task}
    (single : c.tasks = [t]) (plain : t.ignored = false) {e : FileError}
    (missing : c.files.status t.path = .error e) :
    r.files = [(LintResult.readFailure t.path e).alone] := by
  have ht : t ∈ c.tasks := by rw [single]; exact List.mem_singleton_self t
  have done := run.done t ht
  obtain ⟨config, resolved⟩ : ∃ config, (c.dispatcher.resolver.resolve c.files
      c.answer.2.resolver t.path).1 = .ok (some config) := by
    have resolved := run.resolved ht plain
    rw [fits.resolver] at resolved ⊢
    obtain ⟨config, some, -⟩ := Nearest.nearest_ok (Prod.ext resolved rfl)
    exact ⟨config, resolved.trans (congrArg _ some)⟩
  have shown : ((c.context loaded).done ⟨c.files, c.answer.2.resolver⟩ t).1.report =
      some (LintResult.readFailure t.path e).alone := by
    rcases @process_off _ (c.context loaded) loaded ⟨c.files, c.answer.2.resolver⟩ t config _ _ rfl
      off plain resolved done with ⟨result, signature, gives, -⟩ | ⟨-, e', unread, same, -⟩
    · obtain ⟨s, status⟩ := gives.status
      cases missing.symm.trans status
    · rw [readSource_cached rfl, missing] at unread
      cases unread
      exact congrArg Outcome.report same
  rw [run.files, single]
  exact List.filterMap_cons_some shown

/-- A run about a path below its cache file. -/
def Call.below (files : FileSystem) : Call :=
  { Call.tabs files with tasks := [⟨0, ⟨"/c/x"⟩, false⟩] }

def FileSystem.belowCache (fs : FileSystem) : FileError :=
  if fs.entry? ["c"] = none then .notFound else .notADirectory

namespace FileSystem.HasTab
variable {fs : FileSystem}

theorem status_below (h : fs.HasTab) {p : Path} {name : String} (accepted : refused? p = none)
    (steps : steps p = [.name "c", .name name]) (absolute : p.isAbsolute = true) :
    fs.status p = .error fs.belowCache := by
  have root : fs.entry? [] = some .directory := rfl
  have short : ¬255 < "c".utf8ByteSize := by decide
  rw [FileSystem.status, locate, place, follow, accepted, origin, if_pos absolute, steps,
    belowCache]
  rcases h.cache with free | ⟨bytes, found⟩
  · simp [walk, root, short, free]
  · simp [walk, root, short, (statusAt_file.1 found).1]

theorem below_resolved (h : fs.HasTab) :
    (Resolver.nearest.resolve fs (.fresh (Call.tabs fs).base none) ⟨"/c/x"⟩).1 =
      .ok (some (.ofConfig (Call.tabs fs).base none)) := by
  have around : Nearest.directories ⟨"/c/x"⟩ = [⟨"/c"⟩, ⟨"/"⟩] := by decide
  have inner : (⟨"/c"⟩ : Path).join Nearest.fileName = ⟨"/c/.lintpool.toml"⟩ := by decide
  have outer : (⟨"/"⟩ : Path).join Nearest.fileName = top ".lintpool.toml" := by decide
  have noInner : fs.isFile ⟨"/c/.lintpool.toml"⟩ = false := by
    rw [isFile, @status_below _ h _ ".lintpool.toml" (by decide) (by decide) (by decide)]
  have noOuter : fs.isFile (top ".lintpool.toml") = false := by
    rw [isFile, h.unconfigured]
  simp only [Resolver.nearest, Nearest.resolve, around, Nearest.resolveIn, inner, outer, noInner,
    noOuter]
  rfl

theorem below_fits (h : fs.HasTab) : (Call.below fs).Fits where
  resolver := rfl
  analyzer := rfl
  cache := rfl
  fix := .inl rfl
  room := by
    change 2 * 1 < UInt64.size
    decide
  small t ht bytes read := by
    have missing := @status_below _ h ⟨"/c/x"⟩ "x" (by decide) (by decide) (by decide)
    rw [List.mem_singleton.1 ht] at read
    obtain ⟨modified, status⟩ := read_iff.1 read
    cases missing.symm.trans status

theorem below (h : fs.HasTab) : ∃ r bytes, (Call.below fs).answer.1 = .ok r ∧
    (Call.below fs).left = fs.set ["c"] (.file bytes fs.clock) ∧
    r.files = [(LintResult.readFailure ⟨"/c/x"⟩ fs.belowCache).alone] := by
  have normal : ∀ p ∈ asked (Call.below fs).tasks, p.Normal := by
    intro p hp
    rw [List.mem_singleton.1 hp, Path.Normal]
    decide
  obtain ⟨r, bytes, ok, left⟩ := @succeeds fs h (Call.below fs).tasks rfl h.below_fits.room normal
    fun t ht => by
      rw [List.mem_singleton.1 ht]
      exact ⟨_, h.below_resolved⟩
  refine ⟨r, bytes, ok, left, ?_⟩
  have missing := @status_below _ h ⟨"/c/x"⟩ "x" (by decide) (by decide) (by decide)
  obtain ⟨loaded, run⟩ := Call.cached h.below_fits ok
  exact Call.reports_unread h.below_fits rfl run rfl rfl missing

end FileSystem.HasTab

/-- A run of two workers about two files of one directory, the first under a path that may be too
long. -/
def Call.respelled (n : Nat) (schedule : List Nat) (files : FileSystem) : Call where
  dispatcher :=
    { options :=
        { Options.standard ⟨"/"⟩ with
          cache := true
          cacheLocation := ⟨"c"⟩
          concurrency := .fixed 2 }
      analyzer := textRules
      resolver := .nearest
      parallelism := 2
      schedule }
  tasks := [⟨0, .padded n ["d", "g"], false⟩, ⟨1, ⟨"/d/f"⟩, false⟩]
  files
  base := .empty
  root := some ⟨"/d"⟩

/-- A directory whose configuration file is no text, and no configuration above it. -/
structure FileSystem.HasUnreadable (fs : FileSystem) : Prop where
  directory : fs.entry? ["d"] = some .directory
  config : fs.statusAt? ["d", ".lintpool.toml"] = some (.file [255] 1)
  missing : fs.entry? ["d", "f"] = none
  bare : fs.entry? [".lintpool.toml"] = none

namespace FileSystem.HasUnreadable
open ParallelLint.Path
variable {fs : FileSystem}

theorem config_status (h : fs.HasUnreadable) :
    fs.status ⟨"/d/.lintpool.toml"⟩ = .ok (.file [255] 1) := by
  have accepted : refused? ⟨"/d/.lintpool.toml"⟩ = none := by decide
  have steps : steps ⟨"/d/.lintpool.toml"⟩ = [.name "d", .name ".lintpool.toml"] := by decide
  refine status_iff.2 ⟨accepted, ["d", ".lintpool.toml"], ?_, h.config⟩
  rw [steps]
  refine .down rfl (by simp) (by decide) h.directory (by rintro _ ⟨⟩) ?_
  have found := (statusAt_file.1 h.config).1
  exact .down h.directory (by simp) (by decide) found (by rintro _ ⟨⟩) (.arrive ..)

theorem file_status (h : fs.HasUnreadable) : fs.status ⟨"/d/f"⟩ = .error .notFound := by
  have accepted : refused? ⟨"/d/f"⟩ = none := by decide
  have steps : steps ⟨"/d/f"⟩ = [.name "d", .name "f"] := by decide
  have absolute : (⟨"/d/f"⟩ : Path).isAbsolute = true := by decide
  have short : ¬255 < "d".utf8ByteSize := by decide
  have short' : ¬255 < "f".utf8ByteSize := by decide
  have root : fs.entry? [] = some .directory := rfl
  rw [status, locate, place, follow, accepted, origin, if_pos absolute, steps]
  simp [walk, root, short, short', h.directory, h.missing]

theorem unconfigured (h : fs.HasUnreadable) :
    fs.status (top ".lintpool.toml") = .error .notFound :=
  status_top_free (by decide) h.bare

theorem set_cache (h : fs.HasUnreadable) (e : Entry) : (fs.set ["c"] e).HasUnreadable where
  directory := (get_set_other (by decide) _).trans h.directory
  config := statusAt_set_other h.config (by decide) _
  missing := (get_set_other (by decide) _).trans h.missing
  bare := (get_set_other (by decide) _).trans h.bare

theorem around : Nearest.directories ⟨"/d/f"⟩ = [⟨"/d"⟩, ⟨"/"⟩] := by decide

theorem unresolved (h : fs.HasUnreadable) (base : Config) (root : Option Path) :
    ∃ e, (Resolver.nearest.resolve fs (.fresh base root) ⟨"/d/f"⟩).1 = .error e := by
  have file : (⟨"/d"⟩ : Path).join Nearest.fileName = ⟨"/d/.lintpool.toml"⟩ := by decide
  have there : fs.isFile ((⟨"/d"⟩ : Path).join Nearest.fileName) = true := by
    rw [file]
    exact isFile_status.2 ⟨_, h.config_status, rfl⟩
  have unreadable : fs.readText ((⟨"/d"⟩ : Path).join Nearest.fileName) = .error notUtf8 := by
    rw [file, readText, read, h.config_status]
    rfl
  have failed := Nearest.resolve_unreadable base root around there unreadable
  exact ⟨_, by simp only [Resolver.nearest, failed]; rfl⟩

section
variable {n : Nat} (long : 4096 ≤ n)
include long

theorem padded_refused (names : List String) : ∃ e, refused? (padded n names) = some e :=
  refused_long (long.trans (padded_size n names))

theorem padded_named : (padded n ["d"]).text ≠ "" := by
  have size := padded_size n ["d"]
  intro empty
  rw [empty, String.utf8ByteSize_empty] at size
  omega

theorem padded_hidden : ∃ e, refused? ((padded n ["d"]).join Nearest.fileName) = some e := by
  have size := @join_size (padded n ["d"]) (padded_named long) ".lintpool.toml" (by decide)
  exact refused_long ((long.trans (padded_size n ["d"])).trans size)

theorem padded_around :
    Nearest.directories (padded n ["d", "g"]) = [padded n ["d"], ⟨"/"⟩] := by
  have parent := @padded_parent n "d" "g" (by decide) (by decide) (by decide) (by decide)
  rw [Nearest.directories_parent parent (padded_named long),
    padded_upward (by decide) (by decide)]

theorem resolved (fs : FileSystem) (base : Config) :
    let found := ResolvedConfig.ofConfig base none
    let state := (Nearest.fresh base (some ⟨"/d"⟩)).remember (padded n ["d"]) found
    Resolver.nearest.resolve fs (.fresh base (some ⟨"/d"⟩)) (padded n ["d", "g"]) =
        (.ok (some found), state) ∧
      (Resolver.nearest.resolve fs state ⟨"/d/f"⟩).1 = .ok (some found) := by
  intro found state
  have same : (padded n ["d"]).parts = (⟨"/d"⟩ : Path).parts := by
    rw [padded_parts (by simp) (by decide)]
    decide
  have hidden : fs.isFile ((padded n ["d"]).join Nearest.fileName) = false := by
    obtain ⟨e, refused⟩ := padded_hidden long
    rw [isFile, status_refused refused]
  have rooted : (some (⟨"/d"⟩ : Path)).any (padded n ["d"]).same = true := by
    simp [Path.same, same]
  have first := Nearest.resolve_hidden base (padded_around long) hidden rooted
  have second := @Nearest.resolve_remembered fs _ _ _ _ (.fresh base (some ⟨"/d"⟩))
    (.ofConfig base none) around same.symm
  exact ⟨by simp only [Resolver.nearest, first]; rfl,
    by simp only [Resolver.nearest, state, found, second]⟩

end
end FileSystem.HasUnreadable

namespace Call
open FileSystem
variable {n : Nat} {schedule : List Nat} {fs : FileSystem}

theorem respelled_pool (n : Nat) (schedule : List Nat) (fs : FileSystem) (loaded : Cache) :
    let c := respelled n schedule fs
    c.dispatcher.pool c.tasks (some loaded) c.start =
      (Pool.start 2 ⟨.fresh, c.start⟩).run (c.context loaded) schedule := rfl

theorem respelled_place (free : fs.entry? ["c"] = none) :
    (respelled n schedule fs).cacheFile = top "c" :=
  FreeOrFile.locate (.inl free) (by decide)

theorem respelled_room : 2 * (respelled n schedule fs).tasks.length < UInt64.size := by
  change 2 * 2 < UInt64.size
  decide

theorem respelled_fits (h : fs.HasUnreadable) (long : 4096 ≤ n) :
    (respelled n schedule fs).Fits where
  resolver := rfl
  analyzer := rfl
  cache := rfl
  fix := .inl rfl
  room := respelled_room
  small t ht bytes read := by
    obtain ⟨modified, status⟩ := read_iff.1 read
    rcases List.mem_pair.1 ht with rfl | rfl
    · obtain ⟨e, refused⟩ := HasUnreadable.padded_refused long ["d", "g"]
      cases (status_refused refused fs).symm.trans status
    · cases h.file_status.symm.trans status

/-- When one worker takes both tasks nothing fails. -/
theorem respelled_succeeds (long : 4096 ≤ n) (free : fs.entry? ["c"] = none) :
    let c := respelled n [0, 0, 0, 0, 0, 1] fs
    ∃ r bytes, c.answer.1 = .ok r ∧ c.left = fs.set ["c"] (.file bytes fs.clock) := by
  intro c
  obtain ⟨first, second⟩ := HasUnreadable.resolved long fs c.base
  refine @Dispatcher.lintTasks_top _ c.dispatcher c.tasks c.start rfl rfl respelled_room
    textRules_quiet (Nearest.nearest_stable fs) _ (by decide) (respelled_place free) (.inl free)
    fun loaded => ?_
  let t : Task := ⟨0, .padded n ["d", "g"], false⟩
  let u : Task := ⟨1, ⟨"/d/f"⟩, false⟩
  obtain ⟨done, answer⟩ := @process_answered _ (c.context loaded) textRules_total t c.start
    fun _ => ⟨_, congrArg Prod.fst first⟩
  have files : ((c.context loaded).process t c.start).2.files = fs :=
    process_files textRules_quiet t c.start
  have state : ((c.context loaded).process t c.start).2.resolver = _ :=
    (process_resolver (c.context loaded) t c.start).trans (congrArg Prod.snd first)
  obtain ⟨done', answer'⟩ := @process_answered _ (c.context loaded) textRules_total u
    ((c.context loaded).process t c.start).2 fun _ => by
      rw [files, state]
      exact ⟨_, second⟩
  rw [respelled_pool]
  exact Pool.run_inOrder rfl answer answer'

theorem respelled_fails (h : fs.HasUnreadable) (r : RunReport) :
    (respelled n [0, 1, 1, 1, 1, 1] fs).answer.1 ≠ .ok r := by
  intro ok
  let c := respelled n [0, 1, 1, 1, 1, 1] fs
  obtain ⟨-, loaded, -, none, -⟩ := @Dispatcher.lintTasks_ran _ c.dispatcher c.tasks c.start _ _ rfl
    (Prod.ext ok rfl)
  obtain ⟨e, unresolved⟩ := h.unresolved c.base c.root
  let u : Task := ⟨1, ⟨"/d/f"⟩, false⟩
  have broken := @process_unresolved _ (c.context loaded) u c.start rfl e unresolved
  rw [respelled_pool] at none
  exact Pool.run_second rfl broken none

theorem respelled_undisturbed (h : fs.HasUnreadable) (long : 4096 ≤ n)
    (free : fs.entry? ["c"] = none) {bytes : Text.Bytes}
    (left : (respelled n schedule fs).left = fs.set ["c"] (.file bytes fs.clock)) :
    (respelled n schedule fs).Undisturbed := by
  have after := h.set_cache (.file bytes fs.clock)
  refine ⟨?_, ?_, ?_, ?_⟩ <;> rw [left]
  · intro _ _ p hp
    rcases List.mem_pair.1 hp with rfl | rfl
    · obtain ⟨e, refused⟩ := HasUnreadable.padded_refused long ["d", "g"]
      exact .inl ((status_refused refused _).trans (status_refused refused fs).symm)
    · exact .inl (after.file_status.trans h.file_status.symm)
  · intro p hp q hq
    have outer : (⟨"/"⟩ : Path).join Nearest.fileName = top ".lintpool.toml" := by decide
    have inner : (⟨"/d"⟩ : Path).join Nearest.fileName = ⟨"/d/.lintpool.toml"⟩ := by decide
    have bare := after.unconfigured.trans h.unconfigured.symm
    refine Nearest.sameFile_of_status ?_
    rcases List.mem_pair.1 hp with rfl | rfl
    · simp only [Nearest.candidates, HasUnreadable.padded_around long, List.map_cons,
        List.map_nil] at hq
      rcases List.mem_pair.1 hq with rfl | rfl
      · obtain ⟨e, refused⟩ := HasUnreadable.padded_hidden long
        exact (status_refused refused _).trans (status_refused refused fs).symm
      · rw [outer]
        exact bare
    · simp only [Nearest.candidates, HasUnreadable.around, List.map_cons, List.map_nil] at hq
      rcases List.mem_pair.1 hq with rfl | rfl
      · rw [inner]
        exact after.config_status.trans h.config_status.symm
      · rw [outer]
        exact bare
  · exact fun p => contains_within (set_within free _)
  · rw [respelled_place free]
    exact ⟨_, read_iff.2 ⟨_, status_top (by decide) (statusAt_set (by decide) _ _)⟩⟩

theorem respelled_secluded (h : fs.HasUnreadable) (long : 4096 ≤ n) (tree : fs.IsTree)
    (free : fs.entry? ["c"] = none) {bytes : Text.Bytes}
    (left : (respelled n schedule fs).left = fs.set ["c"] (.file bytes fs.clock)) :
    (respelled n schedule fs).Secluded := by
  have place : (respelled n schedule fs).cacheFile = top "c" := respelled_place free
  have names : ∀ s ∈ ["d", "g"], Path.Slashless s := by
    decide
  have parts := @Path.padded_parts n _ (by simp) names
  refine ⟨tree, .first_top (by decide) place free, respelled_fits h long, rfl, ?_, ?_, "c", place, ?_⟩
  · simp only [respelled, List.map_cons, List.map_nil, parts]
    decide
  · intro t ht
    rw [place]
    rcases List.mem_pair.1 ht with rfl | rfl
    · rw [parts]
      decide
    · decide
  · intro l other
    rw [left]
    exact get_set_other other _

end Call

/-- What is above is not enough for a run to be repeated. A file below the cache file is missing at
first, and once the cache is saved there is no directory in which it could be. And in another order a
configuration file may be seen that has been passed over before. -/
theorem History.not_repeats :
    let below := Call.below ⟨[(["b"], .file [9] 1)], [], 0⟩
    let respelled := Call.respelled 4096 [0, 0, 0, 0, 0, 1]
      ⟨[(["d"], .directory), (["d", ".lintpool.toml"], .file [255] 1)], [], 0⟩
    (below.Secluded ∧ ∃ r r', below.answer.1 = .ok r ∧
      (below.repeated textRules.analyze below.dispatcher.parallelism
        below.dispatcher.schedule).answer.1 = .ok r' ∧ r'.files ≠ r.files) ∧
    respelled.Secluded ∧ respelled.Undisturbed ∧ ∃ r, respelled.answer.1 = .ok r ∧
      ∀ r', (respelled.repeated textRules.analyze 2 [0, 1, 1, 1, 1, 1]).answer.1 ≠ .ok r' := by
  intro below respelled
  refine ⟨?_, ?_⟩
  · have start : FileSystem.HasTab ⟨[(["b"], .file [9] 1)], [], 0⟩ := ⟨rfl, rfl, .inl rfl⟩
    obtain ⟨r, bytes, ok, left, files⟩ := start.below
    have again : below.left.HasTab := left ▸ start.set_cache bytes
    obtain ⟨r', -, ok', -, files'⟩ := again.below
    have place : below.cacheFile = FileSystem.top "c" := start.cacheFile
    refine ⟨⟨?_, .first_top (by decide) place rfl, start.below_fits, rfl, by decide, ?_, "c", place, ?_⟩,
      r, r', ok, ok', ?_⟩
    · exact FileSystem.tree_of_listed fun f hf => by rw [List.mem_singleton.1 hf]; rfl
    · intro t ht
      rw [List.mem_singleton.1 ht, place]
      decide
    · intro l other
      rw [left]
      exact FileSystem.get_set_other other _
    · have before : FileSystem.belowCache below.files = .notFound := rfl
      have after : FileSystem.belowCache below.left = .notADirectory := by
        rw [FileSystem.belowCache, left, FileSystem.get_set_same (by decide)]
        rfl
      rw [files, files']
      change [(LintResult.readFailure _ (FileSystem.belowCache below.left)).alone] ≠
        [(LintResult.readFailure _ (FileSystem.belowCache below.files)).alone]
      rw [before, after]
      decide
  · have start : FileSystem.HasUnreadable
        ⟨[(["d"], .directory), (["d", ".lintpool.toml"], .file [255] 1)], [], 0⟩ :=
      ⟨rfl, rfl, rfl, rfl⟩
    have tree : FileSystem.IsTree
        ⟨[(["d"], .directory), (["d", ".lintpool.toml"], .file [255] 1)], [], 0⟩ :=
      FileSystem.tree_of_listed fun f hf => by rcases List.mem_pair.1 hf with rfl | rfl <;> rfl
    obtain ⟨r, bytes, ok, left⟩ := @Call.respelled_succeeds 4096
      ⟨[(["d"], .directory), (["d", ".lintpool.toml"], .file [255] 1)], [], 0⟩ (Nat.le_refl _) rfl
    refine ⟨Call.respelled_secluded start (Nat.le_refl 4096) tree rfl left,
      Call.respelled_undisturbed start (Nat.le_refl 4096) rfl left, r, ok, fun r' => ?_⟩
    have again : respelled.left.HasUnreadable := left ▸ start.set_cache _
    exact Call.respelled_fails again r'

end ParallelLint
