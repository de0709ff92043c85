import ParallelLint.Proofs.CommandLine.Outcome

set_option autoImplicit false

namespace ParallelLint
open FileSystem Dispatcher

namespace CommandLine

/-- Runs over the same files under command lines that differ in one switch. The first run fixes for
good, the other one on trial. -/
structure Trial where
  first : List String
  rest : List String
  arguments : Arguments
  files : FileSystem
  parallelism : Nat
  schedule : List Nat
  schedule' : List Nat

namespace Trial

def fixLine (t : Trial) : List String := t.first ++ "--fix" :: t.rest

def tryLine (t : Trial) : List String := t.first ++ "--fix-dry-run" :: t.rest

def fixed (t : Trial) : Screen × FileSystem := run t.fixLine t.parallelism t.schedule t.files

def tried (t : Trial) : Screen × FileSystem := run t.tryLine t.parallelism t.schedule' t.files

def dispatcher (t : Trial) : Dispatcher Nearest :=
  t.arguments.dispatcher t.parallelism t.schedule t.files

def cacheFile (t : Trial) : Path := t.dispatcher.cacheFile t.files

/-- The cache file is there before the runs or after them. -/
def IsCache (t : Trial) (l : Location) : Prop := CacheAt t.cacheFile t.files t.tried.2 l

def tasks (t : Trial) : Except LintError (List Task) :=
  t.dispatcher.expand t.files t.arguments.patternsOrHere

def results (t : Trial) : List LintResult :=
  match report? t.fixLine t.parallelism t.schedule t.files with
  | some report => report.results
  | none => []

/-- The command line is accepted, no file is a link, and the cache file is not linted. -/
structure Fits (t : Trial) : Prop where
  switch : "--" ∉ t.first
  accepted : Arguments.read t.fixLine = .ok t.arguments
  tree : t.files.IsTree
  linkFree : t.files.LinkFree
  room : ∀ tasks, t.tasks = .ok tasks → 2 * tasks.length < UInt64.size
  apart : ∀ tasks, t.tasks = .ok tasks → ∀ task ∈ tasks, task.ignored = false →
    ∀ l, t.files.locate task.path = .ok l → ¬t.IsCache l

/-- The first run can write all its fixed texts. -/
def Writes (t : Trial) : Prop :=
  ∀ report files, outcome t.arguments t.parallelism t.schedule t.files = (.ok report, files) →
    ∃ n written, writeFixes files 0 report.results = (.ok n, written)

/-- The cache that is found, if one is wanted, holds no fixed text. -/
def Unforged (t : Trial) : Prop :=
  t.dispatcher.options.cache = true → ∀ loaded,
    Cache.load t.files t.cacheFile t.dispatcher.options.cacheStrategy = .ok loaded →
      loaded.Unfixed

/-- The runs report the same and leave the same cache file. The one on trial changes no other file,
and the first one just those that it has fixed texts for. -/
structure Agrees (t : Trial) : Prop where
  reports : report? t.fixLine t.parallelism t.schedule t.files =
    report? t.tryLine t.parallelism t.schedule' t.files
  code : t.fixed.1.code = t.tried.1.code
  screen : t.fixed.1.code ≠ 2 → t.fixed.1 = t.tried.1
  place : ∀ l, t.fixed.2.placeOfEntry t.cacheFile = .ok (.found l) ↔
    t.tried.2.placeOfEntry t.cacheFile = .ok (.found l)
  cache : ∀ l, t.IsCache l → t.fixed.2.bytesAt? l = t.tried.2.bytesAt? l
  kept : ∀ l, ¬t.IsCache l → t.tried.2.bytesAt? l = t.files.bytesAt? l
  written : ∀ r ∈ t.results, ∀ output, r.output = some output → ∃ l,
    t.files.FileAt r.path l ∧ t.fixed.2.bytesAt? l = some (Text.bytesOf output)
  others : ∀ l, ¬t.IsCache l → (∀ r ∈ t.results, ∀ output, ¬r.Fixes t.files l output) →
    t.fixed.2.bytesAt? l = t.files.bytesAt? l

variable {t : Trial}

theorem Fits.tryLine_read (fits : t.Fits) :
    Arguments.read t.tryLine = .ok t.arguments.onTrial ∧ t.arguments.has .fix = true :=
  read_onTrial fits.switch fits.accepted

theorem Fits.report_fixed (fits : t.Fits) :
    report? t.fixLine t.parallelism t.schedule t.files =
      (outcome t.arguments t.parallelism t.schedule t.files).1.toOption := by
  rw [report?, fits.accepted]

theorem Fits.report_tried (fits : t.Fits) :
    report? t.tryLine t.parallelism t.schedule' t.files =
      (outcome t.arguments t.parallelism t.schedule' t.files).1.toOption := by
  obtain ⟨read, fix⟩ := fits.tryLine_read
  rw [report?, read]
  simp only [outcome_onTrial fix]

theorem Fits.fixed_eq (fits : t.Fits) :
    t.fixed =
      match outcome t.arguments t.parallelism t.schedule t.files with
      | (.error causes, files) => (.failure causes, files)
      | (.ok report, files) =>
        match writeFixes files 0 report.results with
        | (.error e, files) => (.failure ("Failed to write fixes" :: causesOf e), files)
        | (.ok _, files) => (screen t.arguments t.files.currentDirectory report, files) := by
  obtain ⟨-, fix⟩ := fits.tryLine_read
  rw [fixed, run, fits.accepted]
  simp only [runWith_outcome]
  obtain ⟨answer, files⟩ := outcome t.arguments t.parallelism t.schedule t.files
  cases answer with
  | error causes => rfl
  | ok report =>
    simp only [applyFixes, fix, ite_true]
    obtain ⟨answer, files⟩ := writeFixes files 0 report.results
    cases answer <;> rfl

theorem Fits.tried_eq (fits : t.Fits) :
    t.tried =
      match outcome t.arguments t.parallelism t.schedule' t.files with
      | (.error causes, files) => (.failure causes, files)
      | (.ok report, files) => (screen t.arguments t.files.currentDirectory report, files) := by
  obtain ⟨read, fix⟩ := fits.tryLine_read
  rw [tried, run, read]
  simp only [runWith_outcome, outcome_onTrial fix]
  obtain ⟨answer, files⟩ := outcome t.arguments t.parallelism t.schedule' t.files
  cases answer with
  | error causes => rfl
  | ok report =>
    simp only [applyFixes, Arguments.onTrial_fix, Bool.false_eq_true, ite_false]
    rfl

def beside (files : FileSystem) : Trial where
  first := []
  rest := ["--cache", "--cache-location", "c", "b"]
  arguments :=
    { Arguments.none with patterns := ["b"], switches := [.cache, .fix], cacheLocation := some ⟨"c"⟩ }
  files
  parallelism := 1
  schedule := []
  schedule' := []

theorem beside_read (files : FileSystem) :
    Arguments.read (beside files).fixLine = .ok (beside files).arguments := rfl

end Trial
end CommandLine

/-- There is a text right below the root, and perhaps a cache file beside it, but no
configuration. -/
structure FileSystem.HasText (fs : FileSystem) (bytes : Text.Bytes) : Prop where
  root : fs.workingDirectory = []
  text : fs.statusAt? ["b"] = some (.file bytes 1)
  bare : fs.entry? [".lintpool.toml"] = none
  cache : fs.FreeOrFile "c"
  tree : fs.IsTree
  linkFree : fs.LinkFree

namespace FileSystem.HasText
open CommandLine
variable {fs : FileSystem} {bytes : Text.Bytes}

theorem options (h : fs.HasText bytes) : (Trial.beside fs).dispatcher.options =
    { Options.standard ⟨"/"⟩ with cache := true, cacheLocation := ⟨"c"⟩, fix := .all } := by
  have directory : fs.currentDirectory = ⟨"/"⟩ := by
    rw [currentDirectory, h.root]
    rfl
  change (Trial.beside fs).arguments.options fs.currentDirectory = _
  rw [directory]
  rfl

theorem status (h : fs.HasText bytes) : fs.status (top "b") = .ok (.file bytes 1) :=
  status_top (by decide) h.text

theorem expanded (h : fs.HasText bytes) :
    (⟨⟨"/"⟩, [], defaultExtensions, true⟩ : Selection).expand fs ["b"] =
      .ok [⟨0, top "b", false⟩] := by
  have target : (⟨⟨"/"⟩, [], defaultExtensions, true⟩ : Selection).target "b" = top "b" := by decide
  have plain : (⟨⟨"/"⟩, [], defaultExtensions, true⟩ : Selection).isIgnored (top "b") = false := by
    decide
  have file : fs.isFile (Selection.target ⟨⟨"/"⟩, [], defaultExtensions, true⟩ "b") = true := by
    rw [target]
    exact isFile_status.2 ⟨_, h.status, rfl⟩
  rw [Selection.expand, Selection.expandFrom_step, Selection.filesOf_file file, target, plain]
  rfl

theorem tasks (h : fs.HasText bytes) :
    (Trial.beside fs).tasks = .ok [⟨0, top "b", false⟩] := by
  have selection : Selection.ofOptions (Trial.beside fs).dispatcher.options =
      .ok ⟨⟨"/"⟩, [], defaultExtensions, true⟩ := by
    rw [h.options]
    rfl
  rw [Trial.tasks, expand, selection]
  exact h.expanded

theorem cacheFile (h : fs.HasText bytes) : (Trial.beside fs).cacheFile = top "c" := by
  rw [Trial.cacheFile, Dispatcher.cacheFile, h.options]
  exact h.cache.locate (by decide)

theorem fits (h : fs.HasText bytes) : (Trial.beside fs).Fits where
  switch := by simp [Trial.beside]
  accepted := Trial.beside_read fs
  tree := h.tree
  linkFree := h.linkFree
  room tasks ok := by
    rw [h.tasks] at ok
    cases ok
    decide
  apart tasks ok task ht _ l located cache := by
    rw [h.tasks] at ok
    cases ok
    rw [List.mem_singleton.1 ht] at located
    obtain rfl := h.linkFree.locate_top (by decide) located
    rw [Trial.IsCache, CacheAt, h.cacheFile] at cache
    rcases cache with here | here <;> exact absurd (top_place (by decide) here) (by decide)

theorem resolved (h : fs.HasText bytes) (base : Config) :
    (Resolver.nearest.resolve fs (.fresh base (some ⟨"/"⟩)) (top "b")).1 =
      .ok (some (.ofConfig base none)) := by
  have noFile : fs.isFile (top ".lintpool.toml") = false := by
    rw [isFile, status_top_free (by decide) h.bare]
  have around : Nearest.directories (top "b") = [⟨"/"⟩] := by decide
  have file : (⟨"/"⟩ : Path).join Nearest.fileName = top ".lintpool.toml" := by decide
  simp only [Resolver.nearest, Nearest.resolve, around, Nearest.resolveIn, file, noFile]
  rfl

theorem linted (h : fs.HasText bytes) (base : Config) {loaded : Cache}
    (load : Cache.load fs (top "c") .metadata = .ok loaded) {o : Outcome} {stats : Stats}
    (answer : (((Trial.beside fs).dispatcher.context [⟨0, top "b", false⟩] (some loaded)).process
      ⟨0, top "b", false⟩ ⟨fs, .fresh base (some ⟨"/"⟩)⟩).1 = .ok (o, stats))
    {report : FileReport} (reported : o.report = some report) :
    ∃ (r : RunReport) (saved : Cache) (after : World Nearest),
      (Trial.beside fs).dispatcher.lintTasks [⟨0, top "b", false⟩]
        ⟨fs, .fresh base (some ⟨"/"⟩)⟩ = (.ok r, after) ∧
      after.files = fs.set ["c"] (.file saved.bytes fs.clock) ∧ r.results = [report.result] := by
  let d := (Trial.beside fs).dispatcher
  let tasks : List Task := [⟨0, top "b", false⟩]
  let world : World Nearest := ⟨fs, .fresh base (some ⟨"/"⟩)⟩
  let ctx := d.context tasks (some loaded)
  have wanted : d.options.cache = true := by rw [h.options]
  have place : d.cacheFile fs = top "c" := h.cacheFile
  have load' : Cache.load fs (d.cacheFile fs) d.options.cacheStrategy = .ok loaded := by
    rw [place, h.options]
    exact load
  have done : ∀ t ∈ tasks, (ctx.process t world).1 = .ok (ctx.done world t) := by
    intro t ht
    rw [List.mem_singleton.1 ht]
    exact Context.process_done ⟨_, answer⟩
  have steady : d.resolver.Steady fs world.resolver (Context.asked tasks) :=
    Nearest.nearest_steady fs _ _ (expand_normal h.tasks)
  have saves : ∀ c : Cache, c.path = d.cacheFile fs →
      c.save fs = (.ok (), fs.set ["c"] (.file c.bytes fs.clock)) := fun c path =>
    Cache.save_top (by decide) (path.trans place) h.cache.plain
  obtain ⟨r, after, ok⟩ := @lintTasks_saves _ d tasks world wanted rfl (by decide) textRules_quiet
    (Nearest.nearest_stable fs) loaded load'
    (pool_noError (by decide) (Context.steady_done textRules_quiet steady fun t ht =>
      ⟨_, done t ht⟩))
    fun c path => ⟨_, saves c path⟩
  obtain ⟨numbered, loaded', again, -, ran⟩ := lintTasks_ran wanted ok
  obtain rfl : loaded = loaded' := Except.ok.inj (load'.symm.trans again)
  obtain ⟨workers, asked, -, ended⟩ :=
    runWorkers_done numbered (by decide) textRules_quiet steady done
  obtain ⟨files, -, -, saved⟩ := conclude_ok (ended.symm.trans ran)
  obtain ⟨saved, path, -, save⟩ := saved loaded rfl
  refine ⟨r, saved, after, ok,
    congrArg Prod.snd (save.symm.trans (saves saved (path.trans (Cache.load_place load').1))), ?_⟩
  have one : ctx.done world ⟨0, top "b", false⟩ = (o, stats) := by
    rw [Context.done, answer]
  have reports : (tasks.filterMap fun t => (ctx.done world t).1.report) = [report] := by
    simp only [tasks, List.filterMap_cons, List.filterMap_nil, one, reported]
  rw [RunReport.results, files, merged_reports, reports]
  rfl

theorem outcome (h : fs.HasText bytes) {loaded : Cache}
    (load : Cache.load fs (top "c") .metadata = .ok loaded) {o : Outcome} {stats : Stats}
    (answer : (((Trial.beside fs).dispatcher.context [⟨0, top "b", false⟩] (some loaded)).process
      ⟨0, top "b", false⟩ ⟨fs, .fresh TextRules.defaultConfig (some ⟨"/"⟩)⟩).1 = .ok (o, stats))
    {report : FileReport} (reported : o.report = some report) :
    ∃ (r : RunReport) (saved : Cache),
      CommandLine.outcome (Trial.beside fs).arguments 1 [] fs =
        (.ok r, fs.set ["c"] (.file saved.bytes fs.clock)) ∧ r.results = [report.result] := by
  obtain ⟨r, saved, after, ok, left, results⟩ := h.linted TextRules.defaultConfig load answer reported
  let d := (Trial.beside fs).dispatcher
  have base : baseConfig fs (Trial.beside fs).arguments.config = .ok TextRules.defaultConfig := rfl
  have checked : d.options.check = .ok d.options := by
    rw [h.options]
    rfl
  have directory : d.options.directory = ⟨"/"⟩ := by
    rw [h.options]
    rfl
  have expands : d.expand fs ["b"] = .ok [⟨0, top "b", false⟩] := h.tasks
  have ended : d.lintPatterns ["b"]
      ⟨fs, .fresh TextRules.defaultConfig (some d.options.directory)⟩ = (.ok r, after) := by
    rw [directory, lintPatterns, expands]
    exact ok
  exact ⟨r, saved, left ▸ outcome_reported base checked ended, results⟩

theorem unforged (h : fs.HasText bytes) {loaded : Cache}
    (load : Cache.load fs (top "c") .metadata = .ok loaded) (unfixed : loaded.Unfixed) :
    (Trial.beside fs).Unforged := by
  intro _ other found
  rw [h.cacheFile, h.options] at found
  cases load.symm.trans found
  exact unfixed

theorem single (bytes : Text.Bytes) : HasText ⟨[(["b"], .file bytes 1)], [], 0⟩ bytes where
  root := rfl
  text := rfl
  bare := rfl
  cache := .inl rfl
  tree := tree_of_listed (by simp)
  linkFree := linkFree_of_listed (by simp)

theorem set_cache (h : fs.HasText bytes) (saved : Text.Bytes) (modified : Int) :
    (fs.set ["c"] (.file saved modified)).HasText bytes where
  root := h.root
  text := statusAt_set_other h.text (by decide) _
  bare := (get_set_other (by decide) _).trans h.bare
  cache := .inr ⟨saved, modified, statusAt_set (by decide) _ _⟩
  tree := h.tree.set rfl fun directory => absurd directory h.cache.plain
  linkFree := h.linkFree.set (by decide) _ _

theorem pair (bytes saved : Text.Bytes) (modified : Int) :
    HasText ⟨[(["b"], .file bytes 1), (["c"], .file saved modified)], [], 0⟩ bytes where
  root := rfl
  text := rfl
  bare := rfl
  cache := .inr ⟨_, _, rfl⟩
  tree := tree_of_listed (by
    intro f hf
    rcases List.mem_pair.1 hf with rfl | rfl <;> rfl)
  linkFree := linkFree_of_listed (by
    intro f hf
    rcases List.mem_pair.1 hf with rfl | rfl <;> rintro _ ⟨⟩)

theorem load_free (free : fs.entry? ["c"] = none) :
    Cache.load fs (top "c") .metadata = .ok (.empty (top "c") .metadata) := by
  rw [Cache.load, FileSystem.read, status_top_free (by decide) free]
  rfl

end FileSystem.HasText

end ParallelLint
