import ParallelLint.Cache.Location
import ParallelLint.Cache.Written
import ParallelLint.Config.Nearest
import ParallelLint.Dispatch.Reconcile
import ParallelLint.Dispatch.Supervisor
import ParallelLint.Task.Expansion

set_option autoImplicit false

namespace ParallelLint

structure RunReport where
  files : List FileReport
  stats : Stats
  workers : Nat
  cache : Option CacheChanges
  deriving DecidableEq, Repr, Inhabited

namespace RunReport

def results (r : RunReport) : List LintResult := r.files.map FileReport.result

def errors (r : RunReport) : Nat := LintResult.total Counts.errors r.results

def warnings (r : RunReport) : Nat := LintResult.total Counts.warnings r.results

def fixed (r : RunReport) : List LintResult := r.results.filter fun result => result.output.isSome

end RunReport

structure Dispatcher (σ : Type) where
  options : Options
  analyzer : Analyzer
  resolver : Resolver σ
  parallelism : Nat
  /-- The order in which the workers make their steps. -/
  schedule : List Nat

namespace Dispatcher
variable {σ : Type}

def cacheFile (d : Dispatcher σ) (fs : FileSystem) : Path :=
  Cache.locate fs d.options.cacheLocation d.options.directory

def openCache (d : Dispatcher σ) (fs : FileSystem) :
    Except LintError (Option Cache) × FileSystem :=
  if d.options.cache then
    ((Cache.load fs (d.cacheFile fs) d.options.cacheStrategy).map some, fs)
  else
    match Cache.delete fs (d.cacheFile fs) with
    | (.ok _, fs) => (.ok none, fs)
    | (.error e, fs) => (.error e, fs)

def context (d : Dispatcher σ) (tasks : List Task) (cache : Option Cache) : Context σ :=
  ⟨tasks, d.resolver, d.analyzer, cache, d.options.fix, d.options.warnIgnored⟩

def closeCache (d : Dispatcher σ) (tasks : List Task) (merged : List Merged) (cache : Cache)
    (world : World σ) : Except LintError CacheChanges × World σ :=
  match cache.reconcile d.resolver world.files tasks merged world.resolver with
  | (.error e, _, state) => (.error e, { world with resolver := state })
  | (.ok changes, cache, state) =>
    match cache.save world.files with
    | (.error e, files) => (.error e, ⟨files, state⟩)
    | (.ok (), files) => (.ok changes, ⟨files, state⟩)

/-- Reports what the workers came to, when the cache has been closed. -/
def conclude (d : Dispatcher σ) (tasks : List Task) (cache : Option Cache) (workers : Nat)
    (merged : List Merged) (stats : Stats) (world : World σ) :
    Except LintError RunReport × World σ :=
  let report := RunReport.mk (merged.map Merged.report) stats workers
  match cache with
  | none => (.ok (report none), world)
  | some cache =>
    match d.closeCache tasks merged cache world with
    | (.error e, world) => (.error e, world)
    | (.ok changes, world) => (.ok (report (some changes)), world)

def runWorkers (d : Dispatcher σ) (tasks : List Task) (cache : Option Cache) (world : World σ) :
    Except LintError RunReport × World σ :=
  let workers := WorkerCount.ofConcurrency d.parallelism d.options.concurrency tasks.length
  match (Supervisor.ofCount workers).run (d.context tasks cache) d.schedule ⟨.fresh, world⟩ with
  | (.error e, _, shared) => (.error e, shared.world)
  | (.ok output, _, shared) =>
    d.conclude tasks cache workers (mergeOutcomes output.outcomes tasks.length) output.stats
      shared.world

def lintTasks (d : Dispatcher σ) (tasks : List Task) (world : World σ) :
    Except LintError RunReport × World σ :=
  match Task.misnumbered? tasks with
  | some (position, task) =>
    (.error (.invalidConfig s!"task at position {position} has index {task.index}"), world)
  | none =>
    match d.openCache world.files with
    | (.error e, files) => (.error e, { world with files })
    | (.ok cache, files) => d.runWorkers tasks cache { world with files }

def expand (d : Dispatcher σ) (fs : FileSystem) (patterns : List String) :
    Except LintError (List Task) :=
  (Selection.ofOptions d.options).bind fun selection => selection.expand fs patterns

def lintPatterns (d : Dispatcher σ) (patterns : List String) (world : World σ) :
    Except LintError RunReport × World σ :=
  match d.expand world.files patterns with
  | .error e => (.error e, world)
  | .ok tasks => d.lintTasks tasks world

end Dispatcher

/-- Writes the fixed texts, and counts them. Those before a failure stay written. -/
def writeFixes (fs : FileSystem) (written : Nat) :
    List LintResult → Except LintError Nat × FileSystem
  | [] => (.ok written, fs)
  | result :: rest =>
    match result.output with
    | none => writeFixes fs written rest
    | some output =>
      match fs.write result.path (Text.bytesOf output) with
      | .error e => (.error (.ofFile result.path e), fs)
      | .ok fs => writeFixes fs (written + 1) rest

def Resolver.nearest : Resolver Nearest where
  resolve fs state path :=
    match Nearest.resolve fs state path with
    | .ok (found, state) => (.ok (some found), state)
    | .error e => (.error e, state)

def Resolver.single {σ : Type} (config : ResolvedConfig) : Resolver σ where
  resolve _ state _ := (.ok (some config), state)

end ParallelLint
