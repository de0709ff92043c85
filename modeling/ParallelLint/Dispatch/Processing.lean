import ParallelLint.Analyzer.Basic
import ParallelLint.Cache.Basic
import ParallelLint.Task.Basic

set_option autoImplicit false

/-!
Processing one task: what makes a file ignored, unconfigured, answered from the cache, unreadable
or analyzed. The file system is looked at several times, and may change in between.
-/
namespace ParallelLint

/-- Finds the configuration of a file, or that it has none. What has been found may be kept in a
state. -/
structure Resolver (σ : Type) where
  resolve : FileSystem → σ → Path → Except LintError (Option ResolvedConfig) × σ

structure World (σ : Type) where
  files : FileSystem
  resolver : σ

structure Context (σ : Type) where
  tasks : List Task
  resolver : Resolver σ
  analyzer : Analyzer
  cache : Option Cache
  fix : FixMode
  warnIgnored : Bool

/-- What became of a task: a report, unless it was skipped, and the signature of the file that the
result is for, when a cache wants it. -/
structure Outcome where
  index : Nat
  report : Option FileReport
  signature : Option Signature
  deriving DecidableEq, Repr, Inhabited

structure Stats where
  analyzed : Nat
  cacheHits : Nat
  skipped : Nat
  ignored : Nat
  deriving DecidableEq, Repr, Inhabited

namespace Stats

def zero : Stats := ⟨0, 0, 0, 0⟩

def add (a b : Stats) : Stats :=
  ⟨a.analyzed + b.analyzed, a.cacheHits + b.cacheHits, a.skipped + b.skipped,
    a.ignored + b.ignored⟩

end Stats

/-- The file system at each moment of a task when it is looked at, from the first to the last. -/
structure Moments where
  resolving : FileSystem
  lookup : FileSystem
  status : FileSystem
  reading : FileSystem
  analysis : FileSystem

def Moments.still (fs : FileSystem) : Moments := ⟨fs, fs, fs, fs, fs⟩

namespace Context
variable {σ : Type}

def count (ctx : Context σ) : UInt64 := ctx.tasks.length.toUInt64

def report (ctx : Context σ) (config : ResolvedConfig) (result : LintResult) : FileReport :=
  ⟨result, config.config.deprecatedRules ctx.analyzer.replacements⟩

/-- The answer of the cache. Messages that a fix may remove have to be found anew. -/
def cached (ctx : Context σ) (fs : FileSystem) (task : Task) (config : ResolvedConfig) :
    Option Outcome :=
  match ctx.cache with
  | none => none
  | some cache =>
    match cache.lookup fs task.path config.fingerprint with
    | none => none
    | some result =>
      if result.hasMessages && ctx.fix.isRequested then none
      else some ⟨task.index, some (ctx.report config result),
        (cache.entry? task.path).map CacheEntry.signature⟩

/-- The text of a file, with a signature if there is a cache. Only then is it said where the bytes
are no UTF-8. -/
def readSource (ctx : Context σ) (see : Moments) (path : Path) :
    Except FileError (String × Option Signature) :=
  match ctx.cache with
  | none => (see.reading.readText path).map fun source => (source, none)
  | some cache =>
    match Signature.readAcross see.status see.reading path cache.strategy with
    | .error e => .error e
    | .ok (bytes, signature) =>
      match Text.decode bytes with
      | .ok source => .ok (source, some signature)
      | .error e => .error (.described .invalidData e.message)

/-- A result comes with the source when there are messages and no fixed text. -/
def withSource (result : LintResult) (source : String) : LintResult :=
  if result.hasMessages && result.output.isNone then { result with source := some source }
  else result

def analyzed (ctx : Context σ) (task : Task) (config : ResolvedConfig) (see : Moments) :
    Except Breakdown (Outcome × Stats) × FileSystem :=
  match ctx.readSource see task.path with
  | .error e =>
    (.ok (⟨task.index, some (LintResult.readFailure task.path e).alone, none⟩, .zero), see.analysis)
  | .ok (source, signature) =>
    match ctx.analyzer.analyze ⟨task.path, source, config, ctx.fix⟩ see.analysis with
    | (.error e, files) => (.error e, files)
    | (.ok result, files) =>
      (.ok (⟨task.index, some (ctx.report config (withSource result source)), signature⟩,
        { Stats.zero with analyzed := 1 }), files)

def processAcross (ctx : Context σ) (task : Task) (see : Moments) (state : σ) :
    Except Breakdown (Outcome × Stats) × World σ :=
  if task.ignored then
    if ctx.warnIgnored then
      (.ok (⟨task.index, some (LintResult.ignored task.path).alone, none⟩,
        { Stats.zero with ignored := 1 }), ⟨see.analysis, state⟩)
    else
      (.ok (⟨task.index, none, none⟩, { Stats.zero with skipped := 1 }), ⟨see.analysis, state⟩)
  else match ctx.resolver.resolve see.resolving state task.path with
    | (.error e, state) => (.error (.failed e), ⟨see.analysis, state⟩)
    | (.ok none, state) =>
      (.ok (⟨task.index, some (LintResult.unconfigured task.path).alone, none⟩, .zero),
        ⟨see.analysis, state⟩)
    | (.ok (some config), state) =>
      match ctx.cached see.lookup task config with
      | some outcome =>
        (.ok (outcome, { Stats.zero with cacheHits := 1 }), ⟨see.analysis, state⟩)
      | none =>
        let (answer, files) := ctx.analyzed task config see
        (answer, ⟨files, state⟩)

def process (ctx : Context σ) (task : Task) (world : World σ) :
    Except Breakdown (Outcome × Stats) × World σ :=
  ctx.processAcross task (.still world.files) world.resolver

end Context
end ParallelLint
