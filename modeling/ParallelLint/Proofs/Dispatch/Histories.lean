import ParallelLint.Proofs.Analyzer.Bounds
import ParallelLint.Proofs.Cache.Entries
import ParallelLint.Proofs.Config.Canonical
import ParallelLint.Proofs.Dispatch.Answers
import ParallelLint.Proofs.Dispatch.Ending

set_option autoImplicit false

/-!
Histories of runs with a cache. Files may change from one run to the next in any way, but what is
found in a cache file was saved by an earlier run. Every entry then tells what an analysis
without fixes gave for its file in one of the runs.
-/
namespace ParallelLint
open Context

theorem Signature.ofFile_small {bytes : Text.Bytes} (few : bytes.length < UInt64.size)
    (modified : Int) (strategy : CacheStrategy) : (ofFile strategy bytes modified).Small := by
  cases strategy with
  | metadata =>
    refine ⟨few, ?_⟩
    rintro n ⟨⟩
    exact Nat.mod_lt _ (by decide)
  | content => exact ⟨few, by rintro n ⟨⟩⟩

theorem Text.decode_byteLength {bytes : Bytes} {source : String} (h : decode bytes = .ok source) :
    Fixing.byteLength source.toList ≤ bytes.length := by
  rw [decode] at h
  cases decoded : decodeFrom 0 bytes with
  | error e =>
    rw [decoded] at h
    cases h
  | ok chars =>
    rw [decoded] at h
    cases h
    rw [String.toList_ofList]
    exact decodeFrom_byteLength decoded

namespace Cache
variable {fs : FileSystem} {path : Path} {source : String} {strategy : CacheStrategy}
  {signature : Signature}

theorem entryOf_small (text : fs.readText path = .ok source)
    (short : ∀ bytes, fs.read path = .ok bytes → 2 * bytes.length < UInt64.size - 1)
    (computed : Signature.compute fs path strategy = .ok signature) (config : Config)
    {fix : FixMode} (unfixed : (TextRules.analyze path source config fix).output = none)
    (fingerprint : Fingerprint) :
    (entryOf signature fingerprint
      (withSource (TextRules.analyze path source config fix) source)).Small := by
  obtain ⟨bytes, modified, status, decoded⟩ := readText_iff.1 text
  have few := short bytes (FileSystem.read_iff.2 ⟨modified, status⟩)
  obtain rfl := Except.ok.inj ((compute_file status strategy).symm.trans computed)
  refine ⟨Signature.ofFile_small (by omega) modified strategy, ?_⟩
  have length := Text.decode_byteLength decoded
  obtain ⟨found, perm, analyzed⟩ := TextRules.analyze_remains unfixed
  have small := @TextRules.ofMessages_small path source config found perm (by omega)
  rw [analyzed]
  unfold entryOf withSource
  split
  · exact ⟨small.1, small.2, small.3, small.4, small.5, small.6, small.7⟩
  · exact ⟨small.1, small.2, small.3, small.4, small.5, small.6, small.7⟩

theorem restore_entryOf (text : fs.readText path = .ok source) (config : Config)
    (fingerprint : Fingerprint) :
    let result := withSource (TextRules.analyze path source config .off) source
    restore fs path (entryOf signature fingerprint result) = some result := by
  simp only [restore, entryOf, text, withSource]
  split <;> rfl

end Cache

/-- A run with a new resolver: what is linted, and the files that are found. -/
structure Call where
  dispatcher : Dispatcher Nearest
  tasks : List Task
  files : FileSystem
  base : Config
  root : Option Path

namespace Call

def start (c : Call) : World Nearest := ⟨c.files, .fresh c.base c.root⟩

def answer (c : Call) : Except LintError RunReport × World Nearest :=
  c.dispatcher.lintTasks c.tasks c.start

def left (c : Call) : FileSystem := c.answer.2.files

def cacheFile (c : Call) : Path := c.dispatcher.cacheFile c.files

def strategy (c : Call) : CacheStrategy := c.dispatcher.options.cacheStrategy

def context (c : Call) (cache : Cache) : Context Nearest :=
  c.dispatcher.context c.tasks (some cache)

def config? (c : Call) (path : Path) : Option ResolvedConfig :=
  match (Resolver.nearest.resolve c.files (.fresh c.base c.root) path).1 with
  | .ok found => found
  | .error _ => none

def paths (c : Call) : List Path := asked c.tasks

/-- A run with a cache of the text rules under the nearest configurations. There are fewer than 2 to
the 63 tasks, and as few bytes in each file. -/
structure Fits (c : Call) : Prop where
  resolver : c.dispatcher.resolver = .nearest
  analyzer : c.dispatcher.analyzer = textRules
  cache : c.dispatcher.options.cache = true
  fix : c.dispatcher.options.fix = .off ∨ c.dispatcher.options.fix = .all
  room : 2 * c.tasks.length < UInt64.size
  small : ∀ t ∈ c.tasks, ∀ bytes, c.files.read t.path = .ok bytes →
    2 * bytes.length < UInt64.size - 1

/-- All files are asked for by paths in normal form. -/
def Normal (c : Call) : Prop := ∀ p ∈ c.paths, p.Normal

end Call

/-- The cache that a run saves when it succeeds. -/
structure Call.Saves (c : Call) (saved : Cache) : Prop where
  ok : ∃ r, c.answer.1 = .ok r
  path : saved.path = c.cacheFile
  save : saved.save c.files = (.ok (), c.left)

/-- The latest run comes first. The cache file that it finds, wherever it looks for one, is one that
an earlier run has saved. -/
inductive History : List Call → Prop where
  | empty : History []
  | next {c : Call} {earlier : List Call} (before : History earlier)
      (found : ∀ bytes, c.files.read c.cacheFile = .ok bytes →
        ∃ d ∈ earlier, ∃ saved, d.Saves saved ∧ saved.bytes = bytes) :
      History (c :: earlier)

/-- What an analysis without fixes gave for a path in one of the runs. -/
inductive Recorded (calls : List Call) (strategy : CacheStrategy) (path : Path) :
    CacheEntry → Prop where
  | analyzed {c : Call} {config : ResolvedConfig} {source : String} {signature : Signature}
      (mem : c ∈ calls) (fits : c.Fits) (kind : c.strategy = strategy) (listed : path ∈ c.paths)
      (normal : path.Normal)
      (resolved : c.config? path = some config) (text : c.files.readText path = .ok source)
      (computed : Signature.compute c.files path strategy = .ok signature) :
      Recorded calls strategy path (Cache.entryOf signature config.fingerprint
        (withSource (TextRules.analyze path source config.config .off) source))

namespace Recorded
variable {calls : List Call} {strategy : CacheStrategy} {path : Path} {e : CacheEntry}

theorem mem_paths {c : Call} {p : Path} (h : p ∈ c.paths) :
    ∃ t ∈ c.tasks, t.ignored = false ∧ t.path = p := by
  obtain ⟨t, ht, rfl⟩ := List.mem_map.1 h
  obtain ⟨ht, plain⟩ := List.mem_filter.1 ht
  exact ⟨t, ht, by simpa using plain, rfl⟩

theorem normal (h : Recorded calls strategy path e) : path.Normal := by
  cases h
  assumption

theorem small (h : Recorded calls strategy path e) : e.Small := by
  obtain ⟨-, fits, -, listed, -, -, text, computed⟩ := h
  obtain ⟨t, ht, -, rfl⟩ := mem_paths listed
  exact Cache.entryOf_small text (fits.small t ht) computed _ rfl _

theorem holds (h : Recorded calls strategy path e) :
    Cache.Holds (Recorded calls strategy) path e := by
  refine ⟨h, fun key old known same => ?_⟩
  rwa [known.normal.eq h.normal same]

end Recorded

namespace Call
variable {c : Call} {cache : Cache} {calls : List Call}

theorem load_files (fits : c.Fits) :
    c.dispatcher.openCache c.files =
      ((Cache.load c.files c.cacheFile c.strategy).map some, c.files) := by
  simp only [Dispatcher.openCache, fits.cache, ite_true]
  rfl

theorem steady (fits : c.Fits) (normal : c.Normal) :
    c.dispatcher.resolver.Steady c.files (.fresh c.base c.root) c.paths := by
  rw [fits.resolver]
  exact Nearest.nearest_steady _ _ _ normal

theorem answer_cases (fits : c.Fits) (normal : c.Normal) :
    (∃ e, c.answer.1 = .error e ∧ c.left = c.files) ∨
      Task.misnumbered? c.tasks = none ∧
      ∃ cache, Cache.load c.files c.cacheFile c.strategy = .ok cache ∧
        (∀ t ∈ c.tasks, ((c.context cache).process t c.start).1 =
          .ok ((c.context cache).done c.start t)) ∧
        ∃ workers asked, (∀ p ∈ asked, p ∈ c.paths) ∧
          c.answer = c.dispatcher.conclude c.tasks (some cache) workers
            (c.tasks.filterMap fun t => ((c.context cache).done c.start t).1.merged?)
            (c.tasks.map fun t => ((c.context cache).done c.start t).2).sum
            ⟨c.files, c.dispatcher.resolver.after c.files (.fresh c.base c.root) asked⟩ := by
  have quiet : c.dispatcher.analyzer.Quiet := fits.analyzer ▸ textRules_quiet
  cases numbered : Task.misnumbered? c.tasks with
  | some wrong =>
    left
    simp only [Call.left, answer, Dispatcher.lintTasks, numbered]
    exact ⟨_, rfl, rfl⟩
  | none =>
    cases loaded : Cache.load c.files c.cacheFile c.strategy with
    | error e =>
      have opened : c.dispatcher.openCache c.files = (.error e, c.files) := by
        rw [load_files fits, loaded]
        rfl
      left
      simp only [Call.left, answer, Dispatcher.lintTasks, numbered, start, opened]
      exact ⟨e, rfl, trivial⟩
    | ok cache =>
      have opened : c.dispatcher.openCache c.files = (.ok (some cache), c.start.files) := by
        rw [load_files fits, loaded]
        rfl
      have ran : c.answer = c.dispatcher.runWorkers c.tasks (some cache) c.start :=
        Dispatcher.lintTasks_opened numbered opened
      rcases @Dispatcher.runWorkers_cases _ _ _ (some cache) c.start numbered fits.room
        quiet (steady fits normal) with ⟨e, state, failed⟩ | ⟨done, workers, asked, listed, ended⟩
      · rw [failed] at ran
        exact .inl ⟨e, by rw [ran], by rw [Call.left, ran]; rfl⟩
      · exact .inr ⟨rfl, cache, rfl, done, workers, asked, listed, ran.trans ended⟩

theorem config_iff (fits : c.Fits) {path : Path} {config : ResolvedConfig} :
    (c.dispatcher.resolver.resolve c.files (.fresh c.base c.root) path).1 = .ok (some config) ↔
      c.config? path = some config := by
  rw [fits.resolver, config?]
  cases (Resolver.nearest.resolve c.files (.fresh c.base c.root) path).1 <;> simp

end Call

/-- In these runs files of one signature have the same bytes, and configurations of one fingerprint
have the same canonical form. -/
structure Told (calls : List Call) : Prop where
  signatures : ∀ c ∈ calls, ∀ d ∈ calls, c.strategy = d.strategy → ∀ path ∈ c.paths,
    path ∈ d.paths → ∀ signature, Signature.compute c.files path c.strategy = .ok signature →
      Signature.compute d.files path d.strategy = .ok signature →
        c.files.read path = d.files.read path
  fingerprints : ∀ c ∈ calls, ∀ d ∈ calls, ∀ p ∈ c.paths, ∀ q ∈ d.paths, ∀ f g,
    c.config? p = some f → d.config? q = some g → f.fingerprint = g.fingerprint →
      Text.bytesOf f.config.canonicalJson.compact = Text.bytesOf g.config.canonicalJson.compact

/-- What was recorded in one run is recalled in another one as if it had been analyzed there. -/
theorem Recorded.recalls {calls : List Call} (told : Told calls) {c : Call} (mem : c ∈ calls)
    (fits : c.Fits) (normal : c.Normal) {cache : Cache}
    (all : cache.All (Recorded calls c.strategy))
    (kind : cache.strategy = c.strategy) {t : Task} (ht : t ∈ c.tasks) (plain : t.ignored = false) :
    (c.context cache).Recalls c.start t := by
  rintro cache ⟨⟩ config resolved result found
  have listed : t.path ∈ c.paths := mem_asked ht plain
  have resolved := (Call.config_iff fits).1 resolved
  obtain ⟨e, entry, fingerprint, computed, restored⟩ := lookup_iff.1 found
  obtain ⟨k, hk, same⟩ := (Sorted.find?_iff _).1 entry
  have recorded := all _ hk
  have key : k = t.path := recorded.normal.eq (normal _ listed) (Path.compare_eq.1 same).symm
  simp only [key] at recorded
  cases recorded with
  | @analyzed d config' source signature mem' _ kind' listed' _ resolved' text' computed' =>
    have bytes := told.signatures c mem d mem' kind'.symm t.path listed listed' signature
      (kind ▸ computed) (kind' ▸ computed')
    have canonical := told.fingerprints c mem d mem' t.path listed t.path listed' config config'
      resolved resolved' fingerprint.symm
    have text : c.files.readText t.path = .ok source := by
      rw [← text', FileSystem.readText, FileSystem.readText, bytes]
    refine ⟨source, text, ?_⟩
    rw [TextRules.analyze_enabled (TextRules.enabled_congr canonical)]
    exact Option.some.inj (restored.symm.trans (Cache.restore_entryOf text _ _))

theorem reported_unfixed {path : Path} {source : String} {config : ResolvedConfig} {fix : FixMode}
    (mode : fix = .off ∨ fix = .all)
    (unfixed : (TextRules.reported path source config fix).result.output = none) :
    (TextRules.reported path source config fix).result =
      withSource (TextRules.analyze path source config.config .off) source := by
  rcases mode with rfl | rfl
  · rfl
  · have none : (TextRules.analyze path source config.config .all).output = none := by
      rwa [TextRules.reported, withSource_output] at unfixed
    rw [TextRules.reported, TextRules.analyze_unfixed none]

theorem Recorded.stored {calls : List Call} (told : Told calls) {c : Call} (mem : c ∈ calls)
    (fits : c.Fits) (normal : c.Normal) (numbered : Task.misnumbered? c.tasks = none)
    {cache : Cache}
    (all : cache.All (Recorded calls c.strategy)) (kind : cache.strategy = c.strategy)
    (done : ∀ t ∈ c.tasks, ((c.context cache).process t c.start).1 =
      .ok ((c.context cache).done c.start t))
    {m : Merged}
    (merged : m ∈ c.tasks.filterMap fun t => ((c.context cache).done c.start t).1.merged?)
    {task : Task} {signature : Signature}
    (storable : Cache.storable? c.tasks m = some (task, signature)) {config : ResolvedConfig}
    (resolved : c.config? task.path = some config) :
    Cache.Holds (Recorded calls c.strategy) task.path
      (Cache.entryOf signature config.fingerprint m.report.result) := by
  obtain ⟨t, ht, found⟩ := List.mem_filterMap.1 merged
  have answer := done t ht
  clear merged
  generalize (c.context cache).done c.start t = came at answer found
  obtain ⟨outcome, stats⟩ := came
  obtain ⟨report, reports, rfl⟩ := Option.map_eq_some_iff.1 found
  have index := process_index answer
  unfold Cache.storable? at storable
  split at storable
  swap
  · cases storable
  rename_i signature' task' signed here
  split at storable
  · cases storable
  rename_i plain
  cases storable
  simp only [Bool.or_eq_true, not_or, Bool.not_eq_true, Option.isSome_eq_false_iff,
    Option.isNone_iff_eq_none] at plain
  -- the task of the merged report is the one that was processed
  have same : task = t := by
    have there : c.tasks[t.index]? = some t := by
      obtain ⟨i, hi, at_⟩ := List.mem_iff_getElem.1 ht
      have found := List.getElem?_eq_getElem hi
      rw [at_] at found
      rw [Task.index_eq numbered found, found]
    simp only [index] at here
    rw [here] at there
    exact Option.some.inj there
  subst same
  obtain ⟨shows, signs⟩ := process_shows fits.analyzer fits.fix
    (fun plain => Recorded.recalls told mem fits normal all kind ht plain) answer
  obtain ⟨-, config', source, resolved', text, computed⟩ := signs cache rfl signature signed
  have shown := shows.reported plain.1 config' source resolved' text
  rw [(Call.config_iff fits).1 resolved'] at resolved
  cases resolved
  rw [reports] at shown
  cases shown
  have unfixed := reported_unfixed fits.fix plain.2
  change Cache.Holds _ _ (Cache.entryOf _ _
    (TextRules.reported task.path source config c.dispatcher.options.fix).result)
  rw [unfixed]
  have listed := mem_asked ht plain.1
  exact holds (.analyzed mem fits rfl listed (normal _ listed) ((Call.config_iff fits).1 resolved')
    text (kind ▸ computed))

theorem Call.answer_saved {calls : List Call} (told : Told calls) {c : Call} (mem : c ∈ calls)
    (fits : c.Fits) (normal : c.Normal)
    (before : ∀ bytes, c.files.read c.cacheFile = .ok bytes →
      Cache.Written (Recorded calls) bytes) :
    (∃ e, c.answer.1 = .error e ∧ c.left = c.files) ∨
      ∃ saved : Cache, saved.All (Recorded calls saved.strategy) ∧ saved.path = c.cacheFile ∧
        c.left = (saved.save c.files).2 ∧
        ((∃ e, c.answer.1 = .error e ∧ (saved.save c.files).1 = .error e) ∨
          ∃ r cache, c.answer.1 = .ok r ∧ (saved.save c.files).1 = .ok () ∧
            Task.misnumbered? c.tasks = none ∧ cache.All (Recorded calls c.strategy) ∧
            cache.strategy = c.strategy ∧
            (∀ t ∈ c.tasks, ((c.context cache).process t c.start).1 =
              .ok ((c.context cache).done c.start t)) ∧
            r.files = (c.tasks.filterMap fun t =>
              ((c.context cache).done c.start t).1.merged?).map Merged.report) := by
  rcases Call.answer_cases fits normal with failed |
    ⟨numbered, cache, loaded, done, workers, asked, listed, ended⟩
  · exact .inl failed
  obtain ⟨path, kind⟩ := Cache.load_place loaded
  have all : cache.All (Recorded calls c.strategy) :=
    Cache.load_all loaded (fun _ _ _ h => h.small) before
  let fresh := Nearest.fresh c.base c.root
  let after := c.dispatcher.resolver.after c.files fresh
  -- the resolver has been asked for files of the tasks only
  let kept := fun state => ∃ asked : List Path, (∀ p ∈ asked, p ∈ c.paths) ∧ state = after asked
  let merged := c.tasks.filterMap fun t => ((c.context cache).done c.start t).1.merged?
  have step : ∀ state, kept state → ∀ t ∈ c.tasks, t.ignored = false →
      kept (c.dispatcher.resolver.resolve c.files state t.path).2 := by
    rintro _ ⟨asked, listed, rfl⟩ t ht plain
    refine ⟨asked ++ [t.path], fun p hp => ?_, ?_⟩
    · rcases List.mem_append.1 hp with hp | hp
      · exact listed p hp
      · rw [List.mem_singleton.1 hp]
        exact mem_asked ht plain
    · simp only [after]
      rw [Resolver.after_append, Resolver.after_single]
  have new : ∀ m ∈ merged, ∀ task signature,
      Cache.storable? c.tasks m = some (task, signature) → ∀ state, kept state → ∀ config,
        (c.dispatcher.resolver.resolve c.files state task.path).1 = .ok (some config) →
          Cache.Holds (Recorded calls c.strategy) task.path
            (Cache.entryOf signature config.fingerprint m.report.result) := by
    rintro m hm task signature storable _ ⟨asked, listed, rfl⟩ config resolved
    obtain ⟨ht, plain⟩ := Cache.storable_mem storable
    rw [Call.steady fits normal asked listed _ (mem_asked ht plain)] at resolved
    exact Recorded.stored told mem fits normal numbered all kind done hm storable
      ((Call.config_iff fits).1 resolved)
  have closed := Dispatcher.conclude_cases (d := c.dispatcher) workers
    (c.tasks.map fun t => ((c.context cache).done c.start t).2).sum all ⟨asked, listed, rfl⟩ step new
  rw [Call.left, ended]
  rcases closed with failed | ⟨saved, entries, place, strategy, files, rest⟩
  · exact .inl failed
  right
  rw [← kind, ← strategy] at entries
  refine ⟨saved, entries, place.trans path, files, rest.imp_right ?_⟩
  rintro ⟨changes, ok, written⟩
  exact ⟨_, cache, ok, written, numbered, all, kind, done, rfl⟩

theorem Recorded.saved {calls : List Call} (told : Told calls) {c : Call} (mem : c ∈ calls)
    (fits : c.Fits) (normal : c.Normal)
    (before : ∀ bytes, c.files.read c.cacheFile = .ok bytes →
      Cache.Written (Recorded calls) bytes)
    {saved : Cache} (saves : c.Saves saved) : Cache.Written (Recorded calls) saved.bytes := by
  obtain ⟨⟨r, ok⟩, path, save⟩ := saves
  rcases Call.answer_saved told mem fits normal before with ⟨e, failed, -⟩ |
    ⟨other, entries, place, files, ⟨e, failed, -⟩ | ⟨-, -, -, done, -⟩⟩
  · rw [ok] at failed
    cases failed
  · rw [ok] at failed
    cases failed
  · have again : other.save c.files = (.ok (), c.left) := Prod.ext done files.symm
    exact ⟨other, entries, Cache.save_unique save again (path.trans place.symm)⟩

/-- If every run keeps it, all caches that a history has saved are as wanted. -/
theorem History.written {holds : CacheStrategy → Path → CacheEntry → Prop} {earlier : List Call}
    (history : History earlier)
    (step : ∀ c ∈ earlier,
      (∀ bytes, c.files.read c.cacheFile = .ok bytes → Cache.Written holds bytes) →
        ∀ saved, c.Saves saved → Cache.Written holds saved.bytes) :
    ∀ c ∈ earlier, ∀ saved, c.Saves saved → Cache.Written holds saved.bytes := by
  induction history with
  | empty =>
    intro c hc
    cases hc
  | @next d rest _ found ih =>
    have ih := ih fun c hc => step c (List.mem_cons_of_mem _ hc)
    intro c hc saved saves
    rcases List.mem_cons.1 hc with rfl | hc
    · refine step c (List.mem_cons_self ..) (fun bytes read => ?_) saved saves
      obtain ⟨d, hd, old, saves, rfl⟩ := found bytes read
      exact ih d hd old saves
    · exact ih c hc saved saves

theorem History.recorded {calls earlier : List Call} (history : History earlier)
    (sub : earlier ⊆ calls) (told : Told calls) (fits : ∀ c ∈ calls, c.Fits)
    (normal : ∀ c ∈ calls, c.Normal) :
    ∀ c ∈ earlier, ∀ saved, c.Saves saved → Cache.Written (Recorded calls) saved.bytes := by
  refine history.written fun c hc before saved saves => ?_
  have mem := sub hc
  exact Recorded.saved told mem (fits c mem) (normal c mem) before saves

end ParallelLint
