import ParallelLint.Proofs.Analyzer.Fixes
import ParallelLint.Proofs.Config.Resolving

set_option autoImplicit false

namespace ParallelLint
variable {σ : Type}

/-- The signature of a file that can be read. -/
def Signature.ofFile (strategy : CacheStrategy) (bytes : Text.Bytes) (modified : Int) : Signature :=
  match strategy with
  | .metadata => ofStatus (.file bytes modified)
  | .content => ofBytes bytes.length bytes

def TextRules.reported (path : Path) (source : String) (config : ResolvedConfig)
    (fix : FixMode) : FileReport :=
  ⟨Context.withSource (analyze path source config.config fix) source,
    config.config.deprecatedRules replacements⟩

namespace Context
variable {ctx : Context σ} {fs : FileSystem} {task : Task} {world : World σ} {outcome : Outcome}
  {stats : Stats} {cache : Cache}

theorem withSource_output {result : LintResult} (source : String) :
    (withSource result source).output = result.output := by
  unfold withSource
  split <;> rfl

theorem readSource_uncached (uncached : ctx.cache = none) (path : Path) :
    ctx.readSource (.still fs) path = (fs.readText path).map fun source => (source, none) := by
  rw [readSource, uncached]
  rfl

theorem readSource_cached (cached : ctx.cache = some cache) (path : Path) :
    ctx.readSource (.still fs) path =
      match fs.status path with
      | .ok (.file bytes modified) =>
        match Text.decode bytes with
        | .ok source => .ok (source, some (Signature.ofFile cache.strategy bytes modified))
        | .error e => .error (.described .invalidData e.message)
      | .ok (.closed _ _ e) => .error e
      | .ok (.directory _) => .error .isADirectory
      | .error e => .error e := by
  simp only [readSource, cached, Moments.still, Signature.readAcross, FileSystem.read]
  cases fs.status path with
  | error e => rfl
  | ok status =>
    cases status with
    | closed | directory => rfl
    | file bytes modified =>
      cases cache.strategy with
      | metadata | content => cases Text.decode bytes <;> rfl

theorem readText_iff {path : Path} {source : String} : fs.readText path = .ok source ↔
    ∃ bytes modified, fs.status path = .ok (.file bytes modified) ∧
      Text.decode bytes = .ok source := by
  unfold FileSystem.readText FileSystem.read
  cases fs.status path with
  | error e => simp
  | ok status =>
    cases status with
    | closed | directory => simp
    | file bytes modified => cases decoded : Text.decode bytes <;> simp [decoded]

theorem compute_file {path : Path} {bytes : Text.Bytes} {modified : Int}
    (status : fs.status path = .ok (.file bytes modified)) (strategy : CacheStrategy) :
    Signature.compute fs path strategy = .ok (.ofFile strategy bytes modified) := by
  have read : fs.read path = .ok bytes := by rw [FileSystem.read, status]
  rw [Signature.compute, status]
  cases strategy with
  | metadata => rfl
  | content => simp only [read]; rfl

theorem compute_status {path : Path} {strategy : CacheStrategy} {signature : Signature}
    (h : Signature.compute fs path strategy = .ok signature) : ∃ s, fs.status path = .ok s := by
  unfold Signature.compute at h
  split at h
  · cases h
  · rename_i s there
    exact ⟨s, there⟩

theorem compute_same {fs' : FileSystem} {path path' : Path}
    (status : fs'.status path' = fs.status path) (strategy : CacheStrategy) :
    Signature.compute fs' path' strategy = Signature.compute fs path strategy := by
  rw [Signature.compute, Signature.compute, FileSystem.read, FileSystem.read, status]

theorem compute_metadata {path : Path} {signature : Signature} :
    Signature.compute fs path .metadata = .ok signature ↔
      ∃ status, fs.status path = .ok status ∧ signature = .ofStatus status := by
  unfold Signature.compute
  cases fs.status path with
  | error e => simp
  | ok status => simp [eq_comm]

theorem compute_content {path : Path} {signature : Signature} :
    Signature.compute fs path .content = .ok signature ↔
      ∃ bytes modified, fs.status path = .ok (.file bytes modified) ∧
        signature = .ofBytes bytes.length bytes := by
  unfold Signature.compute FileSystem.read
  cases fs.status path with
  | error e => simp
  | ok status => cases status <;> simp [Except.map, Status.size, eq_comm]

theorem readAt_ok {path : Path} {strategy : CacheStrategy} {bytes : Text.Bytes}
    {signature : Signature} :
    Signature.readAt fs path strategy = .ok (bytes, signature) ↔
      ∃ modified, fs.status path = .ok (.file bytes modified) ∧
        signature = Signature.ofFile strategy bytes modified := by
  unfold Signature.readAt Signature.readAcross FileSystem.read
  cases fs.status path with
  | error e => simp
  | ok status =>
    cases status with
    | closed | directory => simp
    | file seen modified =>
      cases strategy <;> simp only [Except.ok.injEq, Prod.mk.injEq, Status.file.injEq]
      all_goals
        constructor
        · rintro ⟨rfl, rfl⟩
          exact ⟨modified, ⟨rfl, rfl⟩, rfl⟩
        · rintro ⟨_, ⟨rfl, rfl⟩, rfl⟩
          exact ⟨rfl, rfl⟩

theorem readSource_ok {path : Path} {source : String} {signature : Option Signature}
    (h : ctx.readSource (.still fs) path = .ok (source, signature)) :
    fs.readText path = .ok source ∧ ∀ cache, ctx.cache = some cache →
      ∃ s, signature = some s ∧ Signature.compute fs path cache.strategy = .ok s := by
  cases cached : ctx.cache with
  | none =>
    rw [readSource_uncached cached] at h
    cases text : fs.readText path with
    | error e => rw [text] at h; cases h
    | ok source =>
      rw [text] at h
      cases h
      exact ⟨rfl, by rintro cache ⟨⟩⟩
  | some cache =>
    rw [readSource_cached cached] at h
    split at h
    · rename_i bytes modified status
      split at h
      · rename_i decoded
        cases h
        refine ⟨readText_iff.2 ⟨bytes, modified, status, decoded⟩, ?_⟩
        rintro cache ⟨⟩
        exact ⟨_, rfl, compute_file status cache.strategy⟩
      · cases h
    all_goals cases h

theorem readSource_readable {path : Path} {source : String} (h : fs.readText path = .ok source) :
    ∃ signature, ctx.readSource (.still fs) path = .ok (source, signature) := by
  cases cached : ctx.cache with
  | none => exact ⟨none, by rw [readSource_uncached cached, h]; rfl⟩
  | some cache =>
    obtain ⟨bytes, modified, status, decoded⟩ := readText_iff.1 h
    exact ⟨_, by rw [readSource_cached cached, status]; simp only [decoded]; rfl⟩

/-- What a report about a task must be, as far as it does not tell why a file cannot be read. -/
structure Shows (ctx : Context σ) (world : World σ) (task : Task) (report : Option FileReport) :
    Prop where
  ignored : task.ignored = true →
    report = if ctx.warnIgnored then some (LintResult.ignored task.path).alone else none
  some : task.ignored = false → report.isSome = true
  reported : task.ignored = false → ∀ config source,
    (ctx.resolver.resolve world.files world.resolver task.path).1 = .ok (Option.some config) →
      world.files.readText task.path = .ok source →
        report = Option.some (TextRules.reported task.path source config ctx.fix)

theorem Shows.isSome {report : Option FileReport} (h : ctx.Shows world task report) :
    report.isSome = (!task.ignored || ctx.warnIgnored) := by
  cases ignored : task.ignored with
  | false => exact h.some ignored
  | true =>
    rw [h.ignored ignored]
    cases ctx.warnIgnored <;> rfl

theorem Shows.alike {ctx' : Context σ} {world' : World σ} {report report' : Option FileReport}
    (h : ctx.Shows world task report) (h' : ctx'.Shows world' task report')
    (warn : ctx.warnIgnored = ctx'.warnIgnored) (fix : ctx.fix = ctx'.fix)
    (same : task.ignored = false → ∃ config source,
      (ctx.resolver.resolve world.files world.resolver task.path).1 = .ok (Option.some config) ∧
      (ctx'.resolver.resolve world'.files world'.resolver task.path).1 = .ok (Option.some config) ∧
      world.files.readText task.path = .ok source ∧
      world'.files.readText task.path = .ok source) : report = report' := by
  cases plain : task.ignored with
  | true => rw [h.ignored plain, h'.ignored plain, warn]
  | false =>
    obtain ⟨config, source, resolved, resolved', text, text'⟩ := same plain
    rw [h.reported plain config source resolved text,
      h'.reported plain config source resolved' text', fix]

/-- Under a cache: a signature comes with a report only, and is that of the file. -/
def Signed (ctx : Context σ) (world : World σ) (task : Task) (outcome : Outcome) : Prop :=
  ∀ cache, ctx.cache = some cache → ∀ signature, outcome.signature = some signature →
    task.ignored = false ∧ ∃ config source,
      (ctx.resolver.resolve world.files world.resolver task.path).1 = .ok (some config) ∧
      world.files.readText task.path = .ok source ∧
      Signature.compute world.files task.path cache.strategy = .ok signature

/-- What the cache answers is what an analysis without fixes would give. -/
def Recalls (ctx : Context σ) (world : World σ) (task : Task) : Prop :=
  ∀ cache, ctx.cache = some cache → ∀ config,
    (ctx.resolver.resolve world.files world.resolver task.path).1 = .ok (some config) →
      ∀ result, cache.lookup world.files task.path config.fingerprint = some result →
        ∃ source, world.files.readText task.path = .ok source ∧
          result = withSource (TextRules.analyze task.path source config.config .off) source

theorem lookup_iff {path : Path} {config : Fingerprint} {result : LintResult} :
    cache.lookup fs path config = some result ↔
      ∃ e, cache.entry? path = some e ∧ e.fingerprint = config ∧
        Signature.compute fs path cache.strategy = .ok e.signature ∧
        Cache.restore fs path e = some result := by
  unfold Cache.lookup
  cases cache.entry? path with
  | none => simp
  | some e =>
    cases Signature.compute fs path cache.strategy with
    | error failed => simp
    | ok signature =>
      by_cases same : signature = e.signature <;> by_cases config : e.fingerprint = config <;>
        simp [same, config]

theorem cached_ok {config : ResolvedConfig} (h : ctx.cached fs task config = some outcome) :
    ∃ cache result signature, ctx.cache = some cache ∧
      cache.lookup fs task.path config.fingerprint = some result ∧
      (result.hasMessages = true → ctx.fix.isRequested = false) ∧
      Signature.compute fs task.path cache.strategy = .ok signature ∧
      outcome = ⟨task.index, some (ctx.report config result), some signature⟩ := by
  unfold cached at h
  split at h
  · cases h
  rename_i cache present
  split at h
  · cases h
  rename_i result found
  split at h
  · cases h
  rename_i plain
  cases h
  obtain ⟨e, entry, -, computed, -⟩ := lookup_iff.1 found
  refine ⟨cache, result, e.signature, present, found, ?_, computed, by rw [entry]; rfl⟩
  intro messages
  simpa [messages] using plain

theorem withSource_hasMessages (result : LintResult) (source : String) :
    (withSource result source).hasMessages = result.hasMessages := by
  unfold withSource
  split <;> rfl

theorem analyze_quiet {path : Path} {source : String} {c : Config}
    (quiet : (TextRules.analyze path source c .off).hasMessages = false) :
    TextRules.analyze path source c .all = TextRules.analyze path source c .off := by
  refine TextRules.analyze_plain fun m hm => ?_
  have empty : TextRules.messages c source = [] := by
    simpa [TextRules.analyze_off, LintResult.hasMessages] using quiet
  rw [empty] at hm
  cases hm

theorem cached_shows (rules : ctx.analyzer = textRules) (fix : ctx.fix = .off ∨ ctx.fix = .all)
    {config : ResolvedConfig} (hit : ctx.cached fs task config = some outcome)
    (recalls : ∀ cache, ctx.cache = some cache →
      ∀ result, cache.lookup fs task.path config.fingerprint = some result →
        ∃ source, fs.readText task.path = .ok source ∧
          result = withSource (TextRules.analyze task.path source config.config .off) source) :
    ∃ source cache signature, fs.readText task.path = .ok source ∧ ctx.cache = some cache ∧
      Signature.compute fs task.path cache.strategy = .ok signature ∧
      outcome = ⟨task.index, some (TextRules.reported task.path source config ctx.fix),
        some signature⟩ := by
  obtain ⟨cache, result, signature, present, found, allowed, computed, rfl⟩ := cached_ok hit
  obtain ⟨source, text, rfl⟩ := recalls cache present result found
  have same : TextRules.analyze task.path source config.config ctx.fix =
      TextRules.analyze task.path source config.config .off := by
    rcases fix with off | all
    · rw [off]
    · rw [all, withSource_hasMessages] at allowed
      rw [all]
      cases messages : (TextRules.analyze task.path source config.config .off).hasMessages with
      | false => exact analyze_quiet messages
      | true => cases allowed messages
  refine ⟨source, cache, signature, text, present, computed, ?_⟩
  simp only [TextRules.reported, same, report, rules]
  rfl

theorem analyzed_shows (rules : ctx.analyzer = textRules) {config : ResolvedConfig}
    (answer : (ctx.analyzed task config (.still fs)).1 = .ok (outcome, stats)) :
    outcome.report.isSome = true ∧
      (∀ source, fs.readText task.path = .ok source →
        outcome.report = some (TextRules.reported task.path source config ctx.fix)) ∧
      ∀ cache, ctx.cache = some cache → ∀ signature, outcome.signature = some signature →
        ∃ source, fs.readText task.path = .ok source ∧
          Signature.compute fs task.path cache.strategy = .ok signature := by
  cases read : ctx.readSource (.still fs) task.path with
  | error e =>
    simp only [analyzed, read] at answer
    cases answer
    refine ⟨rfl, fun source text => ?_, by rintro _ - _ ⟨⟩⟩
    obtain ⟨signature, ok⟩ := @readSource_readable _ ctx _ _ _ text
    rw [read] at ok
    cases ok
  | ok pair =>
    obtain ⟨source, signature⟩ := pair
    obtain ⟨text, signs⟩ := readSource_ok read
    simp only [analyzed, read, rules, textRules] at answer
    cases answer
    refine ⟨rfl, fun source' text' => ?_, fun cache present s signed => ?_⟩
    · rw [text] at text'
      cases text'
      simp only [report, rules]
      rfl
    · obtain ⟨s', same, computed⟩ := signs cache present
      simp only at signed
      rw [same] at signed
      cases signed
      exact ⟨source, text, computed⟩

theorem process_ignored (ignored : task.ignored = true) :
    (ctx.process task world).1 =
      if ctx.warnIgnored then
        .ok (⟨task.index, some (LintResult.ignored task.path).alone, none⟩,
          { Stats.zero with ignored := 1 })
      else .ok (⟨task.index, none, none⟩, { Stats.zero with skipped := 1 }) := by
  simp only [process, processAcross, ignored, ite_true]
  split <;> rfl

theorem process_plain (plain : task.ignored = false) :
    (ctx.process task world).1 =
      match (ctx.resolver.resolve world.files world.resolver task.path).1 with
      | .error e => .error (.failed e)
      | .ok none => .ok (⟨task.index, some (LintResult.unconfigured task.path).alone, none⟩, .zero)
      | .ok (some config) =>
        match ctx.cached world.files task config with
        | some outcome => .ok (outcome, { Stats.zero with cacheHits := 1 })
        | none => (ctx.analyzed task config (.still world.files)).1 := by
  simp only [process, processAcross, plain, Bool.false_eq_true, ite_false, Moments.still]
  cases ctx.resolver.resolve world.files world.resolver task.path with
  | mk found state =>
    match found with
    | .error e => rfl
    | .ok none => rfl
    | .ok (some config) =>
      simp only
      cases ctx.cached world.files task config <;> rfl

theorem process_unresolved (plain : task.ignored = false) {e : LintError}
    (unresolved : (ctx.resolver.resolve world.files world.resolver task.path).1 = .error e) :
    (ctx.process task world).1 = .error (.failed e) := by
  rw [process_plain plain, unresolved]

theorem process_resolves (plain : task.ignored = false)
    (answer : (ctx.process task world).1 = .ok (outcome, stats)) :
    ∃ found, (ctx.resolver.resolve world.files world.resolver task.path).1 = .ok found := by
  rw [process_plain plain] at answer
  cases resolved : (ctx.resolver.resolve world.files world.resolver task.path).1 with
  | error e =>
    rw [resolved] at answer
    cases answer
  | ok found => exact ⟨found, rfl⟩

/-- A task is reported as it is without a cache, if the cache recalls what it should. -/
theorem process_shows (rules : ctx.analyzer = textRules) (fix : ctx.fix = .off ∨ ctx.fix = .all)
    (recalls : task.ignored = false → ctx.Recalls world task)
    (answer : (ctx.process task world).1 = .ok (outcome, stats)) :
    ctx.Shows world task outcome.report ∧ ctx.Signed world task outcome := by
  cases ignored : task.ignored with
  | true =>
    have shows : ∀ report, (report = if ctx.warnIgnored then
        some (LintResult.ignored task.path).alone else none) → ctx.Shows world task report :=
      fun report same => ⟨fun _ => same, fun h => by simp [ignored] at h,
        fun h => by simp [ignored] at h⟩
    rw [process_ignored ignored] at answer
    split at answer
    · rename_i warn
      cases answer
      exact ⟨shows _ (if_pos warn).symm, by rintro _ - _ ⟨⟩⟩
    · rename_i silent
      cases answer
      exact ⟨shows _ (if_neg silent).symm, by rintro _ - _ ⟨⟩⟩
  | false =>
    rw [process_plain ignored] at answer
    cases resolved : (ctx.resolver.resolve world.files world.resolver task.path).1 with
    | error e =>
      rw [resolved] at answer
      cases answer
    | ok found =>
      rw [resolved] at answer
      cases found with
      | none =>
        cases answer
        refine ⟨⟨fun h => by simp [ignored] at h, fun _ => rfl, fun _ config source h => ?_⟩,
          by rintro _ - _ ⟨⟩⟩
        rw [resolved] at h
        cases h
      | some config =>
        simp only at answer
        split at answer
        · rename_i hit
          cases answer
          obtain ⟨source, cache, signature, text, present, computed, rfl⟩ :=
            cached_shows rules fix hit fun cache present => recalls ignored cache present config resolved
          refine ⟨⟨fun h => by simp [ignored] at h, fun _ => rfl, ?_⟩, ?_⟩
          · intro _ config' source' resolved' text'
            rw [resolved] at resolved'
            rw [text] at text'
            cases resolved'
            cases text'
            rfl
          · rintro cache' present' _ ⟨⟩
            rw [present] at present'
            cases present'
            exact ⟨ignored, config, source, resolved, text, computed⟩
        · obtain ⟨shown, reported, signed⟩ := analyzed_shows rules answer
          refine ⟨⟨fun h => by simp [ignored] at h, fun _ => shown, ?_⟩, ?_⟩
          · intro _ config' source' resolved' text'
            rw [resolved] at resolved'
            cases resolved'
            exact reported source' text'
          · intro cache present signature h
            obtain ⟨source, text, computed⟩ := signed cache present signature h
            exact ⟨ignored, config, source, resolved, text, computed⟩

end Context
end ParallelLint
