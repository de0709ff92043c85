import ParallelLint.Proofs.Dispatch.Stored

set_option autoImplicit false

namespace ParallelLint
variable {σ : Type}

def Resolver.setting (r : Resolver σ) (fs : FileSystem) (state : σ) (path : Path) :
    Except LintError (Option (Config × Fingerprint)) :=
  (r.resolve fs state path).1.map fun found =>
    found.map fun config => (config.config, config.fingerprint)

theorem Resolver.setting_fingerprint {r : Resolver σ} {fs fs' : FileSystem} {state state' : σ}
    {path : Path} (same : r.setting fs state path = r.setting fs' state' path) :
    (r.config? fs state path).map ResolvedConfig.fingerprint =
      (r.config? fs' state' path).map ResolvedConfig.fingerprint := by
  have print : ∀ fs state, (r.config? fs state path).map ResolvedConfig.fingerprint =
      ((r.setting fs state path).toOption.bind id).map Prod.snd := by
    intro fs state
    rw [config?, setting]
    cases (r.resolve fs state path).1 with
    | error e => rfl
    | ok found => cases found <;> rfl
  rw [print, print, same]

/-- The path leads to what it has led to. A directory may have got another time or size, if the cache
knows nothing of it. -/
def Cache.Unmoved (c : Cache) (fs fs' : FileSystem) (p : Path) : Prop :=
  fs'.status p = fs.status p ∨
    fs.isDirectory p = true ∧ fs'.isDirectory p = true ∧ c.entry? p = none

namespace Context
variable {ctx : Context σ} {cache : Cache} {fs : FileSystem} {world : World σ} {task : Task}
  {config : ResolvedConfig} {result : LintResult} {outcome : Outcome} {stats : Stats}

theorem cached_found (present : ctx.cache = some cache) (off : ctx.fix = .off) {e : CacheEntry}
    (known : cache.entry? task.path = some e)
    (hit : cache.lookup fs task.path config.fingerprint = some result) :
    ctx.cached fs task config =
      some ⟨task.index, some (ctx.report config result), some e.signature⟩ := by
  rw [cached_eq present, hit, off]
  simp only [FixMode.isRequested, Bool.and_false, Bool.false_eq_true, if_false, known,
    Option.map_some]

theorem cached_missed (present : ctx.cache = some cache)
    (missed : cache.lookup fs task.path config.fingerprint = none) :
    ctx.cached fs task config = none := by
  rw [cached_eq present, missed]

theorem process_off (present : ctx.cache = some cache) (off : ctx.fix = .off)
    (plain : task.ignored = false)
    (resolved : (ctx.resolver.resolve world.files world.resolver task.path).1 = .ok (some config))
    (answer : (ctx.process task world).1 = .ok (outcome, stats)) :
    (∃ result signature, ctx.Gives cache world.files task config result signature ∧
      outcome = ⟨task.index, some (ctx.report config result), some signature⟩) ∨
    cache.lookup world.files task.path config.fingerprint = none ∧
      ∃ e, ctx.readSource (.still world.files) task.path = .error e ∧
        outcome = ⟨task.index, some (LintResult.readFailure task.path e).alone, none⟩ ∧
        stats = .zero := by
  rw [process_plain plain, resolved] at answer
  cases hit : cache.lookup world.files task.path config.fingerprint with
  | some result =>
    obtain ⟨e, known, -, -, -⟩ := lookup_iff.1 hit
    simp only [cached_found present off known hit] at answer
    cases answer
    exact .inl ⟨result, e.signature, .kept known hit fun _ => by rw [off]; rfl, rfl⟩
  | none =>
    simp only [cached_missed present hit] at answer
    cases read : ctx.readSource (.still world.files) task.path with
    | error e =>
      simp only [analyzed, read] at answer
      cases answer
      exact .inr ⟨rfl, e, rfl, rfl, rfl⟩
    | ok pair =>
      obtain ⟨source, signed⟩ := pair
      obtain ⟨bytes, signature, here, text, rfl⟩ := (readSource_readAt present).1 read
      have still : (Moments.still world.files).analysis = world.files := rfl
      simp only [analyzed, read, still] at answer
      cases done : ctx.analyzer.analyze ⟨task.path, source, config, ctx.fix⟩ world.files with
      | mk found files =>
        rw [done] at answer
        cases found with
        | error cause => cases answer
        | ok found =>
          cases answer
          exact .inl ⟨_, signature,
            .fresh (by simp [hit]) here text (congrArg Prod.fst done), rfl⟩

theorem Gives.read {signature : Signature}
    (h : ctx.Gives cache fs task config result signature) (present : ctx.cache = some cache)
    (missed : cache.lookup fs task.path config.fingerprint = none) {e : FileError}
    (unread : ctx.readSource (.still fs) task.path = .error e) : False := by
  cases h with
  | kept _ hit =>
    rw [missed] at hit
    cases hit
  | fresh _ read text =>
    rw [(readSource_readAt present).2 ⟨_, _, read, text, rfl⟩] at unread
    cases unread

/-- The context of another run, with another analysis and the cache that was saved. -/
def rerun (ctx : Context σ)
    (analyze : Request → FileSystem → Except Breakdown LintResult × FileSystem) (saved : Cache) :
    Context σ :=
  { ctx with analyzer := { ctx.analyzer with analyze }, cache := some saved }

/-- What a task comes to once more: the same outcome, without an analysis. -/
def again (done : Outcome × Stats) : Outcome × Stats :=
  (done.1,
    if done.1.signature.isSome then { Stats.zero with cacheHits := 1 }
    else { done.2 with analyzed := 0 })

theorem again_analyzed (done : Outcome × Stats) : (again done).2.analyzed = 0 := by
  unfold again
  split <;> rfl

/-- The cache that was saved has what came of a task, and nothing else for its file. -/
structure Keeps (ctx : Context σ) (cache saved : Cache) (fs : FileSystem) (task : Task)
    (config : ResolvedConfig) : Prop where
  strategy : saved.strategy = cache.strategy
  given {result : LintResult} {signature : Signature} :
    ctx.Gives cache fs task config result signature →
      saved.entry? task.path = some (Cache.entryOf signature config.fingerprint result) ∧
        ∀ source, result.source = some source → fs.readText task.path = .ok source
  unread : (∀ result signature, ¬ctx.Gives cache fs task config result signature) →
    ∀ e, saved.entry? task.path = some e → cache.entry? task.path = some e

section
variable {analyze : Request → FileSystem → Except Breakdown LintResult × FileSystem}
  {saved : Cache} {fs' : FileSystem}

theorem readText_same {path : Path} (status : fs'.status path = fs.status path) :
    fs'.readText path = fs.readText path := by
  rw [FileSystem.readText, FileSystem.readText, FileSystem.read, FileSystem.read, status]

theorem readSource_directory (present : ctx.cache = some cache) {path : Path}
    (directory : fs.isDirectory path = true) :
    ctx.readSource (.still fs) path = .error .isADirectory := by
  obtain ⟨listing, status⟩ := FileSystem.isDirectory_status.1 directory
  rw [readSource_cached present, status]

theorem Gives.directory {signature : Signature}
    (h : ctx.Gives cache fs task config result signature)
    (directory : fs.isDirectory task.path = true) : ∃ e, cache.entry? task.path = some e := by
  refine h.known_or_isFile.resolve_right fun file => ?_
  rw [FileSystem.noDirectory_of_isFile file] at directory
  cases directory

theorem Keeps.lookup_given (keeps : ctx.Keeps cache saved fs task config)
    (unmoved : cache.Unmoved fs fs' task.path) {signature : Signature}
    (gives : ctx.Gives cache fs task config result signature) :
    saved.lookup fs' task.path config.fingerprint = some result := by
  rcases unmoved with status | ⟨directory, -, unknown⟩
  · obtain ⟨known, sourced⟩ := keeps.given gives
    have restored := @Cache.restore_made fs' task.path result signature config.fingerprint
      fun source shown => (readText_same status).trans (sourced source shown)
    simp only [Cache.lookup, known, keeps.strategy, compute_same status, gives.computed]
    rw [if_pos (by simp [Cache.entryOf]), restored]
  · obtain ⟨e, known⟩ := gives.directory directory
    cases unknown.symm.trans known

theorem Keeps.lookup_unread (keeps : ctx.Keeps cache saved fs task config)
    (unmoved : cache.Unmoved fs fs' task.path)
    (none : ∀ result signature, ¬ctx.Gives cache fs task config result signature)
    (missed : cache.lookup fs task.path config.fingerprint = Option.none) :
    saved.lookup fs' task.path config.fingerprint = Option.none := by
  cases found : saved.entry? task.path with
  | none => rw [Cache.lookup, found]
  | some e =>
    have known := keeps.unread none e found
    rcases unmoved with status | ⟨-, -, unknown⟩
    · rw [Cache.lookup, known] at missed
      rw [Cache.lookup, found, keeps.strategy, compute_same status]
      simpa only [Cache.restore, readText_same status] using missed
    · cases unknown.symm.trans known

theorem unread_again (present : ctx.cache = some cache) (strategy : saved.strategy = cache.strategy)
    (unmoved : cache.Unmoved fs fs' task.path) {e : FileError}
    (unread : ctx.readSource (.still fs) task.path = .error e) :
    (ctx.rerun analyze saved).readSource (.still fs') task.path = .error e := by
  have present' : (ctx.rerun analyze saved).cache = some saved := rfl
  rcases unmoved with status | ⟨directory, directory', -⟩
  · calc (ctx.rerun analyze saved).readSource (.still fs') task.path
        = ctx.readSource (.still fs) task.path := by
          rw [readSource_cached present', status, strategy, ← readSource_cached present]
      _ = .error e := unread
  · calc (ctx.rerun analyze saved).readSource (.still fs') task.path
        = .error .isADirectory := readSource_directory present' directory'
      _ = ctx.readSource (.still fs) task.path := (readSource_directory present directory).symm
      _ = .error e := unread

theorem configured_again (present : ctx.cache = some cache) (off : ctx.fix = .off)
    (plain : task.ignored = false) {state state' : σ} {config' : ResolvedConfig}
    (unmoved : cache.Unmoved fs fs' task.path)
    (resolved : (ctx.resolver.resolve fs state task.path).1 = .ok (some config))
    (resolved' : (ctx.resolver.resolve fs' state' task.path).1 = .ok (some config'))
    (same : config'.config = config.config) (print : config'.fingerprint = config.fingerprint)
    (keeps : ctx.Keeps cache saved fs task config) {done : Outcome × Stats}
    (answer : (ctx.process task ⟨fs, state⟩).1 = .ok done) :
    ((ctx.rerun analyze saved).process task ⟨fs', state'⟩).1 = .ok (again done) := by
  have resolver : (ctx.rerun analyze saved).resolver = ctx.resolver := rfl
  have present' : (ctx.rerun analyze saved).cache = some saved := rfl
  rw [process_plain plain, resolver, resolved']
  obtain ⟨outcome, stats⟩ := done
  rcases process_off present off plain resolved answer with
    ⟨result, signature, gives, rfl⟩ | ⟨missed, e, unread, rfl, rfl⟩
  · have hit := keeps.lookup_given unmoved gives
    rw [← print] at hit
    have report : (ctx.rerun analyze saved).report config' result = ctx.report config result := by
      rw [report, report, same]
      rfl
    simp only [@cached_found _ (ctx.rerun analyze saved) _ _ _ _ _ present' off _
      (keeps.given gives).1 hit, report]
    rfl
  · have missed' := keeps.lookup_unread unmoved
      (fun _ _ gives => gives.read present missed unread) missed
    rw [← print] at missed'
    have unread' := @unread_again _ _ _ _ _ analyze _ _ present keeps.strategy unmoved _ unread
    simp only [@cached_missed _ (ctx.rerun analyze saved) _ _ _ _ present' missed', analyzed,
      unread']
    rfl

/-- A task comes to the same once more, and is not analyzed. -/
theorem process_again (present : ctx.cache = some cache) (off : ctx.fix = .off) {state state' : σ}
    (unmoved : task.ignored = false → cache.Unmoved fs fs' task.path)
    (alike : task.ignored = false →
      ctx.resolver.setting fs' state' task.path = ctx.resolver.setting fs state task.path)
    (keeps : task.ignored = false → ∀ config,
      (ctx.resolver.resolve fs state task.path).1 = .ok (some config) →
        ctx.Keeps cache saved fs task config)
    {done : Outcome × Stats} (answer : (ctx.process task ⟨fs, state⟩).1 = .ok done) :
    ((ctx.rerun analyze saved).process task ⟨fs', state'⟩).1 = .ok (again done) := by
  cases ignored : task.ignored with
  | true =>
    have shown : (ctx.rerun analyze saved).warnIgnored = ctx.warnIgnored := rfl
    rw [process_ignored ignored] at answer ⊢
    rw [shown]
    cases warn : ctx.warnIgnored with
    | true | false =>
      rw [warn] at answer
      cases answer
      rfl
  | false =>
    obtain ⟨found, resolved⟩ := process_resolves ignored answer
    have alike := alike ignored
    rw [Resolver.setting, Resolver.setting, resolved] at alike
    cases resolved' : (ctx.resolver.resolve fs' state' task.path).1 with
    | error e =>
      rw [resolved'] at alike
      cases alike
    | ok found' =>
      rw [resolved'] at alike
      have resolver : (ctx.rerun analyze saved).resolver = ctx.resolver := rfl
      match found, found' with
      | none, none =>
        rw [process_plain ignored, resolved] at answer
        rw [process_plain ignored, resolver, resolved']
        cases answer
        rfl
      | some config, some config' =>
        obtain ⟨same, print⟩ : config'.config = config.config ∧
            config'.fingerprint = config.fingerprint := by
          simpa [Except.map] using alike
        exact configured_again present off ignored (unmoved ignored) resolved resolved' same print
          (keeps ignored config resolved) answer

end

end Context

end ParallelLint
