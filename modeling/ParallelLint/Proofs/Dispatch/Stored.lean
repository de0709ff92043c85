import ParallelLint.Proofs.Dispatch.Histories
import ParallelLint.Proofs.Dispatch.Renewal

set_option autoImplicit false

namespace ParallelLint
variable {σ : Type}

/-- An entry as such runs store it: without a text, be it the source or a fixed one. -/
structure CacheEntry.Bare (e : CacheEntry) : Prop where
  small : e.Small
  source : e.result.source = none
  output : e.result.output = none

/-- It is kept under a path that has led to a file. -/
structure CacheEntry.Stored (path : Path) (e : CacheEntry) : Prop extends e.Bare where
  file : ∃ fs : FileSystem, fs.isFile path = true

namespace Cache
variable {fs : FileSystem} {path : Path} {result : LintResult} {e : CacheEntry}

theorem restore_made (signature : Signature) (config : Fingerprint)
    (sourced : ∀ source, result.source = some source → fs.readText path = .ok source) :
    restore fs path (entryOf signature config result) = some result := by
  rw [restore, entryOf]
  cases source : result.source with
  | none =>
    cases result
    cases source
    rfl
  | some text =>
    rw [sourced text source]
    cases result
    cases source
    rfl

theorem restore_sourced (bare : e.result.source = none) (h : restore fs path e = some result)
    {source : String} (shown : result.source = some source) : fs.readText path = .ok source := by
  unfold restore at h
  split at h
  · split at h
    · rename_i text read
      cases h
      cases shown
      exact read
    · cases h
  · cases h
    rw [bare] at shown
    cases shown

theorem entryOf_restore (bare : e.result.source = none) (h : restore fs path e = some result) :
    entryOf e.signature e.fingerprint result = e := by
  obtain ⟨signature, fingerprint, kept, hadSource⟩ := e
  obtain ⟨p, messages, suppressed, counts, output, source⟩ := kept
  cases bare
  unfold restore at h
  cases hadSource with
  | false =>
    cases h
    rfl
  | true =>
    simp only [if_true] at h
    split at h <;> cases h
    rfl

end Cache

namespace Context.Gives
variable {ctx : Context σ} {cache : Cache} {fs : FileSystem} {task : Task}
  {config : ResolvedConfig} {result : LintResult} {signature : Signature}

theorem computed (h : ctx.Gives cache fs task config result signature) :
    Signature.compute fs task.path cache.strategy = .ok signature := by
  cases h with
  | kept known hit =>
    obtain ⟨e, known', -, computed, -⟩ := lookup_iff.1 hit
    rw [known] at known'
    cases known'
    exact computed
  | fresh _ read =>
    obtain ⟨modified, status, same⟩ := readAt_ok.1 read
    rw [same]
    exact compute_file status cache.strategy

theorem status (h : ctx.Gives cache fs task config result signature) :
    ∃ s, fs.status task.path = .ok s := compute_status h.computed

theorem known_or_isFile (h : ctx.Gives cache fs task config result signature) :
    (∃ e, cache.entry? task.path = some e) ∨ fs.isFile task.path = true := by
  cases h with
  | kept known => exact .inl ⟨_, known⟩
  | fresh _ read =>
    obtain ⟨modified, status, -⟩ := readAt_ok.1 read
    exact .inr (FileSystem.isFile_status.2 ⟨_, status, rfl⟩)

theorem entry_stored (entries : cache.All fun path e => e.Stored path) {e : CacheEntry}
    (known : cache.entry? task.path = some e) : ∃ key, e.Stored key := by
  obtain ⟨key, mem, -⟩ := (Sorted.find?_iff _).1 known
  exact ⟨key, entries _ mem⟩

theorem origin (h : ctx.Gives cache fs task config result signature)
    (rules : ctx.analyzer = textRules) (off : ctx.fix = .off)
    (entries : cache.All fun path e => e.Stored path) :
    (∃ e key, e.Stored key ∧ Cache.restore fs task.path e = some result ∧
      Cache.entryOf signature config.fingerprint result = e) ∨
    ∃ source, fs.readText task.path = .ok source ∧
      result = withSource (TextRules.analyze task.path source config.config .off) source := by
  cases h with
  | kept known hit =>
    obtain ⟨e, known', same, -, restored⟩ := lookup_iff.1 hit
    rw [known] at known'
    cases known'
    obtain ⟨key, stored⟩ := entry_stored entries known
    exact .inl ⟨_, key, stored, restored, same ▸ Cache.entryOf_restore stored.source restored⟩
  | fresh _ read text analyzed =>
    obtain ⟨modified, status, -⟩ := readAt_ok.1 read
    rw [rules, off] at analyzed
    cases analyzed
    exact .inr ⟨_, readText_iff.2 ⟨_, modified, status, text⟩, rfl⟩

theorem sourced (h : ctx.Gives cache fs task config result signature)
    (rules : ctx.analyzer = textRules) (off : ctx.fix = .off)
    (entries : cache.All fun path e => e.Stored path) {source : String}
    (shown : result.source = some source) : fs.readText task.path = .ok source := by
  rcases h.origin rules off entries with ⟨e, key, stored, restored, -⟩ | ⟨text, read, rfl⟩
  · exact Cache.restore_sourced stored.source restored shown
  · unfold withSource at shown
    split at shown <;> cases shown
    exact read

theorem unfixed (h : ctx.Gives cache fs task config result signature)
    (rules : ctx.analyzer = textRules) (off : ctx.fix = .off)
    (entries : cache.All fun path e => e.Stored path) : result.output = none := by
  rcases h.origin rules off entries with ⟨e, key, stored, -, rfl⟩ | ⟨text, -, rfl⟩
  · exact stored.output
  · rw [withSource_output]
    rfl

theorem bare (h : ctx.Gives cache fs task config result signature)
    (rules : ctx.analyzer = textRules) (off : ctx.fix = .off)
    (entries : cache.All fun path e => e.Stored path)
    (short : ∀ bytes, fs.read task.path = .ok bytes → 2 * bytes.length < UInt64.size - 1) :
    (Cache.entryOf signature config.fingerprint result).Bare := by
  have output := h.unfixed rules off entries
  rcases h.origin rules off entries with ⟨e, key, stored, -, same⟩ | ⟨text, read, rfl⟩
  · rw [same]
    exact stored.toBare
  · exact ⟨Cache.entryOf_small read short h.computed _ rfl _, rfl, output⟩

end Context.Gives

theorem Cache.All.insertAll {holds : Path → CacheEntry → Prop} {cache : Cache}
    (h : cache.All holds) {news : List (Path × CacheEntry)}
    (new : ∀ e ∈ news, holds e.1 e.2 ∨ ∃ f ∈ cache.entries.entries, f.1.parts = e.1.parts)
    (again : ∀ e ∈ news, ∀ key old, holds key old → key.parts = e.1.parts → holds key e.2) :
    (cache.insertAll news).All holds := by
  induction news generalizing cache with
  | nil => exact h
  | cons e rest ih =>
    have first := new e (List.mem_cons_self ..)
    have again₁ := again e (List.mem_cons_self ..)
    refine @ih { cache with entries := cache.entries.insert e.1 e.2 } ?_ ?_
      fun f hf => again f (List.mem_cons_of_mem _ hf)
    · intro f hf
      rcases Sorted.mem_insert.1 hf with ⟨key, value⟩ | ⟨hf, -⟩
      · rw [key, value]
        rcases first with here | ⟨old, mem, same⟩
        · rcases Sorted.keyIn_cases e.1 cache.entries.entries with own | ⟨old, mem⟩
          · rw [own]
            exact here
          · exact again₁ _ old (h _ mem) (Path.compare_eq.1 (Sorted.compare_keyIn ..)).symm
        · rw [Sorted.keyIn_of_mem mem (Path.compare_eq.2 same.symm)]
          exact again₁ _ _ (h _ mem) same
      · exact h f hf
    · intro f hf
      refine (new f (List.mem_cons_of_mem _ hf)).imp_right ?_
      rintro ⟨old, mem, same⟩
      by_cases replaced : compare e.1 old.1 = .eq
      · have key := Sorted.keyIn_of_mem mem replaced
        exact ⟨(old.1, e.2), Sorted.mem_insert.2 (.inl ⟨key.symm, rfl⟩), same⟩
      · exact ⟨old, Sorted.mem_insert.2 (.inr ⟨mem, replaced⟩), same⟩

theorem Dispatcher.Processed.stored {d : Dispatcher σ} {tasks : List Task} {world : World σ}
    {state : σ} {loaded : Cache} (h : d.Processed tasks world state loaded)
    (rules : d.analyzer = textRules) (off : d.options.fix = .off)
    (short : ∀ t ∈ tasks, ∀ bytes, world.files.read t.path = .ok bytes →
      2 * bytes.length < UInt64.size - 1)
    (entries : loaded.All fun path e => e.Stored path) :
    (d.renewed tasks loaded ⟨world.files, state⟩).All fun path e => e.Stored path := by
  refine entries.insertAll ?_ ?_ <;> rintro ⟨p, e⟩ new <;>
    obtain ⟨t, ht, rfl, -, config, result, signature, -, gives, -, rfl⟩ := h.mem_news.1 new <;>
    have bare := gives.bare rules off entries (short t ht)
  · rcases gives.known_or_isFile with ⟨e, known⟩ | file
    · obtain ⟨key, mem, same⟩ := (Sorted.find?_iff _).1 known
      exact .inr ⟨_, mem, (Path.compare_eq.1 same).symm⟩
    · exact .inl ⟨bare, world.files, file⟩
  · exact fun key old known _ => ⟨bare, known.file⟩

namespace Call
variable {c : Call}

theorem stable (fits : c.Fits) : c.dispatcher.resolver.Stable c.files := by
  rw [fits.resolver]
  exact Nearest.nearest_stable _

theorem cached {r : RunReport} (fits : c.Fits) (ok : c.answer.1 = .ok r) :
    ∃ loaded, c.dispatcher.Cached c.tasks c.start c.answer.2 r loaded :=
  Dispatcher.lintTasks_cached fits.cache fits.room (fits.analyzer ▸ textRules_quiet) (stable fits)
    (Prod.ext ok rfl)

theorem saves {r : RunReport} (fits : c.Fits) (ok : c.answer.1 = .ok r) :
    ∃ saved, c.Saves saved := by
  obtain ⟨loaded, run⟩ := cached fits ok
  let saved := (c.dispatcher.renewed c.tasks loaded ⟨c.files, c.answer.2.resolver⟩).prune c.files
  exact ⟨saved, ⟨r, ok⟩, (Cache.load_place run.opened).1, run.saved⟩

theorem saves_left {r : RunReport} (fits : c.Fits) (ok : c.answer.1 = .ok r) {bytes : Text.Bytes}
    (read : c.left.read c.cacheFile = .ok bytes) : ∃ saved, c.Saves saved ∧ saved.bytes = bytes := by
  obtain ⟨saved, saves⟩ := saves fits ok
  refine ⟨saved, saves, (Cache.save_read saves.save ?_).symm⟩
  rwa [saves.path]

theorem saves_stored (fits : c.Fits) (off : c.dispatcher.options.fix = .off)
    (before : ∀ bytes, c.files.read c.cacheFile = .ok bytes →
      Cache.Written (fun _ path e => e.Stored path) bytes)
    {saved : Cache} (saves : c.Saves saved) :
    Cache.Written (fun _ path e => e.Stored path) saved.bytes := by
  obtain ⟨⟨r, ok⟩, path, save⟩ := saves
  obtain ⟨loaded, run⟩ := cached fits ok
  have entries : loaded.All fun path e => e.Stored path :=
    Cache.load_all run.opened (fun _ _ _ h => h.small) before
  have same := Cache.save_unique save run.saved (path.trans (Cache.load_place run.opened).1.symm)
  exact ⟨_, (run.stored fits.analyzer off fits.small entries).prune c.files, same⟩

end Call

theorem History.stored {earlier : List Call} (history : History earlier)
    (fits : ∀ c ∈ earlier, c.Fits) (off : ∀ c ∈ earlier, c.dispatcher.options.fix = .off) :
    ∀ c ∈ earlier, ∀ saved, c.Saves saved →
      Cache.Written (fun _ path e => e.Stored path) saved.bytes :=
  history.written fun c hc before _ saves =>
    Call.saves_stored (fits c hc) (off c hc) before saves

end ParallelLint
