import ParallelLint.Proofs.Cache.Paths
import ParallelLint.Proofs.Dispatch.Histories
import ParallelLint.Proofs.Dispatch.Racing
import ParallelLint.Proofs.Dispatch.Transparency
import ParallelLint.Proofs.Pool.Keeping

set_option autoImplicit false

namespace ParallelLint
open Context
variable {σ : Type}

/-- A signature with the fields of a strategy and no others. -/
def Signature.IsOf (s : Signature) : CacheStrategy → Prop
  | .metadata => s.modified.isSome = true ∧ s.hash = none
  | .content => s.modified = none ∧ s.hash.isSome = true

theorem Signature.compute_isOf {fs : FileSystem} {path : Path} {strategy : CacheStrategy}
    {s : Signature} (computed : compute fs path strategy = .ok s) : s.IsOf strategy := by
  cases strategy with
  | metadata =>
    obtain ⟨status, -, rfl⟩ := compute_metadata.1 computed
    exact ⟨rfl, rfl⟩
  | content =>
    obtain ⟨bytes, modified, -, rfl⟩ := compute_content.1 computed
    exact ⟨rfl, rfl⟩

structure CacheEntry.Clean (strategy : CacheStrategy) (key : Path) (e : CacheEntry) : Prop where
  source : e.result.source = none
  output : e.result.output = none
  hadSource : e.hadSource = e.result.hasMessages
  key : e.result.path = key
  counts : e.result.counts = .ofMessages e.result.messages
  suppressed : e.result.suppressed = []
  found : ∀ m ∈ e.result.messages, m.fatal = false ∧ ∀ text, m ≠ .notice text
  signature : e.signature.IsOf strategy

/-- A clean entry that can be saved, and that no other file takes for its own. -/
structure CacheEntry.Tidy (strategy : CacheStrategy) (key : Path) (e : CacheEntry) : Prop where
  clean : e.Clean strategy key
  normal : key.Normal
  small : e.Small

theorem CacheEntry.Tidy.holds {strategy : CacheStrategy} {key : Path} {e : CacheEntry}
    (h : e.Tidy strategy key) : Cache.Holds (Tidy strategy) key e := by
  refine ⟨h, fun other old known same => ?_⟩
  rwa [known.normal.eq h.normal same]

namespace TextRules

theorem messages_found {c : Config} {source : String} {m : Message} (h : m ∈ messages c source) :
    m.ruleId.isSome = true ∧ m.fatal = false := by
  obtain ⟨before, raw, after, -, mem⟩ := mem_messagesFrom h
  rcases mem_lineMessages.1 mem with ⟨rule, -, found⟩ | ⟨rule, -, found⟩ | ⟨severity, -, found⟩
  · unfold trailingMessage at found
    simp only at found
    split at found <;> cases found
    exact ⟨rfl, rfl⟩
  · unfold lengthMessage at found
    split at found <;> cases found
    exact ⟨rfl, rfl⟩
  · obtain ⟨n, -, rfl⟩ := Option.map_eq_some_iff.1 found
    exact ⟨rfl, rfl⟩

end TextRules

namespace Context
variable {ctx : Context σ} {fs : FileSystem} {world : World σ} {task : Task} {outcome : Outcome}
  {stats : Stats} {cache : Cache}

theorem analyzed_tidy (rules : ctx.analyzer = textRules) (present : ctx.cache = some cache)
    (normal : task.path.Normal)
    (short : ∀ bytes, fs.read task.path = .ok bytes → 2 * bytes.length < UInt64.size - 1)
    {config : ResolvedConfig} (answer : (ctx.analyzed task config (.still fs)).1 = .ok (outcome, stats))
    {report : FileReport} {signature : Signature} (reported : outcome.report = some report)
    (signed : outcome.signature = some signature) (unfixed : report.result.output = none)
    (fingerprint : Fingerprint) :
    (Cache.entryOf signature fingerprint report.result).Tidy cache.strategy task.path := by
  obtain ⟨-, shown, signs⟩ := analyzed_shows rules answer
  obtain ⟨source, text, computed⟩ := signs cache present signature signed
  rw [shown source text] at reported
  cases reported
  simp only [TextRules.reported, withSource_output] at unfixed
  refine ⟨?_, normal, Cache.entryOf_small text short computed _ unfixed _⟩
  have kind := Signature.compute_isOf computed
  obtain ⟨found, perm, analyzed⟩ := TextRules.analyze_remains unfixed
  have plain : ∀ m ∈ found, m.fatal = false ∧ ∀ text, m ≠ .notice text := by
    intro m hm
    obtain ⟨rule, fatal⟩ := TextRules.messages_found (perm.mem_iff.1 hm)
    refine ⟨fatal, ?_⟩
    rintro text rfl
    cases rule
  simp only [TextRules.reported, analyzed, withSource]
  cases messages : (LintResult.ofMessages task.path found).hasMessages with
  | true => exact ⟨rfl, rfl, messages.symm, rfl, rfl, rfl, plain, kind⟩
  | false => exact ⟨rfl, rfl, messages.symm, rfl, rfl, rfl, plain, kind⟩

theorem cached_tidy (present : ctx.cache = some cache)
    (entries : cache.All (CacheEntry.Tidy cache.strategy)) (normal : task.path.Normal)
    {config : ResolvedConfig} (hit : ctx.cached fs task config = some outcome)
    {report : FileReport} {signature : Signature} (reported : outcome.report = some report)
    (signed : outcome.signature = some signature) (fingerprint : Fingerprint) :
    (Cache.entryOf signature fingerprint report.result).Tidy cache.strategy task.path := by
  obtain ⟨cache', result, s, present', found, -, computed, rfl⟩ := cached_ok hit
  rw [present] at present'
  cases present'
  cases reported
  cases signed
  obtain ⟨e, known, -, computed', restored⟩ := lookup_iff.1 found
  rw [computed] at computed'
  cases computed'
  obtain ⟨key, mem, same⟩ := (Sorted.find?_iff _).1 known
  have tidy := entries _ mem
  have here : key = task.path := tidy.normal.eq normal (Path.compare_eq.1 same).symm
  simp only [here] at tidy
  have result_eq : { result with source := none } = e.result := by
    rw [Cache.restore_result restored, ← tidy.clean.source]
  have source : result.source.isSome = e.hadSource := by
    unfold Cache.restore at restored
    split at restored
    · rename_i had
      split at restored <;> cases restored
      exact had.symm
    · rename_i had
      cases restored
      rw [tidy.clean.source]
      simpa using had
  have stored : Cache.entryOf e.signature fingerprint (ctx.report config result).result =
      { e with fingerprint } := by
    change CacheEntry.mk _ _ { result with source := none } result.source.isSome = _
    rw [result_eq, source]
  obtain ⟨clean, normal, small⟩ := tidy
  rw [stored]
  exact ⟨⟨clean.source, clean.output, clean.hadSource, clean.key, clean.counts, clean.suppressed,
    clean.found, clean.signature⟩, normal, ⟨small.signature, small.result⟩⟩

theorem process_tidy (rules : ctx.analyzer = textRules) (present : ctx.cache = some cache)
    (entries : cache.All (CacheEntry.Tidy cache.strategy))
    (normal : task.ignored = false → task.path.Normal)
    (short : ∀ bytes, world.files.read task.path = .ok bytes →
      2 * bytes.length < UInt64.size - 1)
    (answer : (ctx.process task world).1 = .ok (outcome, stats))
    {report : FileReport} {signature : Signature} (reported : outcome.report = some report)
    (signed : outcome.signature = some signature) (unfixed : report.result.output = none)
    (fingerprint : Fingerprint) :
    (Cache.entryOf signature fingerprint report.result).Tidy cache.strategy task.path := by
  cases ignored : task.ignored with
  | true =>
    rw [process_ignored ignored] at answer
    split at answer <;> cases answer <;> cases signed
  | false =>
    rw [process_plain ignored] at answer
    split at answer
    · cases answer
    · cases answer
      cases signed
    · split at answer
      · rename_i hit
        cases answer
        exact cached_tidy present entries (normal ignored) hit reported signed fingerprint
      · exact analyzed_tidy rules present (normal ignored) short answer reported signed unfixed
          fingerprint

end Context

theorem Cache.storable_unfixed {tasks : List Task} {m : Merged} {task : Task}
    {signature : Signature} (h : storable? tasks m = some (task, signature)) :
    m.report.result.output = none := by
  unfold storable? at h
  split at h
  · split at h
    · cases h
    · rename_i plain
      simp only [Bool.or_eq_true, not_or, Bool.not_eq_true] at plain
      simpa using plain.2
  · cases h

/-- A run: what is linted, under which files, and with a resolver in some state. -/
structure Run where
  σ : Type
  dispatcher : Dispatcher σ
  tasks : List Task
  world : World σ

namespace Run

def answer (c : Run) : Except LintError RunReport × World c.σ :=
  c.dispatcher.lintTasks c.tasks c.world

def cacheFile (c : Run) : Path := c.dispatcher.cacheFile c.world.files

def strategy (c : Run) : CacheStrategy := c.dispatcher.options.cacheStrategy

/-- A run of the text rules with a cache that succeeds. It asks for files by paths in normal form, of
less than 2 to the 63 bytes each. -/
structure Succeeds (c : Run) : Prop where
  analyzer : c.dispatcher.analyzer = textRules
  cache : c.dispatcher.options.cache = true
  normal : ∀ t ∈ c.tasks, t.ignored = false → t.path.Normal
  small : ∀ t ∈ c.tasks, ∀ bytes, c.world.files.read t.path = .ok bytes →
    2 * bytes.length < UInt64.size - 1
  ok : ∃ r, c.answer.1 = .ok r

/-- The cache that a run saves at its end. -/
structure Saves (c : Run) (saved : Cache) : Prop where
  path : saved.path = c.cacheFile
  strategy : saved.strategy = c.strategy
  save : saved.save c.world.files = (.ok (), c.answer.2.files)

end Run

namespace Run
variable {c : Run}

theorem Succeeds.saves (h : c.Succeeds)
    (before : ∀ bytes, c.world.files.read c.cacheFile = .ok bytes →
      Cache.Written CacheEntry.Tidy bytes) :
    ∃ saved, c.Saves saved ∧ saved.All (CacheEntry.Tidy c.strategy) := by
  obtain ⟨r, ok⟩ := h.ok
  have ended : c.dispatcher.lintTasks c.tasks c.world = (.ok r, c.answer.2) :=
    Prod.ext ok rfl
  obtain ⟨numbered, loaded, load, -, ran⟩ := Dispatcher.lintTasks_ran h.cache ended
  obtain ⟨workers, outcomes, stats, state, gave, closed⟩ :=
    Dispatcher.runWorkers_gave (by rw [h.analyzer]; exact textRules_quiet) ran
  obtain ⟨path, strategy⟩ := Cache.load_place load
  have strategy : loaded.strategy = c.strategy := strategy
  have entries : loaded.All (CacheEntry.Tidy loaded.strategy) := by
    rw [strategy]
    exact Cache.load_all load (fun _ _ _ tidy => tidy.small) before
  have new : ∀ m ∈ mergeOutcomes outcomes c.tasks.length, ∀ task signature,
      Cache.storable? c.tasks m = some (task, signature) → ∀ s, True → ∀ config,
        (c.dispatcher.resolver.resolve c.world.files s task.path).1 = .ok (some config) →
          Cache.Holds (CacheEntry.Tidy loaded.strategy) task.path
            (Cache.entryOf signature config.fingerprint m.report.result) := by
    intro m hm task signature wanted _ _ config _
    obtain ⟨o, ho, merged⟩ := mem_mergeOutcomes hm
    obtain ⟨report, reported, rfl⟩ := Option.map_eq_some_iff.1 merged
    obtain ⟨t, ht, state, stats, answer⟩ := gave o ho
    have index : c.tasks[o.index]? = some t := by
      obtain ⟨i, there⟩ := List.mem_iff_getElem?.1 ht
      rw [process_index answer, Task.index_eq numbered there, there]
    obtain ⟨rfl, signed⟩ := Cache.storable_signed wanted index
    exact (@process_tidy _ _ ⟨c.world.files, state⟩ _ _ _ _ h.analyzer rfl entries (h.normal _ ht)
      (h.small _ ht) answer _ _ reported signed (Cache.storable_unfixed wanted)
      config.fingerprint).holds
  rcases @Dispatcher.conclude_cases _ _ _ state _ (fun _ => True) _ _ _ workers stats entries
    trivial (fun _ _ _ _ _ => trivial) new with ⟨e, failed, -⟩ |
    ⟨saved, all, place, kind, files, ⟨e, failed, -⟩ | ⟨changes, -, done⟩⟩
  · rw [closed] at failed
    cases failed
  · rw [closed] at failed
    cases failed
  · rw [closed] at files
    refine ⟨saved, ⟨place.trans path, kind.trans strategy, ?_⟩, strategy ▸ all⟩
    exact Prod.ext done files.symm

end Run

/-- Runs one after the other, the latest first. Anything may happen to the files in between, but what
is found in a cache file was saved by an earlier run; at first there is none. -/
inductive Runs : List Run → Prop where
  | empty : Runs []
  | next {c : Run} {earlier : List Run} (before : Runs earlier) (succeeds : c.Succeeds)
      (found : ∀ bytes, c.world.files.read c.cacheFile = .ok bytes →
        ∃ d ∈ earlier, ∃ saved, d.Saves saved ∧ saved.bytes = bytes) :
      Runs (c :: earlier)

theorem Runs.tidy {runs : List Run} (history : Runs runs) :
    ∀ c ∈ runs, ∃ saved, c.Saves saved ∧ saved.All (CacheEntry.Tidy c.strategy) := by
  -- the cache that a run finds is tidy, since it was saved by one of the runs before
  induction history with
  | empty =>
    intro c hc
    cases hc
  | @next c earlier _ succeeds found ih =>
    intro d hd
    rcases List.mem_cons.1 hd with rfl | hd
    · refine succeeds.saves fun bytes read => ?_
      obtain ⟨e, he, old, left, rfl⟩ := found bytes read
      obtain ⟨saved, saves, all⟩ := ih e he
      exact ⟨saved, saves.strategy ▸ all,
        Cache.save_unique left.save saves.save (left.path.trans saves.path.symm)⟩
    · exact ih d hd

/-- The run of a call with other fixes. -/
def Call.fixing (c : Call) (fix : FixMode) : Call :=
  { c with dispatcher := { c.dispatcher with options := { c.dispatcher.options with fix } } }

def Call.run (c : Call) : Run := ⟨Nearest, c.dispatcher, c.tasks, c.start⟩

theorem FileSystem.HasTab.fixing {fs : FileSystem} (h : fs.HasTab) (fix : FixMode) :
    let c := ((Call.tabs fs).fixing fix).run
    c.Succeeds ∧ c.cacheFile = top "c" ∧
      ∃ bytes, c.answer.2.files = fs.set ["c"] (.file bytes fs.clock) := by
  intro c
  have answered := fun loaded => @Context.steady_done _
    (((Call.tabs fs).fixing fix).context loaded) (Call.tabs fs).start textRules_quiet
    (Nearest.nearest_steady _ _ _ (HasTab.normal fs)) fun t ht =>
      process_answered textRules_total fun _ => by
        rw [List.mem_singleton.1 ht]
        exact ⟨_, h.resolved⟩
  obtain ⟨r, bytes, ok, left⟩ := @Dispatcher.lintTasks_top _ c.dispatcher c.tasks c.world rfl rfl
    h.fits.room textRules_quiet (Nearest.nearest_stable fs) _ (by decide) h.cacheFile h.freeOrFile
    fun loaded => Dispatcher.pool_noError h.fits.room (answered loaded)
  refine ⟨⟨rfl, rfl, fun t ht _ => ?_, h.fits.small, r, ok⟩, h.cacheFile, bytes, left⟩
  exact HasTab.normal fs _ (mem_asked ht (by rw [List.mem_singleton.1 ht]))

def tabRules : Config := Config.empty.withRule "no-tabs" (.plain .error)

theorem reported_tab {fix : FixMode} (unfixed : fix = .off ∨ fix = .only Message.fatal) :
    let r := withSource (TextRules.analyze (FileSystem.top "b") "\t" tabRules fix) "\t"
    r.output = none ∧ r.source.isSome = true := by
  rcases unfixed with rfl | rfl <;> decide +kernel

def CacheEntry.OfTab (strategy : CacheStrategy) (key : Path) (e : CacheEntry) : Prop :=
  e.Tidy strategy key ∧ (key = FileSystem.top "b" → e.hadSource = true)

theorem Run.Saves.mem {c : Run} {saved loaded : Cache} {r : RunReport} (saves : c.Saves saved)
    (run : c.dispatcher.Cached c.tasks c.world c.answer.2 r loaded)
    (distinct : (c.tasks.map fun t => t.path.parts).Nodup) {t : Task} (ht : t ∈ c.tasks)
    (key : loaded.keyOf t.path = t.path) (there : c.world.files.contains t.path = true)
    {e : CacheEntry} (renews : (c.dispatcher.context c.tasks (some loaded)).Renews loaded
      ⟨c.world.files, c.answer.2.resolver⟩ t e) :
    ∃ f, (t.path, f) ∈ saved.entries.entries ∧ f.toJson.tree = e.toJson.tree :=
  Cache.mem_of_bytes
    (Cache.save_unique saves.save run.saved (saves.path.trans (Cache.load_place run.opened).1.symm))
    (run.mem_saved distinct ht key there renews)

namespace FileSystem.HasTab
variable {fs : FileSystem}

theorem gives (h : fs.HasTab) {σ : Type} {ctx : Context σ} (rules : ctx.analyzer = textRules)
    (unfixed : ctx.fix = .off ∨ ctx.fix = .only Message.fatal) {loaded : Cache}
    (entries : loaded.All (CacheEntry.OfTab loaded.strategy)) {config : ResolvedConfig}
    (tabs : config.config = tabRules) :
    ∃ result signature, ctx.Gives loaded fs ⟨0, top "b", false⟩ config result signature ∧
      result.output = none ∧ result.source.isSome = true := by
  have read : Signature.readAt fs (top "b") loaded.strategy =
      .ok ([9], Signature.ofFile loaded.strategy [9] 1) := by
    rw [Signature.readAt, Signature.readAcross, h.status, FileSystem.read, h.status]
    cases loaded.strategy <;> rfl
  have text : Text.decode [9] = .ok "\t" := by rfl
  have fresh (missed : ∀ old, loaded.lookup fs (top "b") config.fingerprint = some old →
      old.hasMessages = true ∧ ctx.fix.isRequested = true) :
      ∃ result signature, ctx.Gives loaded fs ⟨0, top "b", false⟩ config result signature ∧
        result.output = none ∧ result.source.isSome = true :=
    ⟨_, _, .fresh missed read text (by rw [rules]; rfl), tabs ▸ reported_tab unfixed⟩
  cases hit : loaded.lookup fs (top "b") config.fingerprint with
  | none => exact fresh (by simp [hit])
  | some old =>
    by_cases unusable : old.hasMessages = true ∧ ctx.fix.isRequested = true
    · refine fresh fun old' hit' => ?_
      rw [hit, Option.some.injEq] at hit'
      exact hit' ▸ unusable
    obtain ⟨e, known, -, -, restored⟩ := lookup_iff.1 hit
    obtain ⟨p, mem, same⟩ := (Sorted.find?_iff _).1 known
    obtain ⟨tidy, source⟩ := entries _ mem
    obtain rfl := tidy.normal.eq (top_normal (by decide)) (Path.compare_eq.1 same).symm
    have decoded : fs.readText (top "b") = .ok "\t" := readText_iff.2 ⟨[9], 1, h.status, text⟩
    rw [Cache.restore, if_pos (source rfl), decoded] at restored
    cases restored
    refine ⟨_, _, .kept known hit fun messages => ?_, tidy.clean.output, rfl⟩
    exact Bool.eq_false_iff.2 fun requested => unusable ⟨messages, requested⟩

theorem fixing_saves (h : fs.HasTab) {fix : FixMode}
    (unfixed : fix = .off ∨ fix = .only Message.fatal) {saved : Cache}
    (before : ∀ bytes, fs.read (top "c") = .ok bytes → Cache.Written CacheEntry.OfTab bytes)
    (saves : ((Call.tabs fs).fixing fix).run.Saves saved) :
    ∃ e, (top "b", e) ∈ saved.entries.entries ∧ e.hadSource = true := by
  let c := ((Call.tabs fs).fixing fix).run
  let task : Task := ⟨0, top "b", false⟩
  have ht : task ∈ c.tasks := List.mem_singleton_self _
  have room : 2 * c.tasks.length < UInt64.size := h.fits.room
  obtain ⟨⟨-, -, -, -, r, ok⟩, place, -⟩ := h.fixing fix
  have ended : c.dispatcher.lintTasks c.tasks c.world = (.ok r, c.answer.2) := Prod.ext ok rfl
  obtain ⟨loaded, run⟩ := Dispatcher.lintTasks_cached rfl room textRules_quiet
    (Nearest.nearest_stable fs) ended
  have strategy := (Cache.load_place run.opened).2
  have entries : loaded.All (CacheEntry.OfTab loaded.strategy) := by
    rw [strategy]
    exact Cache.load_all run.opened (fun _ _ _ known => known.1.small) fun bytes read =>
      before bytes (by rwa [← place])
  have resolved := run.resolved_steady (Nearest.nearest_steady fs _ _ (normal fs)) ht rfl
  let ctx := c.dispatcher.context c.tasks (some loaded)
  have rules : ctx.analyzer = textRules := rfl
  have tabs : (ResolvedConfig.ofConfig tabRules none).config = tabRules := rfl
  obtain ⟨result, signature, gives, output, source⟩ := h.gives rules unfixed entries tabs
  have renews : ctx.Renews loaded ⟨fs, c.answer.2.resolver⟩ task _ :=
    ⟨rfl, _, result, signature, resolved.trans h.resolved, gives, output, rfl⟩
  have key : loaded.keyOf task.path = task.path := by
    rcases Sorted.keyIn_cases task.path loaded.entries.entries with own | ⟨old, mem⟩
    · exact own
    · exact (entries _ mem).1.normal.eq (top_normal (by decide)) (loaded.keyOf_parts task.path).symm
  have there : fs.contains task.path = true := contains_iff.2 ⟨_, h.status⟩
  have distinct : (c.tasks.map fun t => t.path.parts).Nodup := List.nodup_singleton _
  obtain ⟨e, mem, written⟩ := saves.mem run distinct ht key there renews
  exact ⟨e, mem, (CacheEntry.hadSource_of_tree written).trans source⟩

end FileSystem.HasTab

/-- Every cache that a run of a history saves has clean entries only. -/
theorem Runs.clean {runs : List Run} (history : Runs runs) :
    ∀ c ∈ runs, ∃ saved, c.Saves saved ∧ saved.All (CacheEntry.Clean c.strategy) := by
  intro c hc
  obtain ⟨saved, saves, tidy⟩ := history.tidy c hc
  exact ⟨saved, saves, fun e he => (tidy e he).clean⟩

theorem Runs.clean_tabs :
    let first := ((Call.tabs ⟨[(["b"], .file [9] 1)], [], 0⟩).fixing (.only Message.fatal)).run
    let last := ((Call.tabs first.answer.2.files).fixing .off).run
    Runs [last, first] ∧ ∀ c ∈ [last, first], ∃ saved e, c.Saves saved ∧
      saved.All (CacheEntry.Clean .metadata) ∧ (FileSystem.top "b", e) ∈ saved.entries.entries ∧
      e.result.hasMessages = true := by
  intro first last
  have start : FileSystem.HasTab ⟨[(["b"], .file [9] 1)], [], 0⟩ := ⟨rfl, rfl, .inl rfl⟩
  obtain ⟨succeeds, place, bytes, left⟩ := start.fixing (.only Message.fatal)
  have again : first.answer.2.files.HasTab := left ▸ start.set_cache bytes
  obtain ⟨succeeds', place', -⟩ := again.fixing .off
  have none (bytes : Text.Bytes) : first.world.files.read (FileSystem.top "c") ≠ .ok bytes := by
    rw [FileSystem.read, FileSystem.status_top_free (by decide) rfl]
    rintro ⟨⟩
  have opened : Runs [first] :=
    .next .empty succeeds fun bytes read => absurd (place ▸ read) (none bytes)
  obtain ⟨saved, saves, tidy⟩ := opened.tidy first (List.mem_singleton_self _)
  have found : ∀ bytes, last.world.files.read (FileSystem.top "c") = .ok bytes →
      saved.bytes = bytes := by
    intro bytes read
    rw [← place, ← saves.path] at read
    exact (Cache.save_read saves.save read).symm
  have history : Runs [last, first] := .next opened succeeds' fun bytes read =>
    ⟨first, List.mem_singleton_self _, saved, saves, found bytes (place' ▸ read)⟩
  have stored {saved : Cache} (saves : first.Saves saved) :=
    start.fixing_saves (.inr rfl) (fun bytes read => absurd read (none bytes)) saves
  have ofTab : saved.All (CacheEntry.OfTab .metadata) := by
    intro e he
    refine ⟨tidy e he, fun key => ?_⟩
    obtain ⟨e', mem, had⟩ := stored saves
    have same := Sorted.entry_unique he mem (key ▸ Std.ReflCmp.compare_self)
    rwa [same]
  have stored' {saved' : Cache} (saves' : last.Saves saved') :=
    again.fixing_saves (.inl rfl)
      (fun bytes read => ⟨saved, saves.strategy ▸ ofTab, (found bytes read).symm⟩) saves'
  refine ⟨history, fun c hc => ?_⟩
  obtain ⟨saved, saves, clean⟩ := history.clean c hc
  rcases List.mem_pair.1 hc with rfl | rfl
  · obtain ⟨e, mem, had⟩ := stored' saves
    exact ⟨saved, e, saves, clean, mem, (clean _ mem).hadSource ▸ had⟩
  · obtain ⟨e, mem, had⟩ := stored saves
    exact ⟨saved, e, saves, clean, mem, (clean _ mem).hadSource ▸ had⟩

end ParallelLint
