import ParallelLint.Proofs.Cache.Entries
import ParallelLint.Proofs.Dispatch.Answers
import ParallelLint.Proofs.Dispatch.Settled
import ParallelLint.Proofs.FileSystem.Top

set_option autoImplicit false

/-!
Runs while files are rewritten. A task looks at its file several times, and what it sees may be
another state each time. Still every entry of a cache tells of the bytes that its messages were
found in: they were read with its signature. As long as no two states of a file are signed alike,
the cache never answers for another text than the present one.
-/
namespace ParallelLint
open Context
variable {files : Nat → FileSystem} {analyzer : Analyzer} {linted : List Path}

/-- Every rewrite gives what a path leads to a time that no earlier state of it had, and all times of
it are times from the epoch on that 64 bits can hold. -/
structure FileSystem.Dated (files : Nat → FileSystem) (p : Path) : Prop where
  times : ∀ i s, (files i).status p = .ok s → 0 ≤ s.modified ∧ s.modified < UInt64.size
  fresh : ∀ i, (files (i + 1)).status p = (files i).status p ∨
    ∀ s, (files (i + 1)).status p = .ok s →
      ∀ j ≤ i, ∀ old, (files j).status p = .ok old → old.modified ≠ s.modified

theorem FileSystem.Dated.untouched {p : Path} (dated : Dated files p) {i : Nat} {old new : Status}
    (before : (files i).status p = .ok old) (time : old.modified = new.modified) {n : Nat}
    (after : (files (i + n)).status p = .ok new) :
    ∀ k ≤ n, (files (i + k)).status p = .ok old := by
  induction n with
  | zero =>
    intro k hk
    rw [Nat.le_zero.1 hk]
    exact before
  | succ n ih =>
    rcases dated.fresh (i + n) with same | fresh
    · have kept := ih (same ▸ after)
      intro k hk
      rcases Nat.lt_or_eq_of_le hk with less | rfl
      · exact kept k (Nat.le_of_lt_succ less)
      · exact same.trans (kept n (Nat.le_refl n))
    · exact absurd time (fresh _ after i (Nat.le_add_right ..) _ before)

/-- The signatures tell the states of a file apart: by its times, or because no two of its texts have
the same digest. -/
def Signature.Tells (files : Nat → FileSystem) (p : Path) : CacheStrategy → Prop
  | .metadata => FileSystem.Dated files p
  | .content => ∀ i j bytes bytes', (files i).read p = .ok bytes → (files j).read p = .ok bytes' →
      Blake3.hashHex bytes = Blake3.hashHex bytes' → bytes = bytes'

theorem Signature.readAcross_ok {before after : FileSystem} {p : Path} {strategy : CacheStrategy}
    {bytes : Text.Bytes} {signature : Signature}
    (h : readAcross before after p strategy = .ok (bytes, signature)) :
    after.read p = .ok bytes ∧ ∃ s, before.status p = .ok s ∧
      signature = if strategy = .metadata then ofStatus s else ofBytes bytes.length bytes := by
  unfold readAcross at h
  split at h
  · cases h
  · rename_i s status
    split at h
    · cases h
    · rename_i read
      cases strategy <;> cases h <;> exact ⟨read, s, status, rfl⟩

theorem Signature.timeStamp_eq {modified : Int} (h : 0 ≤ modified ∧ modified < UInt64.size) :
    (timeStamp modified : Int) = modified := by
  have size : (UInt64.size : Int) = 18446744073709551616 := rfl
  have size' : UInt64.size = 18446744073709551616 := rfl
  rw [timeStamp, Nat.mod_eq_of_lt (by omega)]
  omega

theorem Signature.Tells.same_bytes {p : Path} {strategy : CacheStrategy}
    (tells : Tells files p strategy) {s r u : Nat} (order : s ≤ r) (later : r ≤ u)
    {bytes : Text.Bytes} {signature : Signature}
    (read : readAcross (files s) (files r) p strategy = .ok (bytes, signature))
    (computed : compute (files u) p strategy = .ok signature) : (files u).read p = .ok bytes := by
  obtain ⟨bytes_read, old, before, signed⟩ := readAcross_ok read
  cases strategy with
  | content =>
    obtain ⟨current, modified, now, signed'⟩ := compute_content.1 computed
    have here : (files u).read p = .ok current := FileSystem.read_iff.2 ⟨modified, now⟩
    have hash : Blake3.hashHex bytes = Blake3.hashHex current :=
      Option.some.inj (congrArg Signature.hash (signed.symm.trans signed'))
    rw [here, tells r u _ _ bytes_read here hash]
  | metadata =>
    obtain ⟨current, now, signed'⟩ := compute_metadata.1 computed
    have dated : FileSystem.Dated files p := tells
    have stamp : timeStamp old.modified = timeStamp current.modified :=
      Option.some.inj (congrArg Signature.modified (signed.symm.trans signed'))
    have time : old.modified = current.modified :=
      calc old.modified = timeStamp old.modified := (timeStamp_eq (dated.times _ _ before)).symm
        _ = timeStamp current.modified := by rw [stamp]
        _ = current.modified := timeStamp_eq (dated.times _ _ now)
    obtain ⟨n, rfl⟩ := Nat.exists_eq_add_of_le (order.trans later)
    obtain ⟨k, rfl⟩ := Nat.exists_eq_add_of_le order
    have kept := dated.untouched before time now
    rw [FileSystem.read, kept k (by omega)] at bytes_read
    rwa [FileSystem.read, kept n (Nat.le_refl n)]

/-- The result of an analysis of the bytes, apart from the source. -/
def Analyzer.Computes (a : Analyzer) (path : Path) (bytes : Text.Bytes) (result : LintResult) :
    Prop :=
  ∃ request fs found, request.path.parts = path.parts ∧
    Text.decode bytes = .ok request.source ∧ (a.analyze request fs).1 = .ok found ∧
    { result with source := none } = { found with source := none }

def CacheEntry.Vouched (files : Nat → FileSystem) (analyzer : Analyzer) (linted : List Path)
    (strategy : CacheStrategy) (now : Nat) (key : Path) (e : CacheEntry) : Prop :=
  ∃ p ∈ linted, p.parts = key.parts ∧ ∃ s r bytes, s ≤ r ∧ r ≤ now ∧
    Signature.readAcross (files s) (files r) p strategy = .ok (bytes, e.signature) ∧
    analyzer.Computes p bytes e.result

namespace CacheEntry.Vouched
variable {strategy : CacheStrategy} {now : Nat} {key : Path} {e : CacheEntry}

theorem later (h : Vouched files analyzer linted strategy now key e) {after : Nat}
    (le : now ≤ after) : Vouched files analyzer linted strategy after key e := by
  obtain ⟨p, hp, parts, s, r, bytes, order, before, rest⟩ := h
  exact ⟨p, hp, parts, s, r, bytes, order, before.trans le, rest⟩

theorem holds (h : Vouched files analyzer linted strategy now key e) :
    Cache.Holds (Vouched files analyzer linted strategy now) key e := by
  refine ⟨h, fun other _ _ same => ?_⟩
  obtain ⟨p, hp, parts, rest⟩ := h
  exact ⟨p, hp, parts.trans same.symm, rest⟩

end CacheEntry.Vouched

theorem Cache.storable_signed {tasks : List Task} {m : Merged} {task t : Task}
    {signature : Signature} (h : storable? tasks m = some (task, signature))
    (there : tasks[m.index]? = some t) : task = t ∧ m.signature = some signature := by
  unfold storable? at h
  split at h
  · rename_i signed found
    split at h
    · cases h
    · cases h
      rw [there] at found
      cases found
      exact ⟨rfl, signed⟩
  · cases h

theorem Cache.restore_result {fs : FileSystem} {path : Path} {e : CacheEntry} {result : LintResult}
    (h : restore fs path e = some result) :
    { result with source := none } = { e.result with source := none } := by
  unfold restore at h
  split at h
  · split at h <;> cases h
    rfl
  · cases h
    rfl

/-- What a task sees at moments of its own in a span of time. -/
def Moments.Within (files : Nat → FileSystem) (see : Moments) (opened closed : Nat) : Prop :=
  ∃ resolving lookup status reading analysis, opened ≤ resolving ∧ resolving ≤ lookup ∧
    lookup ≤ status ∧ status ≤ reading ∧ reading ≤ analysis ∧ analysis ≤ closed ∧
    see = ⟨files resolving, files lookup, files status, files reading, files analysis⟩

namespace Context
variable {σ : Type} {ctx : Context σ} {task : Task} {see : Moments} {state : σ} {outcome : Outcome}
  {stats : Stats} {cache : Cache} {opened closed : Nat}

theorem readSource_across (present : ctx.cache = some cache) {path : Path} {source : String}
    {signed : Option Signature} (h : ctx.readSource see path = .ok (source, signed)) :
    ∃ bytes signature,
      Signature.readAcross see.status see.reading path cache.strategy = .ok (bytes, signature) ∧
      Text.decode bytes = .ok source ∧ signed = some signature := by
  simp only [readSource, present] at h
  split at h
  · cases h
  · rename_i bytes signature read
    split at h <;> rename_i decoded <;> cases h
    exact ⟨bytes, signature, read, decoded, rfl⟩

theorem analyzed_vouched (present : ctx.cache = some cache) (analyzes : ctx.analyzer = analyzer)
    (listed : task.path ∈ linted) (within : see.Within files opened closed)
    {config : ResolvedConfig} (answer : (ctx.analyzed task config see).1 = .ok (outcome, stats))
    {report : FileReport} {signature : Signature} (reported : outcome.report = some report)
    (signed : outcome.signature = some signature) (fingerprint : Fingerprint) :
    CacheEntry.Vouched files analyzer linted cache.strategy closed task.path
      (Cache.entryOf signature fingerprint report.result) := by
  obtain ⟨_, _, status, reading, last, -, -, -, order, reads, ends, rfl⟩ := within
  unfold analyzed at answer
  split at answer
  · cases answer
    cases signed
  rename_i source signed' read
  obtain ⟨bytes, s, across, text, rfl⟩ := readSource_across present read
  split at answer
  · cases answer
  rename_i found _ done
  cases answer
  cases reported
  cases signed
  have computes : analyzer.Computes task.path bytes (withSource found source) := by
    refine ⟨⟨task.path, source, config, ctx.fix⟩, files last, found, rfl, text, ?_, ?_⟩
    · rw [← analyzes]
      exact congrArg Prod.fst done
    · unfold withSource
      split <;> rfl
  exact ⟨task.path, listed, rfl, status, reading, bytes, order, reads.trans ends, across, computes⟩

theorem cached_vouched (present : ctx.cache = some cache) {fs : FileSystem}
    (entries : cache.All (CacheEntry.Vouched files analyzer linted cache.strategy opened))
    {config : ResolvedConfig} (hit : ctx.cached fs task config = some outcome)
    {report : FileReport} {signature : Signature} (reported : outcome.report = some report)
    (signed : outcome.signature = some signature) (fingerprint : Fingerprint) :
    CacheEntry.Vouched files analyzer linted cache.strategy opened task.path
      (Cache.entryOf signature fingerprint report.result) := by
  obtain ⟨cache', result, s, present', found, -, computed, rfl⟩ := cached_ok hit
  rw [present] at present'
  cases present'
  cases reported
  cases signed
  obtain ⟨e, known, -, computed', restored⟩ := lookup_iff.1 found
  rw [computed] at computed'
  cases computed'
  obtain ⟨key, mem, same⟩ := (Sorted.find?_iff _).1 known
  obtain ⟨p, hp, parts, s, r, bytes, order, before, read, request, fs', found', rest⟩ :=
    entries _ mem
  refine ⟨p, hp, parts.trans (Path.compare_eq.1 same).symm, s, r, bytes, order, before, read,
    request, fs', found', rest.1, rest.2.1, rest.2.2.1, ?_⟩
  rw [← rest.2.2.2, ← Cache.restore_result restored]
  rfl

theorem processAcross_vouched (present : ctx.cache = some cache) (analyzes : ctx.analyzer = analyzer)
    (listed : task.path ∈ linted) (within : see.Within files opened closed)
    (entries : cache.All (CacheEntry.Vouched files analyzer linted cache.strategy opened))
    (answer : (ctx.processAcross task see state).1 = .ok (outcome, stats)) {report : FileReport}
    {signature : Signature} (reported : outcome.report = some report)
    (signed : outcome.signature = some signature) (fingerprint : Fingerprint) :
    CacheEntry.Vouched files analyzer linted cache.strategy closed task.path
      (Cache.entryOf signature fingerprint report.result) := by
  unfold processAcross at answer
  split at answer
  · split at answer <;> cases answer <;> cases signed
  split at answer
  · cases answer
  · cases answer
    cases signed
  · split at answer
    · rename_i hit
      cases answer
      obtain ⟨_, _, _, _, _, opens, a, b, c, d, closes, -⟩ := within
      exact (cached_vouched present entries hit reported signed fingerprint).later (by omega)
    · exact analyzed_vouched present analyzes listed within answer reported signed fingerprint

end Context

/-- What caches there may be at a time: empty ones, those that a run has brought up to date, and
those that are loaded from a file in which such a cache was saved. Other writes to the linted files
may come at any moment. -/
inductive Kept (files : Nat → FileSystem) (analyzer : Analyzer) (linted : List Path) :
    Nat → Cache → Prop
  | empty {now : Nat} {c : Cache} (none : c.entries = .empty) : Kept files analyzer linted now c
  | later {now after : Nat} {c : Cache} (before : Kept files analyzer linted now c)
      (le : now ≤ after) : Kept files analyzer linted after c
  | run {σ : Type} {ctx : Context σ} {opened closed : Nat} {loaded : Cache}
      {outcomes : List Outcome} {state : σ} (before : Kept files analyzer linted opened loaded)
      (span : opened ≤ closed) (uses : ctx.cache = some loaded) (analyzes : ctx.analyzer = analyzer)
      (numbered : Task.misnumbered? ctx.tasks = none) (listed : ∀ t ∈ ctx.tasks, t.path ∈ linted)
      (processed : ∀ o ∈ outcomes, ∃ t ∈ ctx.tasks, ∃ see : Moments, ∃ state stats,
        see.Within files opened closed ∧ (ctx.processAcross t see state).1 = .ok (o, stats)) :
      Kept files analyzer linted closed
        (loaded.reconcile ctx.resolver (files closed) ctx.tasks
          (mergeOutcomes outcomes ctx.tasks.length) state).2.1
  | reload {now : Nat} {c : Cache} (before : Kept files analyzer linted now c) (small : c.Small)
      (path : Path) (strategy : CacheStrategy) :
      Kept files analyzer linted now (Cache.ofBytes path strategy c.bytes)

theorem Cache.reconcile_vouched {σ : Type} {ctx : Context σ} {opened closed : Nat} {loaded : Cache}
    {outcomes : List Outcome}
    (entries : loaded.All (CacheEntry.Vouched files analyzer linted loaded.strategy opened))
    (span : opened ≤ closed) (uses : ctx.cache = some loaded) (analyzes : ctx.analyzer = analyzer)
    (numbered : Task.misnumbered? ctx.tasks = none) (listed : ∀ t ∈ ctx.tasks, t.path ∈ linted)
    (processed : ∀ o ∈ outcomes, ∃ t ∈ ctx.tasks, ∃ see : Moments, ∃ state stats,
      see.Within files opened closed ∧ (ctx.processAcross t see state).1 = .ok (o, stats))
    (fs : FileSystem) (state : σ) :
    let after := (loaded.reconcile ctx.resolver fs ctx.tasks
      (mergeOutcomes outcomes ctx.tasks.length) state).2.1
    after.All (CacheEntry.Vouched files analyzer linted after.strategy closed) := by
  have new : ∀ m ∈ mergeOutcomes outcomes ctx.tasks.length, ∀ task signature,
      storable? ctx.tasks m = some (task, signature) → ∀ s, True → ∀ config,
        (ctx.resolver.resolve fs s task.path).1 = .ok (some config) →
          Holds (CacheEntry.Vouched files analyzer linted loaded.strategy closed) task.path
            (entryOf signature config.fingerprint m.report.result) := by
    intro m hm task signature wanted _ _ config _
    obtain ⟨o, ho, merged⟩ := mem_mergeOutcomes hm
    obtain ⟨report, reported, rfl⟩ := Option.map_eq_some_iff.1 merged
    obtain ⟨t, ht, see, s, stats, within, answer⟩ := processed o ho
    have index : ctx.tasks[o.index]? = some t := by
      obtain ⟨i, there⟩ := List.mem_iff_getElem?.1 ht
      rw [processAcross_index answer, Task.index_eq numbered there, there]
    obtain ⟨rfl, signed⟩ := storable_signed wanted index
    exact (processAcross_vouched uses analyzes (listed _ ht) within entries answer reported signed
      config.fingerprint).holds
  obtain ⟨all, -, strategy⟩ := @All.storeAll _ _ _ _ _ (fun _ => True) _
    (fun _ _ _ _ _ => trivial) new ⟨loaded, 0, state⟩ (fun e he => (entries e he).later span) trivial
  simp only [reconcile]
  revert all strategy
  cases storeAll ctx.resolver fs ctx.tasks ⟨loaded, 0, state⟩
      (mergeOutcomes outcomes ctx.tasks.length) with
  | mk answer s =>
    intro all strategy
    rw [← strategy] at all
    cases answer with
    | error e => exact all
    | ok => exact all.prune fs

theorem Kept.vouched {now : Nat} {c : Cache} (h : Kept files analyzer linted now c) :
    c.All (CacheEntry.Vouched files analyzer linted c.strategy now) := by
  -- time only widens the span in which the bytes may have been read
  induction h with
  | empty none =>
    intro e he
    rw [none] at he
    cases he
  | later _ le ih => exact fun e he => (ih e he).later le
  | run _ span uses analyzes numbered listed processed ih =>
    exact Cache.reconcile_vouched ih span uses analyzes numbered listed processed _ _
  | reload _ small path strategy ih =>
    rw [Cache.ofBytes_bytes small]
    split
    · rename_i same
      subst same
      exact ih
    · exact Cache.all_empty _ _

theorem Cache.lookup_vouched {opened now : Nat} {c : Cache}
    (entries : c.All (CacheEntry.Vouched files analyzer linted c.strategy opened))
    (tells : ∀ p ∈ linted, Signature.Tells files p c.strategy) (later : opened ≤ now) {path : Path}
    {config : Fingerprint} {result : LintResult}
    (hit : c.lookup (files now) path config = some result) :
    ∃ bytes, (files now).read path = .ok bytes ∧ analyzer.Computes path bytes result := by
  obtain ⟨e, known, -, computed, restored⟩ := lookup_iff.1 hit
  obtain ⟨key, mem, same⟩ := (Sorted.find?_iff _).1 known
  obtain ⟨p, hp, parts, s, r, bytes, order, before, read, computes⟩ := entries _ mem
  have alike : path.parts = p.parts :=
    calc path.parts = key.parts := Path.compare_eq.1 same
      _ = p.parts := parts.symm
  have status : (files now).status p = (files now).status path := by
    obtain ⟨current, status⟩ := compute_status computed
    have file := FileSystem.isFile_of_read (Signature.readAcross_ok read).1
    rw [status, FileSystem.status_sameParts alike status file]
  -- the entry may be known by another spelling, which leads to the same file
  have computed' := (compute_same status c.strategy).trans computed
  have present := (tells p hp).same_bytes order (before.trans later) read computed'
  rw [FileSystem.read, status] at present
  obtain ⟨request, fs, found, parts', text, done, result_eq⟩ := computes
  refine ⟨bytes, present, request, fs, found, parts'.trans alike.symm, text, done, ?_⟩
  rw [Cache.restore_result restored, result_eq]

theorem Dispatcher.lintTasks_kept {σ : Type} {d : Dispatcher σ} {tasks : List Task}
    {world after : World σ} {r : RunReport} {now : Nat} (wanted : d.options.cache = true)
    (room : 2 * tasks.length < UInt64.size) (quiet : d.analyzer.Quiet)
    (stable : d.resolver.Stable world.files) (present : files now = world.files)
    (listed : ∀ t ∈ tasks, t.path ∈ linted)
    (found : ∀ loaded, Cache.load world.files (d.cacheFile world.files) d.options.cacheStrategy =
      .ok loaded → Kept files d.analyzer linted now loaded)
    (ok : d.lintTasks tasks world = (.ok r, after)) :
    ∃ saved : Cache, Kept files d.analyzer linted now saved ∧
      saved.save world.files = (.ok (), after.files) := by
  obtain ⟨numbered, loaded, load, none, ran⟩ := lintTasks_ran wanted ok
  obtain ⟨workers, asked, -, -, -, done, ended⟩ :=
    runWorkers_finished numbered room quiet stable none
  let ctx := d.context tasks (some loaded)
  let state := d.resolver.after world.files world.resolver asked
  have indexed : ∀ t ∈ tasks, (ctx.done ⟨world.files, state⟩ t).1.index = t.index :=
    fun t ht => process_index (done t ht)
  have run := @Kept.run files d.analyzer linted σ ctx now now loaded
    (tasks.map fun t => (ctx.done ⟨world.files, state⟩ t).1) state (found loaded load) le_rfl rfl rfl
    numbered listed fun o ho => by
      obtain ⟨t, ht, rfl⟩ := List.mem_map.1 ho
      refine ⟨t, ht, .still world.files, state, _, ?_, done t ht⟩
      rw [← present]
      exact ⟨now, now, now, now, now, le_rfl, le_rfl, le_rfl, le_rfl, le_rfl, le_rfl, rfl⟩
  rw [present] at run
  rw [ran, ← mergeOutcomes_map numbered indexed] at ended
  simp only [conclude, closeCache] at ended
  change Kept files d.analyzer linted now (loaded.reconcile d.resolver world.files tasks
    (mergeOutcomes _ tasks.length) state).2.1 at run
  revert ended run
  cases loaded.reconcile d.resolver world.files tasks _ state with
  | mk answer rest =>
    obtain ⟨saved, last⟩ := rest
    cases answer with
    | error e => rintro ⟨⟩
    | ok changes =>
      simp only
      cases saves : saved.save world.files with
      | mk answer files' =>
        cases answer with
        | error e => rintro ⟨⟩
        | ok =>
          rintro ⟨⟩ kept
          exact ⟨saved, kept, saves⟩

/-- A cache never answers for another text than the present one, whenever its entries were stored and
whatever was written meanwhile. -/
theorem Kept.lookup_present {opened now : Nat} {c : Cache} (h : Kept files analyzer linted opened c)
    (tells : ∀ p ∈ linted, Signature.Tells files p c.strategy) (later : opened ≤ now) {path : Path}
    {config : Fingerprint} {result : LintResult}
    (hit : c.lookup (files now) path config = some result) :
    ∃ bytes, (files now).read path = .ok bytes ∧ analyzer.Computes path bytes result :=
  c.lookup_vouched h.vouched tells later hit

theorem Dispatcher.lintTasks_present {σ : Type} {d : Dispatcher σ} {tasks : List Task}
    {world after : World σ} {r : RunReport} {opened : Nat} (wanted : d.options.cache = true)
    (room : 2 * tasks.length < UInt64.size) (quiet : d.analyzer.Quiet)
    (stable : d.resolver.Stable world.files) (present : files opened = world.files)
    (listed : ∀ t ∈ tasks, t.path ∈ linted)
    (found : ∀ loaded, Cache.load world.files (d.cacheFile world.files) d.options.cacheStrategy =
      .ok loaded → Kept files d.analyzer linted opened loaded)
    (ok : d.lintTasks tasks world = (.ok r, after)) :
    ∃ saved : Cache, saved.save world.files = (.ok (), after.files) ∧
      ((∀ p ∈ linted, Signature.Tells files p saved.strategy) →
        ∀ now ≥ opened, ∀ path config result,
          saved.lookup (files now) path config = some result →
            ∃ bytes, (files now).read path = .ok bytes ∧
              d.analyzer.Computes path bytes result) := by
  obtain ⟨saved, kept, saves⟩ :=
    lintTasks_kept wanted room quiet stable present listed found ok
  exact ⟨saved, saves, fun tells _ later _ _ _ hit => saved.lookup_vouched kept.vouched tells later hit⟩

/-- An empty file gets a tab. -/
def rewritten : Nat → FileSystem
  | 0 => ⟨[(["b"], .file [] 1)], [], 0⟩
  | _ + 1 => ⟨[(["b"], .file [9] 2)], [], 0⟩

theorem rewritten_first : (rewritten 0).status (FileSystem.top "b") = .ok (.file [] 1) :=
  FileSystem.status_top (by decide) rfl

theorem rewritten_then (n : Nat) :
    (rewritten (n + 1)).status (FileSystem.top "b") = .ok (.file [9] 2) :=
  FileSystem.status_top (by decide) rfl

theorem rewritten_dated : FileSystem.Dated rewritten (FileSystem.top "b") where
  times
    | 0, s, status => by
      rw [rewritten_first] at status
      cases status
      decide
    | n + 1, s, status => by
      rw [rewritten_then] at status
      cases status
      decide
  fresh
    | 0 => by
      refine .inr fun s status j hj old status' => ?_
      rw [rewritten_then] at status
      rw [Nat.le_zero.1 hj, rewritten_first] at status'
      cases status
      cases status'
      decide
    | n + 1 => .inl rfl

def noTabs : ResolvedConfig := .ofConfig (Config.empty.withRule "no-tabs" (.plain .error)) none

def tabbed : Context Unit where
  tasks := [⟨0, FileSystem.top "b", false⟩]
  resolver := .single noTabs
  analyzer := textRules
  cache := some (.empty ⟨"c"⟩ .metadata)
  fix := .off
  warnIgnored := true

theorem Kept.lookup_present_rewritten :
    ∃ c result, Kept rewritten textRules [FileSystem.top "b"] 3 c ∧
      (∀ p ∈ [FileSystem.top "b"], Signature.Tells rewritten p c.strategy) ∧
      c.lookup (rewritten 4) (FileSystem.top "b") noTabs.fingerprint = some result ∧
      result.hasMessages = true ∧ ∃ bytes, (rewritten 4).read (FileSystem.top "b") = .ok bytes ∧
        textRules.Computes (FileSystem.top "b") bytes result := by
  let path := FileSystem.top "b"
  let signature : Signature := ⟨1, some 2, none⟩
  let report := tabbed.report noTabs (withSource (TextRules.analyze path "\t" noTabs.config .off) "\t")
  let outcome : Outcome := ⟨0, some report, some signature⟩
  let see : Moments := ⟨rewritten 0, rewritten 1, rewritten 1, rewritten 2, rewritten 2⟩
  let loaded : Cache := .empty ⟨"c"⟩ .metadata
  let e : CacheEntry := Cache.entryOf signature noTabs.fingerprint report.result
  let c : Cache := loaded.store path signature noTabs.fingerprint report.result
  have answer : (tabbed.processAcross ⟨0, path, false⟩ see ()).1 =
      .ok (outcome, { Stats.zero with analyzed := 1 }) := by
    have resolved : tabbed.resolver.resolve see.resolving () path = (.ok (some noTabs), ()) := rfl
    have unknown : tabbed.cached see.lookup ⟨0, path, false⟩ noTabs = none := rfl
    have read : tabbed.readSource see path = .ok ("\t", some signature) := by
      simp only [readSource, tabbed, see, path, Signature.readAcross, FileSystem.read,
        rewritten_then]
      rfl
    simp only [processAcross, Bool.false_eq_true, if_false, resolved, unknown, analyzed, read]
    rfl
  have here : (rewritten 3).contains path = true := by
    rw [FileSystem.contains, rewritten_then]
    rfl
  have pruned : c.prune (rewritten 3) = c := by
    refine congrArg (Cache.mk c.path c.strategy) (Sorted.ext (List.filter_eq_self.2 fun f hf => ?_))
    rw [List.mem_singleton.1 hf]
    exact here
  have kept : Kept rewritten textRules [path] 3 c := by
    have run := @Kept.run rewritten textRules [path] Unit tabbed 0 3 loaded [outcome] ()
      (.empty rfl) (by decide) rfl rfl rfl (by simp [tabbed, path]) fun o ho =>
        ⟨⟨0, path, false⟩, List.mem_singleton_self _, see, (), _, ⟨0, 1, 1, 2, 2, by decide,
          by decide, by decide, by decide, by decide, by decide, rfl⟩,
          List.mem_singleton.1 ho ▸ answer⟩
    have merged : mergeOutcomes [outcome] tabbed.tasks.length =
        [⟨0, report, some signature⟩] := rfl
    have stored : Cache.storeAll tabbed.resolver (rewritten 3) tabbed.tasks ⟨loaded, 0, ()⟩
        [⟨0, report, some signature⟩] = (.ok (), ⟨c, 1, ()⟩) := rfl
    rw [merged, Cache.reconcile, stored] at run
    simpa only [pruned] using run
  have hit : c.lookup (rewritten 4) path noTabs.fingerprint = some report.result := by
    have known : c.entry? path = some e := Sorted.find?_insert_same _ _ Std.ReflCmp.compare_self
    have strategy : c.strategy = .metadata := rfl
    have computed : Signature.compute (rewritten 4) path .metadata = .ok signature := by
      rw [Signature.compute, rewritten_then]
      rfl
    have trusted : (decide (signature = e.signature) &&
        decide (e.fingerprint = noTabs.fingerprint)) = true := by
      simp [e, Cache.entryOf]
    have text : (rewritten 4).readText path = .ok "\t" :=
      readText_iff.2 ⟨[9], 2, rewritten_then 3, rfl⟩
    have source : e.hadSource = true := rfl
    rw [Cache.lookup, known, strategy]
    simp only [computed, trusted, if_true, Cache.restore, source, text]
    rfl
  have tells : ∀ p ∈ [path], Signature.Tells rewritten p c.strategy := fun p hp =>
    List.mem_singleton.1 hp ▸ rewritten_dated
  exact ⟨c, report.result, kept, tells, hit, rfl, kept.lookup_present tells (by decide) hit⟩

end ParallelLint
