import ParallelLint.Proofs.Cache.RoundTrip
import ParallelLint.Proofs.CommandLine.Trial

set_option autoImplicit false

namespace ParallelLint
open FileSystem Dispatcher

namespace CommandLine.Trial
open Context
variable {t : Trial}

theorem Fits.agrees_failed (fits : t.Fits) {causes causes' : List String} {files : FileSystem}
    (failed : outcome t.arguments t.parallelism t.schedule t.files = (.error causes, files))
    (failed' : outcome t.arguments t.parallelism t.schedule' t.files = (.error causes', files)) :
    t.Agrees := by
  have fixed := fits.fixed_eq
  have tried := fits.tried_eq
  have none := fits.report_fixed
  have none' := fits.report_tried
  rw [failed] at fixed none
  rw [failed'] at tried none'
  have kept : ∀ l, ¬t.IsCache l → files.bytesAt? l = t.files.bytesAt? l := fun l apart =>
    outcome_error fits.tree failed l fun here => apart (.inl here)
  have empty : t.results = [] := by
    rw [results, none]
    rfl
  constructor
  case reports => exact none.trans none'.symm
  case code =>
    rw [fixed, tried]
    rfl
  case screen =>
    intro code
    rw [fixed] at code
    exact absurd rfl code
  case place =>
    rw [fixed, tried]
    exact fun _ => Iff.rfl
  case cache =>
    rw [fixed, tried]
    exact fun _ _ => rfl
  case kept =>
    rw [tried]
    exact kept
  case written =>
    rw [empty]
    rintro _ ⟨⟩
  case others =>
    rw [fixed]
    exact fun l apart _ => kept l apart

theorem Fits.agrees_reported (fits : t.Fits) (writes : t.Writes) (unforged : t.Unforged)
    {report : RunReport} {files : FileSystem}
    (ok : outcome t.arguments t.parallelism t.schedule t.files = (.ok report, files))
    (ok' : outcome t.arguments t.parallelism t.schedule' t.files = (.ok report, files)) :
    t.Agrees := by
  obtain ⟨-, fix⟩ := fits.tryLine_read
  have all : t.dispatcher.options.fix = .all := by
    change (t.arguments.options _).fix = .all
    simp [Arguments.options, fix]
  obtain ⟨tasks, start, state, expanded, ran⟩ : ∃ tasks start state, t.tasks = .ok tasks ∧
      t.dispatcher.lintTasks tasks ⟨t.files, start⟩ = (.ok report, ⟨files, state⟩) := outcome_ok ok
  obtain ⟨n, saved, done⟩ := writes report files ok
  obtain ⟨fixes, written⟩ := @lintTasks_fixes _ t.dispatcher tasks ⟨t.files, start⟩ _ _ rfl all
    fits.tree fits.linkFree unforged ran
  have written := written n saved done
  obtain ⟨-, -, -, -, kept, -⟩ := lintTasks_leaves textRules_quiet fits.tree fits.linkFree ran
  have fixed := fits.fixed_eq
  have tried := fits.tried_eq
  have reported := fits.report_fixed
  have reported' := fits.report_tried
  rw [ok] at fixed reported
  rw [ok'] at tried reported'
  simp only [done] at fixed
  have results : t.results = report.results := by
    rw [results, reported]
    rfl
  have isCache : ∀ l, t.IsCache l ↔ CacheAt t.cacheFile t.files files l := fun l => by
    rw [IsCache, tried]
  have apart : ∀ l, t.IsCache l → ∀ r ∈ report.results, ∀ output, ¬r.Fixes files l output := by
    intro l cache r hr output fixed
    obtain ⟨-, task, ht, plain, located⟩ := fixes.before hr fixed
    exact fits.apart tasks expanded task ht plain l located cache
  constructor
  case reports => exact reported.trans reported'.symm
  case code =>
    rw [fixed, tried]
  case screen =>
    rw [fixed, tried]
    exact fun _ => rfl
  case place =>
    rw [fixed, tried]
    exact written.shape.placeOfEntry t.cacheFile
  case cache =>
    rw [fixed, tried]
    exact fun l cache => written.others l (apart l cache)
  case kept =>
    rw [tried]
    exact fun l none => kept l fun cache => none ((isCache l).2 cache)
  case written =>
    rw [results, fixed]
    intro r hr output some
    obtain ⟨-, -, -, -, l, before, after⟩ := fixes r hr output some
    exact ⟨l, before, written.written r hr l output ⟨some, after.located⟩⟩
  case others =>
    rw [results, fixed]
    intro l none unfixed
    calc saved.bytesAt? l = files.bytesAt? l :=
          written.others l fun r hr output fixed => unfixed r hr output (fixes.before hr fixed).1
      _ = t.files.bytesAt? l := kept l fun cache => none ((isCache l).2 cache)

theorem Fits.agrees (fits : t.Fits) (writes : t.Writes) (unforged : t.Unforged) : t.Agrees := by
  obtain ⟨same, kept⟩ := outcome_scheduled t.schedule' fits.room
  cases first : outcome t.arguments t.parallelism t.schedule t.files with
  | mk answer files =>
  cases second : outcome t.arguments t.parallelism t.schedule' t.files with
  | mk answer' files' =>
  rw [first, second] at same kept
  obtain rfl : files = files' := kept
  cases answer with
  | error causes =>
    cases answer' with
    | error causes' => exact fits.agrees_failed first second
    | ok report => cases same
  | ok report =>
    cases answer' with
    | error causes => cases same
    | ok report' =>
      obtain rfl : report = report' := Option.some.inj same
      exact fits.agrees_reported writes unforged first second

def blank : FileSystem := ⟨[(["b"], .file [32, 10] 1)], [], 0⟩

theorem blank_text : blank.HasText [32, 10] := .single _

theorem blank_output (config : ResolvedConfig) (same : config.config = TextRules.defaultConfig) :
    (TextRules.reported (top "b") " \n" config .all).result.output = some "\n" := by
  rw [TextRules.reported, withSource_output, TextRules.analyze_output _ _ _ .all rfl, same]
  decide

theorem blank_load : Cache.load blank (top "c") .metadata = .ok (.empty (top "c") .metadata) :=
  HasText.load_free rfl

theorem blank_reported : ∃ (r : RunReport) (saved : Cache) (result : LintResult),
    CommandLine.outcome (beside blank).arguments 1 [] blank =
        (.ok r, blank.set ["c"] (.file saved.bytes blank.clock)) ∧
      r.results = [result] ∧ result.path = top "b" ∧ result.output = some "\n" := by
  let ctx := (beside blank).dispatcher.context [⟨0, top "b", false⟩]
    (some (.empty (top "c") .metadata))
  let world : World Nearest := ⟨blank, .fresh TextRules.defaultConfig (some ⟨"/"⟩)⟩
  let config : ResolvedConfig := .ofConfig TextRules.defaultConfig none
  have resolved : (ctx.resolver.resolve world.files world.resolver (top "b")).1 =
      .ok (some config) := blank_text.resolved _
  have all : ctx.fix = .all := congrArg Options.fix blank_text.options
  obtain ⟨⟨o, stats⟩, answer⟩ := @process_answered _ ctx textRules_total ⟨0, top "b", false⟩ world
    fun _ => ⟨_, resolved⟩
  obtain ⟨shows, -⟩ := process_shows rfl (.inr all) (fun _ => by
    rintro cache present config - result found
    cases present
    cases found) answer
  have reported := shows.reported rfl _ " \n" resolved
    (readText_iff.2 ⟨[32, 10], 1, blank_text.status, rfl⟩)
  obtain ⟨r, saved, ok, results⟩ := blank_text.outcome blank_load answer reported
  refine ⟨r, _, _, ok, results, ?_, ?_⟩
  · rw [TextRules.reported, withSource]
    split <;> rfl
  · rw [all]
    exact blank_output _ rfl

theorem Fits.agrees_blank :
    let t := beside blank
    t.Fits ∧ t.Writes ∧ t.Unforged ∧ t.Agrees ∧ t.fixed.2.bytesAt? ["b"] = some [10] ∧
      t.tried.2.bytesAt? ["b"] = some [32, 10] := by
  intro t
  have fits : t.Fits := blank_text.fits
  have unforged : t.Unforged := blank_text.unforged blank_load (Cache.all_empty _ _)
  obtain ⟨r, saved, result, ok, listed, path, output⟩ := blank_reported
  let left := blank.set ["c"] (.file saved.bytes blank.clock)
  have ran : outcome t.arguments t.parallelism t.schedule t.files = (.ok r, left) := ok
  have found : left.entry? ["b"] = some (.file [32, 10] 1) :=
    (get_set_other (by decide) _).trans (statusAt_file.1 blank_text.text).1
  have writes : t.Writes := by
    intro report files ok'
    cases ran.symm.trans ok'
    rw [listed]
    exact ⟨1, _, writeFixes_single output (path ▸ (top_file (by decide) found).1) rfl⟩
  have agrees : t.Agrees := fits.agrees writes unforged
  have results : t.results = [result] := by
    rw [Trial.results, fits.report_fixed, ran]
    exact listed
  obtain ⟨l, there, written⟩ := agrees.written result (results ▸ List.mem_singleton_self _) _ output
  rw [path] at there
  obtain rfl := fits.linkFree.locate_top (by decide) there.located
  refine ⟨fits, writes, unforged, agrees, written, ?_⟩
  exact agrees.kept ["b"] (fits.apart _ blank_text.tasks _ (List.mem_singleton_self _) rfl _
    there.located)

def forgedResult : LintResult := { LintResult.ofMessages (top "c") [] with output := some "boom" }

def forgedEntry : CacheEntry where
  signature := Signature.ofFile .metadata [] 1
  fingerprint := (ResolvedConfig.ofConfig TextRules.defaultConfig none).fingerprint
  result := forgedResult
  hadSource := false

def forgedCache : Cache := ⟨top "c", .metadata, Sorted.empty.insert (top "b") forgedEntry⟩

def forged : FileSystem :=
  ⟨[(["b"], .file [] 1), (["c"], .file forgedCache.bytes 0)], [], 0⟩

theorem forged_text : forged.HasText [] := .pair ..

theorem forged_small : forgedCache.Small := by
  intro e he
  rw [List.mem_singleton.1 he]
  exact ⟨⟨by decide, by rintro n ⟨⟩; decide⟩, ⟨by rintro m ⟨⟩, by rintro m ⟨⟩, by decide, by decide,
    by decide, by decide, by decide⟩⟩

theorem forged_load : Cache.load forged (top "c") .metadata = .ok forgedCache := by
  have read : forged.read (top "c") = .ok forgedCache.bytes :=
    read_iff.2 ⟨0, status_top (by decide) rfl⟩
  have strategy : forgedCache.strategy = .metadata := rfl
  rw [Cache.load_read read, Cache.ofBytes_bytes forged_small, if_pos strategy]
  rfl

theorem bytes_not_boom (c : Cache) : c.bytes ≠ Text.bytesOf "boom" := by
  intro same
  have text := congrArg String.toList (Text.bytesOf_injective same)
  rw [Json.compact, String.toList_ofList] at text
  exact absurd (List.cons.inj text).1 (by decide)

theorem forged_answer :
    ∃ stats, (((beside forged).dispatcher.context [⟨0, top "b", false⟩] (some forgedCache)).process
      ⟨0, top "b", false⟩ ⟨forged, .fresh TextRules.defaultConfig (some ⟨"/"⟩)⟩).1 =
      .ok (⟨0, some ⟨forgedResult, []⟩, some forgedEntry.signature⟩, stats) := by
  let task : Task := ⟨0, top "b", false⟩
  let ctx := (beside forged).dispatcher.context [task] (some forgedCache)
  let config : ResolvedConfig := .ofConfig TextRules.defaultConfig none
  have resolved : (ctx.resolver.resolve forged
      (.fresh TextRules.defaultConfig (some ⟨"/"⟩)) task.path).1 = .ok (some config) :=
    forged_text.resolved _
  have known : forgedCache.entry? (top "b") = some forgedEntry :=
    Sorted.find?_insert_same _ _ Std.ReflCmp.compare_self
  have found : forgedCache.lookup forged (top "b") config.fingerprint = some forgedResult :=
    lookup_iff.2 ⟨forgedEntry, known, rfl, compute_file forged_text.status .metadata, rfl⟩
  have hit : ctx.cached forged task config = some ⟨0, some (ctx.report config forgedResult),
      some forgedEntry.signature⟩ := by
    have present : ctx.cache = some forgedCache := rfl
    have quiet : forgedResult.hasMessages = false := rfl
    simp only [cached, present, task, found, quiet, Bool.false_and, known]
    rfl
  have answer : (ctx.process task ⟨forged, .fresh TextRules.defaultConfig (some ⟨"/"⟩)⟩).1 =
      .ok (⟨0, some (ctx.report config forgedResult), some forgedEntry.signature⟩,
        { Stats.zero with cacheHits := 1 }) := by
    rw [process_plain rfl]
    simp only [resolved, hit]
  exact ⟨_, answer⟩

/-- A cache from elsewhere may hold a fixed text, and for the cache file itself. It is written over
the cache that has just been saved. -/
theorem not_agrees : ¬∀ t : Trial, t.Fits → t.Writes → t.Agrees := by
  intro all
  let t := beside forged
  have fits : t.Fits := forged_text.fits
  obtain ⟨stats, answer⟩ := forged_answer
  obtain ⟨r, saved, ok, listed⟩ := forged_text.outcome forged_load answer rfl
  let left := forged.set ["c"] (.file saved.bytes forged.clock)
  have found : left.entry? ["c"] = some (.file saved.bytes forged.clock) :=
    get_set_same (by decide) _
  have there : left.FileAt forgedResult.path ["c"] := (top_file (by decide) found).1
  have written := @writeFixes_single left ["c"] forgedResult "boom" rfl there rfl
  have ran : outcome t.arguments t.parallelism t.schedule t.files = (.ok r, left) := ok
  have ran' : outcome t.arguments t.parallelism t.schedule' t.files = (.ok r, left) := ok
  have writes : t.Writes := by
    intro report files ok'
    cases ran.symm.trans ok'
    rw [listed]
    exact ⟨1, _, written⟩
  have fixed := fits.fixed_eq
  have tried := fits.tried_eq
  rw [ran] at fixed
  simp only [listed, written] at fixed
  rw [ran'] at tried
  have agrees := all t fits writes
  have same := agrees.cache ["c"] (.inl (forged_text.cacheFile ▸ (top_file (by decide) rfl).2))
  rw [fixed, tried, bytesAt_put_same there.file, bytesAt_iff.2 ⟨_, found⟩] at same
  exact bytes_not_boom saved (Option.some.inj same).symm

end CommandLine.Trial
end ParallelLint
