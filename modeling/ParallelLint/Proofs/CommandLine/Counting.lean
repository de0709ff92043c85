import ParallelLint.Proofs.CommandLine.Agreement
import ParallelLint.Proofs.Dispatch.Rerun

set_option autoImplicit false

namespace ParallelLint
open FileSystem Dispatcher

/-- The counts of a result are those of its messages. -/
def LintResult.Counted (r : LintResult) : Prop := r.counts = .ofMessages r.messages

theorem Counts.ofMessages_length (messages : List Message) :
    (ofMessages messages).errors + (ofMessages messages).warnings = messages.length := by
  rw [List.length_eq_countP_add_countP Message.isError]
  simp only [ofMessages, Bool.not_eq_true, Bool.decide_eq_false]

namespace LintResult

theorem Counted.recount {r : LintResult} (h : r.Counted) : r.recount = r := by
  rw [LintResult.recount, ← h]

theorem Counted.length {r : LintResult} (h : r.Counted) :
    r.counts.errors + r.counts.warnings = r.messages.length := by
  rw [h]
  exact Counts.ofMessages_length r.messages

theorem Counted.errors {r : LintResult} (h : r.Counted) :
    r.counts.errors = 0 ↔ ∀ m ∈ r.messages, m.isError = false := by
  rw [h]
  simp [Counts.ofMessages, List.countP_eq_zero]

theorem total_zero {count : Counts → Nat} {results : List LintResult} :
    total count results = 0 ↔ ∀ r ∈ results, count r.counts = 0 := by
  induction results with
  | nil => simp [total]
  | cons r rest ih =>
    rw [List.forall_mem_cons, ← ih]
    exact Nat.add_eq_zero_iff

end LintResult

theorem Context.process_counted {σ : Type} {ctx : Context σ} {world : World σ} {task : Task}
    {outcome : Outcome} {stats : Stats} (rules : ctx.analyzer = textRules)
    (stored : ∀ cache, ctx.cache = some cache → cache.All fun _ e => e.result.Counted)
    (answer : (ctx.process task world).1 = .ok (outcome, stats)) {report : FileReport}
    (reported : outcome.report = some report) : report.result.Counted := by
  rcases process_reports rules answer reported with same | same | ⟨_, same⟩ |
    ⟨cache, key, e, present, mem, restored⟩ | ⟨-, source, config, -, same⟩
  · rw [same]
    rfl
  · rw [same]
    rfl
  · rw [same]
    rfl
  · have kept := Cache.restore_result restored
    have counts : report.result.counts = e.result.counts :=
      congrArg (fun r => r.counts) kept
    have messages : report.result.messages = e.result.messages :=
      congrArg (fun r => r.messages) kept
    rw [LintResult.Counted, counts, messages]
    exact stored cache present _ mem
  · rw [same, withSource]
    split <;> rfl

theorem Dispatcher.lintTasks_counted {σ : Type} {d : Dispatcher σ} {tasks : List Task}
    {world after : World σ} {r : RunReport} (rules : d.analyzer = textRules)
    (stored : d.options.cache = true → ∀ loaded,
      Cache.load world.files (d.cacheFile world.files) d.options.cacheStrategy = .ok loaded →
        loaded.All fun _ e => e.result.Counted)
    (ok : d.lintTasks tasks world = (.ok r, after)) : ∀ result ∈ r.results, result.Counted := by
  intro result hr
  obtain ⟨-, cache, opened, found, ran⟩ := lintTasks_opens ok
  have counted : ∀ loaded, cache = some loaded → loaded.All fun _ e => e.result.Counted := by
    rintro loaded rfl
    rcases openCache_cases found with ⟨wanted, -, c, present, load⟩ | ⟨-, none, -⟩
    · cases present
      exact stored wanted loaded load
    · cases none
  obtain ⟨workers, outcomes, stats, state, gave, closed⟩ :=
    runWorkers_gave (by rw [rules]; exact textRules_quiet) ran
  obtain ⟨report, listed, rfl⟩ := List.mem_map.1 hr
  rw [(conclude_ok closed).1] at listed
  obtain ⟨m, hm, rfl⟩ := List.mem_map.1 listed
  obtain ⟨o, ho, merged⟩ := mem_mergeOutcomes hm
  obtain ⟨report, reported, rfl⟩ := Option.map_eq_some_iff.1 merged
  obtain ⟨t, -, state, stats, answer⟩ := gave o ho
  exact @Context.process_counted _ (d.context tasks cache) _ _ _ _ rules counted answer _ reported

namespace CommandLine

/-- A launch of the program over some files. -/
structure Launch where
  line : List String
  files : FileSystem
  parallelism : Nat
  schedule : List Nat

/-- Some message is about an error. -/
def FindsError (results : List LintResult) : Prop :=
  ∃ r ∈ results, ∃ m ∈ r.messages, m.fatal = true ∨ m.severity = .error

namespace Launch

def ended (l : Launch) : Screen × FileSystem := run l.line l.parallelism l.schedule l.files

def results (l : Launch) : List LintResult :=
  match report? l.line l.parallelism l.schedule l.files with
  | some report => report.results
  | none => []

def dispatcher (l : Launch) (a : Arguments) : Dispatcher Nearest :=
  a.dispatcher l.parallelism l.schedule l.files

def cacheFile (l : Launch) (a : Arguments) : Path := (l.dispatcher a).cacheFile l.files

/-- The bytes are those of the cache that a launch would load. -/
def Finds (l : Launch) (bytes : Text.Bytes) : Prop :=
  ∃ a, Arguments.read l.line = .ok a ∧ a.has .cache = true ∧
    l.files.read (l.cacheFile a) = .ok bytes

/-- The bytes are those of the cache that a launch saves, before it writes any fixed texts. -/
def Saves (l : Launch) (bytes : Text.Bytes) : Prop :=
  ∃ a report files, Arguments.read l.line = .ok a ∧ a.has .cache = true ∧
    outcome a l.parallelism l.schedule l.files = (.ok report, files) ∧
    ∃ saved : Cache, saved.path = l.cacheFile a ∧ saved.save l.files = (.ok (), files) ∧
      saved.bytes = bytes

/-- The cache that a launch finds was saved by an earlier one. With a cache it lints files of less
than 2 to the 63 bytes each. -/
structure Follows (l : Launch) (earlier : List Launch) : Prop where
  found : ∀ bytes, l.Finds bytes → ∃ e ∈ earlier, e.Saves bytes
  small : ∀ a tasks, Arguments.read l.line = .ok a → a.has .cache = true →
    (l.dispatcher a).expand l.files a.patternsOrHere = .ok tasks →
      ∀ t ∈ tasks, ∀ bytes, l.files.read t.path = .ok bytes →
        2 * bytes.length < UInt64.size - 1

end Launch

/-- Launches one after the other, the latest first. Anything may happen to the files in between, but
for the cache files. -/
inductive Launches : List Launch → Prop where
  | empty : Launches []
  | next {l : Launch} {earlier : List Launch} (before : Launches earlier)
      (follows : l.Follows earlier) : Launches (l :: earlier)

namespace Launch
variable {l : Launch} {earlier : List Launch}

theorem Follows.saves (follows : l.Follows earlier)
    (tidy : ∀ bytes, l.Finds bytes → Cache.Written CacheEntry.Tidy bytes) {bytes : Text.Bytes}
    (saves : l.Saves bytes) : Cache.Written CacheEntry.Tidy bytes := by
  obtain ⟨a, report, files, read, wanted, ok, left, place, leaves, rfl⟩ := saves
  obtain ⟨tasks, start, state, expanded, ran⟩ := outcome_ok ok
  let c : Run := ⟨Nearest, l.dispatcher a, tasks, ⟨l.files, start⟩⟩
  have answered : c.answer = (.ok report, ⟨files, state⟩) := ran
  have succeeds : c.Succeeds :=
    { analyzer := rfl
      cache := wanted
      normal := fun t ht plain => expand_normal expanded _ (Context.mem_asked ht plain)
      small := follows.small a tasks read wanted expanded
      ok := ⟨report, congrArg Prod.fst answered⟩ }
  obtain ⟨saved, saves, all⟩ :=
    succeeds.saves fun bytes found => tidy bytes ⟨a, read, wanted, found⟩
  have save := saves.save
  rw [answered] at save
  exact ⟨saved, saves.strategy ▸ all, Cache.save_unique leaves save (place.trans saves.path.symm)⟩

theorem results_ok {a : Arguments} {report : RunReport} {files : FileSystem}
    (read : Arguments.read l.line = .ok a)
    (ok : outcome a l.parallelism l.schedule l.files = (.ok report, files)) :
    l.results = report.results := by
  rw [results, report?, read]
  simp only [ok, Except.toOption]

theorem results_cases {r : LintResult} (hr : r ∈ l.results) :
    ∃ a report files, Arguments.read l.line = .ok a ∧
      outcome a l.parallelism l.schedule l.files = (.ok report, files) ∧ r ∈ report.results := by
  cases read : Arguments.read l.line with
  | error stop =>
    rw [results, report?, read] at hr
    cases hr
  | ok a =>
    cases ran : outcome a l.parallelism l.schedule l.files with
    | mk answer files =>
      cases answer with
      | error causes =>
        rw [results, report?, read] at hr
        simp only [ran, Except.toOption] at hr
        cases hr
      | ok report => exact ⟨a, report, files, rfl, ran, results_ok read ran ▸ hr⟩

theorem counted (tidy : ∀ bytes, l.Finds bytes → Cache.Written CacheEntry.Tidy bytes) :
    ∀ r ∈ l.results, r.Counted := by
  intro r hr
  obtain ⟨a, report, files, read, ok, mem⟩ := results_cases hr
  obtain ⟨tasks, start, state, -, ran⟩ := outcome_ok ok
  refine lintTasks_counted rfl (fun wanted loaded load => ?_) ran r mem
  have entries := Cache.load_all load (fun _ _ _ tidy => tidy.small) fun bytes found =>
    tidy bytes ⟨a, read, wanted, found⟩
  exact fun e he => (entries e he).clean.counts

end Launch

theorem Launches.tidy {launches : List Launch} (history : Launches launches) :
    ∀ l ∈ launches, ∀ bytes, l.Finds bytes ∨ l.Saves bytes →
      Cache.Written CacheEntry.Tidy bytes := by
  -- a launch saves a tidy cache because it finds one, and the one before it because of that
  induction history with
  | empty =>
    intro l hl
    cases hl
  | @next l earlier _ follows ih =>
    intro k hk bytes
    rcases List.mem_cons.1 hk with rfl | hk
    · have tidy : ∀ bytes, k.Finds bytes → Cache.Written CacheEntry.Tidy bytes := by
        intro bytes finds
        obtain ⟨e, he, saved⟩ := follows.found bytes finds
        exact ih e he bytes (.inr saved)
      rintro (finds | saves)
      · exact tidy bytes finds
      · exact follows.saves tidy saves
    · exact ih k hk bytes

theorem screen_code (a : Arguments) (directory : Path) (report : RunReport) :
    (screen a directory report).code = if report.errors = 0 then 0 else 1 := by
  simp only [screen]
  split <;> rfl

theorem Launch.code (l : Launch) : l.ended.1.code = 2 ∨
    l.ended.1.code = if LintResult.total Counts.errors l.results = 0 then 0 else 1 := by
  cases read : Arguments.read l.line with
  | error stop =>
    rw [ended, run, results, report?, read]
    cases stop with
    | refused argument => exact .inl rfl
    | help | longHelp | version => exact .inr rfl
  | ok a =>
    rw [ended, run, read]
    simp only [runWith_outcome]
    cases ran : outcome a l.parallelism l.schedule l.files with
    | mk answer files =>
      cases answer with
      | error causes => exact .inl rfl
      | ok report =>
        rw [results_ok read ran]
        cases written : applyFixes a files report with
        | mk answer left =>
          cases answer with
          | error e => simp only [written]; exact .inl rfl
          | ok _ => simp only [written]; exact .inr (screen_code _ _ _)

theorem findsError_iff {results : List LintResult} (counted : ∀ r ∈ results, r.Counted) :
    FindsError results ↔ LintResult.total Counts.errors results ≠ 0 := by
  rw [Ne, LintResult.total_zero, FindsError]
  push Not
  refine exists_congr fun r => and_congr_right fun hr => ?_
  rw [Ne, (counted r hr).errors]
  push Not
  simp [Message.isError, or_iff_not_imp_left]

/-- A run without fixes on a text right below the root, with the cache beside it. -/
def beside (files : FileSystem) : Call where
  dispatcher := CommandLine.dispatcher
    { Options.standard ⟨"/"⟩ with cache := true, cacheLocation := ⟨"c"⟩ } 1 []
  tasks := [⟨0, top "b", false⟩]
  files
  base := TextRules.defaultConfig
  root := some ⟨"/"⟩

def besideArguments : Arguments :=
  { Arguments.none with patterns := ["b"], switches := [.cache], cacheLocation := some ⟨"c"⟩ }

def Launch.beside (files : FileSystem) : Launch :=
  ⟨["--cache", "--cache-location", "c", "b"], files, 1, []⟩

theorem Launch.beside_read (files : FileSystem) :
    Arguments.read (Launch.beside files).line = .ok besideArguments := rfl

section Beside
variable {fs : FileSystem} {bytes : Text.Bytes} {r : RunReport}

theorem beside_dispatcher (text : fs.HasText bytes) :
    (Launch.beside fs).dispatcher besideArguments = (beside fs).dispatcher := by
  have directory : fs.currentDirectory = ⟨"/"⟩ := by
    rw [currentDirectory, text.root]
    rfl
  change CommandLine.dispatcher (besideArguments.options fs.currentDirectory) 1 [] = _
  rw [directory]
  rfl

theorem beside_expands (text : fs.HasText bytes) :
    (beside fs).dispatcher.expand fs ["b"] = .ok (beside fs).tasks := by
  have selection : Selection.ofOptions (beside fs).dispatcher.options =
      .ok ⟨⟨"/"⟩, [], defaultExtensions, true⟩ := rfl
  rw [expand, selection]
  exact text.expanded

theorem beside_cacheFile (text : fs.HasText bytes) : (beside fs).cacheFile = top "c" :=
  text.cache.locate (by decide)

theorem beside_fits (text : fs.HasText bytes) (short : 2 * bytes.length < UInt64.size - 1) :
    (beside fs).Fits where
  resolver := rfl
  analyzer := rfl
  cache := rfl
  fix := .inl rfl
  room := by
    change 2 * 1 < UInt64.size
    decide
  small t ht read file := by
    have there : fs.read (top "b") = .ok bytes := read_iff.2 ⟨1, text.status⟩
    rw [List.mem_singleton.1 ht] at file
    cases there.symm.trans file
    exact short

theorem beside_ok (text : fs.HasText bytes) : ∃ r saved, (beside fs).answer.1 = .ok r ∧
    (beside fs).left = fs.set ["c"] (.file saved fs.clock) := by
  have room : 2 * (beside fs).tasks.length < UInt64.size := by
    change 2 * 1 < UInt64.size
    decide
  have steady := Nearest.nearest_steady fs (beside fs).base (beside fs).root
    (expand_normal (beside_expands text))
  have answered := fun loaded => @Context.steady_done _ ((beside fs).context loaded)
    (beside fs).start textRules_quiet steady fun t ht =>
      Context.process_answered textRules_total fun _ => by
        rw [List.mem_singleton.1 ht]
        exact ⟨_, text.resolved _⟩
  exact @Dispatcher.lintTasks_top _ (beside fs).dispatcher (beside fs).tasks (beside fs).start rfl
    rfl room textRules_quiet (Nearest.nearest_stable fs) _ (by decide) (beside_cacheFile text)
    text.cache fun loaded => Dispatcher.pool_noError room (answered loaded)

theorem beside_outcome (text : fs.HasText bytes) (ok : (beside fs).answer.1 = .ok r) :
    outcome besideArguments 1 [] fs = (.ok r, (beside fs).left) := by
  have directory : fs.currentDirectory = ⟨"/"⟩ := by
    rw [currentDirectory, text.root]
    rfl
  have ended : (besideArguments.dispatcher 1 [] fs).lintPatterns besideArguments.patternsOrHere
      ⟨fs, .fresh TextRules.defaultConfig
        (some (besideArguments.options fs.currentDirectory).directory)⟩ =
          (.ok r, (beside fs).answer.2) := by
    have expands := beside_expands text
    have ran : (beside fs).dispatcher.lintTasks (beside fs).tasks (beside fs).start =
        (.ok r, (beside fs).answer.2) := Prod.ext ok rfl
    have same : CommandLine.dispatcher (besideArguments.options ⟨"/"⟩) 1 [] =
        (beside fs).dispatcher := rfl
    have patterns : besideArguments.patternsOrHere = ["b"] := rfl
    rw [Arguments.dispatcher, directory, same, lintPatterns, patterns, expands]
    exact ran
  refine outcome_reported (by rfl) ?_ ended
  rw [directory]
  rfl

theorem beside_ended (text : fs.HasText bytes) (ok : (beside fs).answer.1 = .ok r) :
    (Launch.beside fs).ended =
      (screen besideArguments fs.currentDirectory r, (beside fs).left) := by
  rw [Launch.ended, run, Launch.beside_read]
  simp only [runWith_outcome]
  rw [show outcome besideArguments (Launch.beside fs).parallelism (Launch.beside fs).schedule
    (Launch.beside fs).files = _ from beside_outcome text ok]
  rfl

theorem beside_results (text : fs.HasText bytes) (ok : (beside fs).answer.1 = .ok r) :
    (Launch.beside fs).results = r.results :=
  Launch.results_ok (Launch.beside_read fs) (beside_outcome text ok)

theorem beside_follows {earlier : List Launch} (text : fs.HasText bytes)
    (short : 2 * bytes.length < UInt64.size - 1)
    (found : ∀ saved, fs.read (top "c") = .ok saved → ∃ e ∈ earlier, e.Saves saved) :
    (Launch.beside fs).Follows earlier := by
  constructor
  · rintro saved ⟨a, read, -, cached⟩
    cases (Launch.beside_read fs).symm.trans read
    rw [Launch.cacheFile, beside_dispatcher text] at cached
    exact found saved (beside_cacheFile text ▸ cached)
  · intro a tasks read _ expanded
    cases (Launch.beside_read fs).symm.trans read
    rw [beside_dispatcher text] at expanded
    cases (beside_expands text).symm.trans expanded
    exact (beside_fits text short).small

theorem beside_saves (text : fs.HasText bytes) (short : 2 * bytes.length < UInt64.size - 1)
    (ok : (beside fs).answer.1 = .ok r) {saved : Text.Bytes}
    (left : (beside fs).left.read (top "c") = .ok saved) : (Launch.beside fs).Saves saved := by
  obtain ⟨kept, -, place, save⟩ := Call.saves (beside_fits text short) ok
  have here := place.trans (beside_cacheFile text)
  refine ⟨besideArguments, r, _, Launch.beside_read fs, rfl, beside_outcome text ok, kept, ?_, save,
    (Cache.save_read save (here ▸ left)).symm⟩
  rw [Launch.cacheFile, beside_dispatcher text]
  exact place

theorem beside_undisturbed (text : fs.HasText bytes) (free : fs.entry? ["c"] = none)
    {saved : Text.Bytes} (left : (beside fs).left = fs.set ["c"] (.file saved fs.clock)) :
    (beside fs).Undisturbed := by
  have after := text.set_cache saved fs.clock
  have unconfigured {fs : FileSystem} {bytes : Text.Bytes} (text : fs.HasText bytes) :
      fs.status (top ".lintpool.toml") = .error .notFound := status_top_free (by decide) text.bare
  refine ⟨?_, ?_, ?_, ?_⟩ <;> rw [left]
  · intro _ _ p hp
    rw [List.mem_singleton.1 hp]
    exact .inl (after.status.trans text.status.symm)
  · intro p hp q hq
    rw [List.mem_singleton.1 hp, HasTab.candidates] at hq
    rw [List.mem_singleton.1 hq]
    exact Nearest.sameFile_of_status ((unconfigured after).trans (unconfigured text).symm)
  · exact fun p => contains_within (set_within free _)
  · rw [beside_cacheFile text]
    exact ⟨saved, read_iff.2 ⟨_, status_top (by decide) (statusAt_set (by decide) _ _)⟩⟩

theorem beside_spelled : Nearest.SpelledAlike fs (beside fs).paths := by
  intro p hp q hq p' hp' q' hq' _
  rw [List.mem_singleton.1 hp, HasTab.candidates] at hq
  rw [List.mem_singleton.1 hp', HasTab.candidates] at hq'
  rw [List.mem_singleton.1 hq, List.mem_singleton.1 hq']

theorem beside_cached (text : fs.HasText bytes) (short : 2 * bytes.length < UInt64.size - 1)
    (free : fs.entry? ["c"] = none) (ok : (beside fs).answer.1 = .ok r) :
    (beside fs).dispatcher.Cached (beside fs).tasks (beside fs).start (beside fs).answer.2 r
      (.empty (top "c") .metadata) := by
  obtain ⟨loaded, run⟩ := Call.cached (beside_fits text short) ok
  have opened := run.opened
  have place : (beside fs).dispatcher.cacheFile (beside fs).start.files = top "c" :=
    beside_cacheFile text
  rw [place] at opened
  cases (HasText.load_free free).symm.trans opened
  exact run

theorem beside_again (text : fs.HasText bytes) (short : 2 * bytes.length < UInt64.size - 1)
    (free : fs.entry? ["c"] = none) (ok : (beside fs).answer.1 = .ok r) :
    ∃ r', (beside (beside fs).left).answer.1 = .ok r' ∧ r'.files = r.files ∧
      r'.stats.analyzed = 0 := by
  obtain ⟨_, saved, -, left⟩ := beside_ok text
  obtain ⟨r', ok', same, analyzed, -⟩ := @Call.repeated_spelled _ _ _ textRules.analyze 1 []
    (beside_fits text short) (beside_cached text short free ok) (beside_undisturbed text free left) rfl (Cache.all_empty _ _)
    (List.nodup_singleton _) textRules_quiet beside_spelled
  exact ⟨r', ok', same, analyzed⟩

theorem blank_error :
    ∃ m ∈ (TextRules.analyze (top "b") " \n" TextRules.defaultConfig .off).messages,
      m.severity = .error := by
  decide +kernel

theorem beside_finds (text : fs.HasText [32, 10]) (free : fs.entry? ["c"] = none)
    (ok : (beside fs).answer.1 = .ok r) : FindsError r.results := by
  have run := beside_cached text (by decide) free ok
  let task : Task := ⟨0, top "b", false⟩
  let config : ResolvedConfig := .ofConfig TextRules.defaultConfig none
  have ht : task ∈ (beside fs).tasks := List.mem_singleton_self _
  have steady := Nearest.nearest_steady fs (beside fs).base (beside fs).root
    (expand_normal (beside_expands text))
  have resolved : ((beside fs).dispatcher.resolver.resolve fs (beside fs).answer.2.resolver
      task.path).1 = .ok (some config) :=
    (run.resolved_steady steady ht rfl).trans (text.resolved _)
  obtain ⟨shows, -⟩ := Context.process_shows rfl (.inl rfl) (fun _ => by
    rintro cache present config - result found
    cases present
    cases found) (run.done task ht)
  have reported := shows.reported rfl config " \n" resolved
    (Context.readText_iff.2 ⟨[32, 10], 1, text.status, rfl⟩)
  have single (f : Task → Option FileReport) :
      (beside fs).tasks.filterMap f = (f task).toList := by
    cases shown : f task with
    | none => exact List.filterMap_cons_none shown
    | some report => exact List.filterMap_cons_some shown
  have files : r.files = [TextRules.reported (top "b") " \n" config .off] := by
    rw [run.files, single]
    exact congrArg Option.toList reported
  obtain ⟨m, hm, error⟩ := blank_error
  refine ⟨_, List.mem_map_of_mem (files ▸ List.mem_singleton_self _), m, ?_, .inr error⟩
  rw [TextRules.reported, Context.withSource]
  split <;> exact hm

theorem beside_code (text : fs.HasText bytes) (ok : (beside fs).answer.1 = .ok r)
    (truthful : (Launch.beside fs).ended.1.code ≠ 2 →
      ((Launch.beside fs).ended.1.code = 1 ↔ FindsError (Launch.beside fs).results))
    (finds : FindsError r.results) : (Launch.beside fs).ended.1.code = 1 := by
  refine (truthful ?_).2 (beside_results text ok ▸ finds)
  rw [beside_ended text ok, screen_code]
  split <;> decide

end Beside

/-- In a history of launches all results have the counts of their messages. A launch that does not
fail ends with 1 if it finds an error, and with 0 if it finds none. -/
theorem Launches.truthful {launches : List Launch} (history : Launches launches) :
    ∀ l ∈ launches,
      (∀ r ∈ l.results, r.recount = r ∧
        r.counts.errors + r.counts.warnings = r.messages.length) ∧
      (l.ended.1.code ≠ 2 → (l.ended.1.code = 1 ↔ FindsError l.results) ∧
        (l.ended.1.code = 0 ↔ ¬FindsError l.results)) := by
  intro l hl
  have counted : ∀ r ∈ l.results, r.Counted :=
    l.counted fun bytes finds => history.tidy l hl bytes (.inl finds)
  refine ⟨fun r hr => ⟨(counted r hr).recount, (counted r hr).length⟩, fun succeeds => ?_⟩
  have code := l.code.resolve_left succeeds
  rw [findsError_iff counted, code]
  split <;> simp [*]

theorem Launches.truthful_cached :
    let first := Launch.beside Trial.blank
    let last := Launch.beside first.ended.2
    Launches [last, first] ∧ (∃ report, report.stats.analyzed = 0 ∧
        report? last.line last.parallelism last.schedule last.files = some report) ∧
      FindsError last.results ∧ first.ended.1.code = 1 ∧ last.ended.1.code = 1 ∧
      ∀ r ∈ last.results, r.recount = r := by
  dsimp only
  have text : Trial.blank.HasText [32, 10] := Trial.blank_text
  have free : Trial.blank.entry? ["c"] = none := rfl
  obtain ⟨r, saved, ok, left⟩ := beside_ok text
  have cached : (beside Trial.blank).left.HasText [32, 10] := left ▸ text.set_cache saved _
  have again : Launch.beside (Launch.beside Trial.blank).ended.2 =
      Launch.beside (beside Trial.blank).left :=
    congrArg (fun e => Launch.beside e.2) (beside_ended text ok)
  obtain ⟨r', ok', same, analyzed⟩ := beside_again text (by decide) free ok
  have finds : FindsError r.results := beside_finds text free ok
  have finds' : FindsError r'.results := by
    rwa [RunReport.results, same]
  have opened : Launches [Launch.beside Trial.blank] := by
    refine .next .empty (beside_follows text (by decide) fun bytes found => ?_)
    rw [FileSystem.read, status_top_free (by decide) free] at found
    cases found
  have history :
      Launches [Launch.beside (beside Trial.blank).left, Launch.beside Trial.blank] :=
    .next opened (beside_follows cached (by decide) fun bytes found =>
      ⟨_, List.mem_singleton_self _, beside_saves text (by decide) ok found⟩)
  obtain ⟨counts, codes⟩ := history.truthful _ (List.mem_cons_self ..)
  obtain ⟨-, codes'⟩ := history.truthful (Launch.beside Trial.blank)
    (List.mem_cons_of_mem _ (List.mem_singleton_self _))
  have code := beside_code text ok (fun ended => (codes' ended).1) finds
  have code' := beside_code cached ok' (fun ended => (codes ended).1) finds'
  have found : FindsError (Launch.beside (beside Trial.blank).left).results := by
    rwa [beside_results cached ok']
  have reported : report? (Launch.beside (beside Trial.blank).left).line 1 []
      (beside Trial.blank).left = some r' := by
    rw [report?, Launch.beside_read]
    exact congrArg (fun o => o.1.toOption) (beside_outcome cached ok')
  rw [again]
  exact ⟨history, ⟨r', analyzed, reported⟩, found, code, code', fun r hr => (counts r hr).1⟩

end CommandLine

end ParallelLint
