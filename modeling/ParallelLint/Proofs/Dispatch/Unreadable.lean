import ParallelLint.Proofs.Dispatch.Answers
import ParallelLint.Proofs.FileSystem.Top

set_option autoImplicit false

namespace ParallelLint
variable {σ : Type}

/-- What becomes of a task whose file cannot be read. -/
def Task.unread (task : Task) (e : FileError) : Outcome :=
  ⟨task.index, some (LintResult.readFailure task.path e).alone, none⟩

theorem Task.unread_message {task : Task} {e e' : FileError}
    (same : (task.unread e).report = (task.unread e').report) : e.message = e'.message := by
  have messages := congrArg (fun r : FileReport => r.result.messages) (Option.some.inj same)
  have text := congrArg Message.text (List.cons.inj messages).1
  exact (String.append_right_inj _).1 text

theorem head_append {a b : String} {c : Char} (first : a.toList.head? = some c) :
    (a ++ b).toList.head? = some c := by
  rw [String.toList_append, List.head?_append, first]
  rfl

theorem Text.DecodeError.message_placed (fault : DecodeError) :
    fault.message ≠ FileSystem.notUtf8.message := by
  have first : fault.message.toList.head? = some 'i' := by
    have incomplete : "incomplete utf-8 byte sequence from index ".toList.head? = some 'i' := by
      decide
    have invalid : "invalid utf-8 sequence of ".toList.head? = some 'i' := by decide
    obtain ⟨start, length⟩ := fault
    cases length with
    | none => exact head_append incomplete
    | some length => exact head_append (head_append (head_append invalid))
  intro same
  rw [same] at first
  exact absurd first (by decide)

namespace Context
variable {ctx : Context σ} {cache : Cache} {task : Task} {world : World σ} {fs : FileSystem}
  {path : Path}

/-- With another cache, or without one. -/
def under (ctx : Context σ) (cache : Option Cache) : Context σ := { ctx with cache }

/-- The task has a configuration, so that its file is looked at. -/
def Reads (ctx : Context σ) (task : Task) (world : World σ) : Prop :=
  task.ignored = false ∧
    ∃ config, (ctx.resolver.resolve world.files world.resolver task.path).1 = .ok (some config)

theorem readSource_failed {e : FileError} (failed : fs.read path = .error e) :
    ctx.readSource (.still fs) path = .error e := by
  unfold FileSystem.read at failed
  cases cached : ctx.cache with
  | none =>
    rw [readSource_uncached cached, FileSystem.readText, FileSystem.read]
    cases status : fs.status path with
    | error e' => rw [status] at failed; cases failed; rfl
    | ok entry => rw [status] at failed; cases entry <;> cases failed <;> rfl
  | some cache =>
    rw [readSource_cached cached]
    cases status : fs.status path with
    | error e' => rw [status] at failed; cases failed; rfl
    | ok entry => rw [status] at failed; cases entry <;> cases failed <;> rfl

section Malformed
variable {bytes : Text.Bytes} {fault : Text.DecodeError}

theorem readSource_unplaced (uncached : ctx.cache = none) (read : fs.read path = .ok bytes)
    (broken : Text.decode bytes = .error fault) :
    ctx.readSource (.still fs) path = .error FileSystem.notUtf8 := by
  rw [readSource_uncached uncached, FileSystem.readText, read]
  simp only [broken]
  rfl

theorem readSource_placed (cached : ctx.cache = some cache) (read : fs.read path = .ok bytes)
    (broken : Text.decode bytes = .error fault) :
    ctx.readSource (.still fs) path = .error (.described .invalidData fault.message) := by
  obtain ⟨modified, status⟩ := FileSystem.read_iff.1 read
  rw [readSource_cached cached, status]
  simp only [broken]

end Malformed

theorem cached_unknown (unknown : cache.entry? task.path = none) (config : ResolvedConfig) :
    (ctx.under (some cache)).cached fs task config = none := by
  simp only [cached, under, Cache.lookup, unknown]

theorem process_under (idle : ¬ctx.Reads task world) (a b : Option Cache) :
    (ctx.under a).process task world = (ctx.under b).process task world := by
  simp only [process, processAcross, under, Moments.still]
  cases ignored : task.ignored with
  | true => rfl
  | false =>
    cases found : ctx.resolver.resolve world.files world.resolver task.path with
    | mk answer state =>
      cases answer with
      | error e => rfl
      | ok config? =>
        cases config? with
        | none => rfl
        | some config => exact absurd ⟨ignored, config, by rw [found]⟩ idle

theorem process_unread (cache : Option Cache) (reads : ctx.Reads task world)
    (missed : ∀ config, (ctx.under cache).cached world.files task config = none) {e : FileError}
    (failed : (ctx.under cache).readSource (.still world.files) task.path = .error e) :
    (ctx.under cache).process task world = (.ok (task.unread e, .zero),
      ⟨world.files, (ctx.resolver.resolve world.files world.resolver task.path).2⟩) := by
  obtain ⟨plain, config, resolved⟩ := reads
  have resolver : (ctx.under cache).resolver = ctx.resolver := rfl
  simp only [process, processAcross, plain, Bool.false_eq_true, if_false, resolver, Moments.still]
  cases found : ctx.resolver.resolve world.files world.resolver task.path with
  | mk answer state =>
    rw [found] at resolved
    simp only at resolved
    subst resolved
    simp only [missed, analyzed]
    rw [← Moments.still, failed]
    rfl

/-- With a cache that knows nothing of a file, a task comes to the same as without one if the file
cannot be opened. If it is no text, the reports differ in what they say of it. -/
theorem process_unreadable (ctx : Context σ) (cache : Cache) (task : Task) (world : World σ)
    (unknown : cache.entry? task.path = none) :
    let plain := (ctx.under none).process task world
    let cached := (ctx.under (some cache)).process task world
    (∀ e, world.files.read task.path = .error e →
      cached = plain ∧ (ctx.Reads task world → plain.1 = .ok (task.unread e, .zero))) ∧
    ∀ bytes fault, world.files.read task.path = .ok bytes → Text.decode bytes = .error fault →
      (cached = plain ↔ ¬ctx.Reads task world) ∧
      (ctx.Reads task world →
        plain.1 = .ok (task.unread FileSystem.notUtf8, .zero) ∧
        cached.1 = .ok (task.unread (.described .invalidData fault.message), .zero) ∧
        cached.2 = plain.2) := by
  intro plain cached
  have missed : ∀ config, (ctx.under (some cache)).cached world.files task config = none :=
    cached_unknown unknown
  constructor
  · intro e failed
    by_cases reads : ctx.Reads task world
    · have without : plain = _ := process_unread none reads (fun _ => rfl) (readSource_failed failed)
      have within : cached = _ := process_unread (some cache) reads missed (readSource_failed failed)
      exact ⟨within.trans without.symm, fun _ => congrArg Prod.fst without⟩
    · exact ⟨process_under reads _ _, fun h => absurd h reads⟩
  · intro bytes fault read broken
    by_cases reads : ctx.Reads task world
    · have without : plain = _ :=
        process_unread none reads (fun _ => rfl) (readSource_unplaced rfl read broken)
      have within : cached = _ :=
        process_unread (some cache) reads missed (readSource_placed rfl read broken)
      rw [without, within]
      refine ⟨⟨fun same => ?_, fun idle => absurd reads idle⟩, fun _ => ⟨rfl, rfl, rfl⟩⟩
      rw [Prod.mk.injEq, Except.ok.injEq, Prod.mk.injEq] at same
      have message := Task.unread_message (congrArg Outcome.report same.1.1)
      exact absurd message fault.message_placed
    · exact ⟨⟨fun _ => reads, fun _ => process_under reads _ _⟩, fun h => absurd h reads⟩

def onlyTask : Task := ⟨0, FileSystem.top "b", false⟩

def overOne : Context Unit where
  tasks := [onlyTask]
  resolver := .single (.ofConfig .empty none)
  analyzer := ⟨fun _ => none, fun r fs => (.ok (.ofMessages r.path []), fs)⟩
  cache := none
  fix := .off
  warnIgnored := false

/-- The file of the task has the byte 255 and no other. -/
def noText : World Unit := ⟨⟨[(["b"], .file [255] 0)], [], 0⟩, ()⟩

theorem noText_read : noText.files.read onlyTask.path = .ok [255] :=
  FileSystem.read_iff.2 ⟨0, FileSystem.status_top (by decide) rfl⟩

theorem noText_broken : Text.decode [255] = .error ⟨0, some 1⟩ := rfl

theorem noText_reads : overOne.Reads onlyTask noText := ⟨rfl, _, rfl⟩

theorem process_noText :
    let cache := Cache.empty (FileSystem.top "c") .metadata
    cache.entry? onlyTask.path = none ∧
      ((overOne.under none).process onlyTask noText).1 =
        .ok (onlyTask.unread FileSystem.notUtf8, .zero) ∧
      ((overOne.under (some cache)).process onlyTask noText).1 =
        .ok (onlyTask.unread (.described .invalidData
          "invalid utf-8 sequence of 1 bytes from index 0"), .zero) := by
  intro cache
  obtain ⟨unplaced, placed, -⟩ := ((process_unreadable overOne cache onlyTask noText rfl).2 [255] _
    noText_read noText_broken).2 noText_reads
  exact ⟨rfl, unplaced, placed⟩

/-- A cache that knows nothing of a file changes what is reported of it. -/
theorem unreadable_not_alike :
    ¬∀ (ctx : Context Unit) (cache : Cache) (task : Task) (world : World Unit),
      cache.entry? task.path = none → (∃ e, world.files.readText task.path = .error e) →
        ∀ plain cached, ((ctx.under none).process task world).1 = .ok plain →
          ((ctx.under (some cache)).process task world).1 = .ok cached →
            plain.1.report = cached.1.report := by
  intro alike
  let cache := Cache.empty (FileSystem.top "c") .metadata
  have unread : noText.files.readText onlyTask.path = .error FileSystem.notUtf8 := by
    rw [FileSystem.readText, noText_read]
    rfl
  have plain := process_unread none noText_reads (fun _ => rfl)
    (readSource_unplaced rfl noText_read noText_broken)
  have cached := process_unread (some cache) noText_reads (cached_unknown rfl)
    (readSource_placed rfl noText_read noText_broken)
  have same := alike overOne cache onlyTask noText rfl ⟨_, unread⟩ _ _
    (congrArg Prod.fst plain) (congrArg Prod.fst cached)
  exact Text.DecodeError.message_placed ⟨0, some 1⟩ (Task.unread_message same).symm

end Context
end ParallelLint
