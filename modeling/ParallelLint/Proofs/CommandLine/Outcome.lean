import ParallelLint.CommandLine.Run
import ParallelLint.Proofs.CommandLine.Reading
import ParallelLint.Proofs.Dispatch.Fixing

set_option autoImplicit false

namespace ParallelLint.CommandLine
open FileSystem Dispatcher

/-- A run before it writes any fixed texts: its report, or the causes of its failure. -/
def outcome (a : Arguments) (parallelism : Nat) (schedule : List Nat) (fs : FileSystem) :
    Except (List String) RunReport × FileSystem :=
  match baseConfig fs a.config with
  | .error causes => (.error causes, fs)
  | .ok base =>
    match (a.options fs.currentDirectory).check with
    | .error fault => (.error ["Invalid options", fault.message], fs)
    | .ok options =>
      let world := World.mk fs (Nearest.fresh base (some options.directory))
      match (dispatcher options parallelism schedule).lintPatterns a.patternsOrHere world with
      | (.error e, world) => (.error ("Lint failed" :: causesOf e), world.files)
      | (.ok report, world) => (.ok report, world.files)

def report? (line : List String) (parallelism : Nat) (schedule : List Nat) (fs : FileSystem) :
    Option RunReport :=
  match Arguments.read line with
  | .ok a => (outcome a parallelism schedule fs).1.toOption
  | .error _ => none

section
variable {a : Arguments} {parallelism : Nat} {schedule : List Nat} {fs files : FileSystem}

theorem check_same {o o' : Options} (h : o.check = .ok o') : o' = o := by
  unfold Options.check at h
  split at h
  · cases h
  split at h
  · cases h
  split at h
  · cases h
  · cases h
    rfl

theorem runWith_outcome (a : Arguments) (parallelism : Nat) (schedule : List Nat)
    (fs : FileSystem) :
    runWith a parallelism schedule fs =
      match outcome a parallelism schedule fs with
      | (.error causes, files) => (.failure causes, files)
      | (.ok report, files) =>
        match applyFixes a files report with
        | (.error e, files) => (.failure ("Failed to write fixes" :: causesOf e), files)
        | (.ok (), files) => (screen a fs.currentDirectory report, files) := by
  unfold runWith outcome
  cases baseConfig fs a.config with
  | error causes => rfl
  | ok base =>
    simp only
    cases checked : (a.options fs.currentDirectory).check with
    | error fault => rfl
    | ok options =>
      obtain rfl := check_same checked
      simp only [lint]
      generalize Dispatcher.lintPatterns _ _ _ = ran
      obtain ⟨answer, world⟩ := ran
      cases answer <;> rfl

theorem outcome_onTrial (fix : a.has .fix = true) (parallelism : Nat) (schedule : List Nat)
    (fs : FileSystem) : outcome a.onTrial parallelism schedule fs = outcome a parallelism schedule fs := by
  unfold outcome
  rw [Arguments.onTrial_options fix]
  rfl

def Arguments.dispatcher (a : Arguments) (parallelism : Nat) (schedule : List Nat)
    (fs : FileSystem) : Dispatcher Nearest :=
  CommandLine.dispatcher (a.options fs.currentDirectory) parallelism schedule

theorem outcome_scheduled (schedule' : List Nat)
    (room : ∀ tasks, (a.dispatcher parallelism schedule fs).expand fs a.patternsOrHere = .ok tasks →
      2 * tasks.length < UInt64.size) :
    let o := outcome a parallelism schedule fs
    let o' := outcome a parallelism schedule' fs
    o.1.toOption = o'.1.toOption ∧ o.2 = o'.2 := by
  unfold outcome
  cases baseConfig fs a.config with
  | error causes => exact ⟨rfl, rfl⟩
  | ok base =>
    cases checked : (a.options fs.currentDirectory).check with
    | error fault => exact ⟨rfl, rfl⟩
    | ok options =>
      obtain rfl := check_same checked
      have same := lintPatterns_scheduled (d := a.dispatcher parallelism schedule fs) schedule' rfl
        textRules_quiet base (some (a.options fs.currentDirectory).directory) room
      revert same
      simp only [Arguments.dispatcher, CommandLine.dispatcher]
      generalize Dispatcher.lintPatterns _ _ _ = ran
      generalize Dispatcher.lintPatterns _ _ _ = ran'
      obtain ⟨answer, world⟩ := ran
      obtain ⟨answer', world'⟩ := ran'
      rintro ⟨same, files⟩
      cases answer <;> cases answer' <;> cases same <;> exact ⟨rfl, files⟩

theorem outcome_error (tree : fs.IsTree) {causes : List String}
    (failed : outcome a parallelism schedule fs = (.error causes, files)) (l : Location)
    (apart : fs.placeOfEntry ((a.dispatcher parallelism schedule fs).cacheFile fs) ≠
      .ok (.found l)) : files.bytesAt? l = fs.bytesAt? l := by
  unfold outcome at failed
  split at failed
  · cases failed
    rfl
  split at failed
  · cases failed
    rfl
  rename_i options checked
  obtain rfl := check_same checked
  simp only at failed
  split at failed
  · rename_i e world ran
    cases failed
    rcases lintPatterns_failed (fun _ fs => .refl fs) tree ran with same |
      ⟨-, -, location, here, loses⟩
    · exact same l
    · refine loses.others l ?_
      rintro rfl
      exact apart here
  · cases failed

theorem outcome_ok {report : RunReport}
    (ok : outcome a parallelism schedule fs = (.ok report, files)) :
    let d := a.dispatcher parallelism schedule fs
    ∃ tasks start state, d.expand fs a.patternsOrHere = .ok tasks ∧
      d.lintTasks tasks ⟨fs, start⟩ = (.ok report, ⟨files, state⟩) := by
  unfold outcome at ok
  split at ok
  · cases ok
  split at ok
  · cases ok
  rename_i options checked
  obtain rfl := check_same checked
  simp only at ok
  split at ok
  · cases ok
  · rename_i report world ran
    cases ok
    unfold lintPatterns at ran
    split at ran
    · cases ran
    · rename_i tasks expanded
      exact ⟨tasks, _, world.resolver, expanded, ran⟩

theorem outcome_reported {base : Config} {report : RunReport} {world : World Nearest}
    (config : baseConfig fs a.config = .ok base)
    (checked : (a.options fs.currentDirectory).check = .ok (a.options fs.currentDirectory))
    (ran : (a.dispatcher parallelism schedule fs).lintPatterns a.patternsOrHere
      ⟨fs, .fresh base (some (a.options fs.currentDirectory).directory)⟩ = (.ok report, world)) :
    outcome a parallelism schedule fs = (.ok report, world.files) := by
  rw [Arguments.dispatcher] at ran
  rw [outcome, config]
  simp only [checked, ran]

end
end ParallelLint.CommandLine
