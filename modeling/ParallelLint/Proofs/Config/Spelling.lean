import ParallelLint.Proofs.Config.Resolving
import ParallelLint.Proofs.FileSystem.Paths

set_option autoImplicit false

namespace ParallelLint.Nearest
variable {fs : FileSystem}

def setting? (answer : Except LintError ResolvedConfig) : Option (Config × Fingerprint) :=
  answer.toOption.map fun found => (found.config, found.fingerprint)

/-- A configuration and where it was found, however the path to it is spelled. -/
def sight (found : ResolvedConfig) : Config × Fingerprint × Option (List Path.Part) :=
  (found.config, found.fingerprint, found.source.map Path.parts)

def sight? (answer : Except LintError ResolvedConfig) :
    Option (Config × Fingerprint × Option (List Path.Part)) :=
  answer.toOption.map sight

theorem setting_sight (answer : Except LintError ResolvedConfig) :
    setting? answer = (sight? answer).map fun seen => (seen.1, seen.2.1) := by
  rw [setting?, sight?, Option.map_map]
  rfl

def Searched (paths : List Path) (d : Path) : Prop := ∃ p ∈ paths, d ∈ directories p

/-- Whichever way the path of a configuration file is spelled, it leads to a file or it does not. -/
def SpelledAlike (fs : FileSystem) (paths : List Path) : Prop :=
  ∀ p ∈ paths, ∀ q ∈ candidates p, ∀ p' ∈ paths, ∀ q' ∈ candidates p', q.parts = q'.parts →
    fs.isFile q = fs.isFile q'

section
variable {base : Config} {root : Option Path} {paths : List Path} {d d' : Path}

theorem Searched.named (h : Searched paths d) : d.text ≠ "" := by
  obtain ⟨p, -, hd⟩ := h
  obtain ⟨directory, named, same, -⟩ := directories_upward p
  rw [same] at hd
  exact Path.upward_all named (fun _ _ _ _ named => named) d hd

theorem Searched.parent {q : Path} (h : Searched paths d) (around : d.parent? = some q)
    (named : q.text ≠ "") : Searched paths q := by
  obtain ⟨p, hp, hd⟩ := h
  obtain ⟨directory, -, same, -⟩ := directories_upward p
  rw [same] at hd
  exact ⟨p, hp, same ▸ Path.upward_parent hd around named⟩

theorem sight_readConfig (fs : FileSystem) (base : Config) (file : Path) :
    sight? (readConfig fs base file) =
      (fs.readText file).toOption.bind fun text => (Config.ofToml? text).map fun own =>
        (base.mergedWith own, (base.mergedWith own).fingerprint, some file.parts) := by
  cases text : fs.readText file with
  | error e => simp [readConfig, text, sight?, Except.toOption]
  | ok text' =>
    cases own : Config.ofToml? text' <;>
      simp [readConfig, text, Config.load, own, sight?, sight, Except.toOption,
        ResolvedConfig.ofConfig]

theorem SpelledAlike.isFile (h : SpelledAlike fs paths) (hd : Searched paths d)
    (hd' : Searched paths d') (same : (d.join fileName).parts = (d'.join fileName).parts) :
    fs.isFile (d.join fileName) = fs.isFile (d'.join fileName) := by
  obtain ⟨p, hp, hd⟩ := hd
  obtain ⟨p', hp', hd'⟩ := hd'
  exact h p hp _ (List.mem_map_of_mem hd) p' hp' _ (List.mem_map_of_mem hd') same

theorem SpelledAlike.readConfig (h : SpelledAlike fs paths) (hd : Searched paths d)
    (hd' : Searched paths d') (same : (d.join fileName).parts = (d'.join fileName).parts) :
    sight? (Nearest.readConfig fs base (d.join fileName)) =
      sight? (Nearest.readConfig fs base (d'.join fileName)) := by
  rw [sight_readConfig, sight_readConfig, same,
    FileSystem.readText_sameParts same (h.isFile hd hd' same)]

theorem SpelledAlike.plain (h : SpelledAlike fs paths) (hd : Searched paths d)
    (hd' : Searched paths d') (same : d.parts = d'.parts) :
    sight? (Nearest.plain fs base root d.upward) =
      sight? (Nearest.plain fs base root d'.upward) := by
  induction size : d.parts.length using Nat.strong_induction_on generalizing d d' with
  | _ n ih =>
    have file : (d.join fileName).parts = (d'.join fileName).parts := by
      rw [fileName, Path.join_parts hd.named fileName_own.2,
        Path.join_parts hd'.named fileName_own.2, same]
    have rooted : root.any d.same = root.any d'.same := by
      cases root with
      | none => rfl
      | some r => simp [Path.same, same]
    obtain ⟨outer, outer', cut, cut', around⟩ : ∃ outer outer', d.upward = d :: outer ∧
        d'.upward = d' :: outer' ∧
          sight? (Nearest.plain fs base root outer) =
            sight? (Nearest.plain fs base root outer') := by
      by_cases long : 2 ≤ d.parts.length
      · obtain ⟨q, last, parent, named, parts, cut⟩ := Path.upward_long long
        obtain ⟨q', last', parent', named', parts', cut'⟩ := Path.upward_long (same ▸ long)
        have whole : q.parts ++ [last] = q'.parts ++ [last'] :=
          calc q.parts ++ [last] = d.parts := parts.symm
            _ = d'.parts := same
            _ = q'.parts ++ [last'] := parts'
        have equal : q.parts = q'.parts := (List.append_inj' whole rfl).1
        have less : q.parts.length < n := by
          rw [← size, parts, List.length_append, List.length_singleton]
          omega
        exact ⟨_, _, cut, cut',
          ih _ less (hd.parent parent named) (hd'.parent parent' named') equal rfl⟩
      · have short := Nat.not_le.1 long
        exact ⟨[], [], Path.upward_short short, Path.upward_short (same ▸ short), rfl⟩
    rw [cut, cut', Nearest.plain, Nearest.plain, h.isFile hd hd' file, rooted]
    split
    · exact h.readConfig hd hd' file
    split
    · rfl
    · exact around

theorem spelled_alike (h : SpelledAlike fs paths) (base : Config) (root : Option Path) :
    Alike fs base root sight? (Searched paths) where
  named := Searched.named
  parent := Searched.parent
  upward := h.plain
  file := h.readConfig

end

theorem searched_directories {paths : List Path} {file : Path} (hf : file ∈ paths) :
    ∀ d ∈ directories file, Searched paths d := fun _ hd => ⟨file, hf, hd⟩

theorem resolve_sight {paths : List Path} (h : SpelledAlike fs paths) {base : Config}
    {root : Option Path} {asked : List Path} (listed : ∀ p ∈ asked, p ∈ paths) {file : Path}
    (hf : file ∈ paths) :
    sight? ((resolve fs (Resolver.nearest.after fs (.fresh base root) asked) file).map Prod.fst) =
      sight? (Nearest.plain fs base root (directories file)) := by
  have alike := spelled_alike h base root
  have start := @fresh_consistent _ sight? (Searched paths) fs base root
  have later := start.after alike fun p hp => searched_directories (listed p hp)
  exact (resolve_plain alike (searched_directories hf) later).1

theorem resolve_spelled {paths : List Path} (h : SpelledAlike fs paths) {base : Config}
    {root : Option Path} {asked asked' : List Path} (listed : ∀ p ∈ asked, p ∈ paths)
    (listed' : ∀ p ∈ asked', p ∈ paths) {file : Path} (hf : file ∈ paths) :
    let answer := fun asked => (resolve fs
      (Resolver.nearest.after fs (.fresh base root) asked) file).map Prod.fst
    setting? (answer asked) = setting? (answer asked') := by
  intro answer
  rw [setting_sight, setting_sight, resolve_sight h listed hf, resolve_sight h listed' hf]

section
variable (base : Config) {root : Option Path} {file d : Path} {outer : List Path}

theorem directories_parent (around : file.parent? = some d) (named : d.text ≠ "") :
    directories file = d.upward := by
  rw [directories, around]
  exact if_neg named

theorem resolve_hidden (around : directories file = d :: outer)
    (hidden : fs.isFile (d.join fileName) = false) (rooted : root.any d.same = true) :
    resolve fs (.fresh base root) file =
      .ok (.ofConfig base none, (fresh base root).remember d (.ofConfig base none)) := by
  have unknown : (fresh base root).byDirectory.find? d = none := rfl
  have isRoot : (fresh base root).isRoot d = true := rooted
  rw [resolve, around, resolveIn_cons, unknown]
  simp only [lookIn, hidden, isRoot]
  rfl

/-- What has been found for one spelling is given for the others. -/
theorem resolve_remembered {d' : Path} {r : Nearest} {found : ResolvedConfig}
    (around : directories file = d' :: outer) (same : d'.parts = d.parts) :
    resolve fs (r.remember d found) file = .ok (found, r.remember d found) := by
  have known : (r.remember d found).byDirectory.find? d' = some found :=
    Sorted.find?_insert_same _ _ (Path.compare_eq.2 same)
  rw [resolve, around, resolveIn_cons, known]

theorem resolve_unreadable (root : Option Path) (around : directories file = d :: outer)
    (there : fs.isFile (d.join fileName) = true) {e : FileError}
    (unreadable : fs.readText (d.join fileName) = .error e) :
    resolve fs (.fresh base root) file = .error (.ofFile (d.join fileName) e) := by
  have unknown : (fresh base root).byDirectory.find? d = none := rfl
  have unread : (fresh base root).byFile.find? (d.join fileName) = none := rfl
  rw [resolve, around, resolveIn_cons, unknown]
  simp only [lookIn, there, loadFile, unread, readConfig, unreadable]
  rfl

end

end ParallelLint.Nearest
