import ParallelLint.Proofs.FileSystem.Landing
import ParallelLint.Proofs.Task.Expansion

set_option autoImplicit false

/-!
By which paths the tasks of a run name their files. As long as patterns have no step upward and all
start from one place, no file is named in two ways. A step upward stays in the path, and one file may
then have two tasks, with different marks.
-/
namespace ParallelLint

namespace FileSystem
variable {fs : FileSystem}

def Named (fs : FileSystem) : Prop := ∀ f ∈ fs.entries, ∀ name ∈ f.1, Path.OwnName name

theorem Named.filesBelow (named : fs.Named) {skipped : List String} {directory : Location}
    {names : List String} (found : names ∈ fs.filesBelow skipped directory) :
    names ≠ [] ∧ ∀ name ∈ names, Path.OwnName name := by
  obtain ⟨e, he, given⟩ := List.mem_filterMap.1 found
  split at given
  · rename_i name rest below
    split at given
    · cases given
      refine ⟨List.cons_ne_nil _ _, fun n hn => named e he n ?_⟩
      unfold namesBelow? at below
      split at below
      · rw [← Option.some.inj below] at hn
        exact List.mem_of_mem_drop hn
      · cases below
    · cases given
  · cases given

theorem Named.walk (named : fs.Named) {start p : Path} (some : start.text ≠ "")
    (walked : p ∈ Selection.walk fs start) : start.Below p := by
  unfold Selection.walk walkFiles at walked
  split at walked
  · split at walked
    · rw [List.mem_singleton.1 walked]
      exact (Path.Below.refl start).normalize
    split at walked
    · cases walked
    split at walked
    · split at walked
      · obtain ⟨names, found, rfl⟩ := List.mem_map.1 walked
        obtain ⟨more, own⟩ := named.filesBelow found
        exact (Path.names_below some more own).normalize
      · cases walked
    · cases walked
  · cases walked

end FileSystem

namespace Selection
variable {s : Selection} {fs : FileSystem} {patterns : List String}

/-- No pattern has a step upward, and all start from one place. -/
structure Straight (s : Selection) (patterns : List String) : Prop where
  directory : s.directory.text ≠ ""
  onward : ∀ pattern ∈ patterns, .up ∉ (⟨pattern⟩ : Path).parts
  start : (∀ pattern ∈ patterns, (⟨pattern⟩ : Path).isAbsolute = false) ∨
    (∀ pattern ∈ patterns, (⟨pattern⟩ : Path).isAbsolute = true) ∨
    s.directory.isAbsolute = true ∧ .up ∉ s.directory.parts

theorem Straight.below (straight : s.Straight patterns) :
    ∃ base : Path, base.text ≠ "" ∧ ∀ pattern ∈ patterns, base.Below (s.target pattern) := by
  have relative : ∀ pattern ∈ patterns, (⟨pattern⟩ : Path).isAbsolute = false →
      s.directory.Below (s.target pattern) := fun pattern hp relative =>
    (Path.join_below straight.directory relative (straight.onward pattern hp)).normalize
  have absolute : ∀ pattern ∈ patterns, (⟨pattern⟩ : Path).isAbsolute = true →
      (⟨"/"⟩ : Path).Below (s.target pattern) := by
    intro pattern hp absolute
    have joined : s.directory.join ⟨pattern⟩ = ⟨pattern⟩ := by rw [Path.join, if_pos absolute]
    rw [target, joined]
    exact (Path.absolute_below absolute (straight.onward pattern hp)).normalize
  rcases straight.start with all | all | ⟨rooted, straight'⟩
  · exact ⟨_, straight.directory, fun p hp => relative p hp (all p hp)⟩
  · exact ⟨⟨"/"⟩, by decide, fun p hp => absolute p hp (all p hp)⟩
  · refine ⟨⟨"/"⟩, by decide, fun p hp => ?_⟩
    cases own : (⟨p⟩ : Path).isAbsolute with
    | true => exact absolute p hp own
    | false => exact (Path.absolute_below rooted straight').trans (relative p hp own)

theorem Selects.target_below {pattern : String} {p : Path} (named : fs.Named)
    (some : (s.target pattern).text ≠ "")
    (existing : fs.isFile (s.target pattern) = true ∨ fs.isDirectory (s.target pattern) = true)
    (selects : s.Selects fs pattern p) : (s.target pattern).Below p := by
  cases selects with
  | named _ own => exact own ▸ .refl _
  | below _ _ walked => exact named.walk some walked
  | fitting noFile noDirectory =>
    rw [noFile, noDirectory] at existing
    rcases existing with ⟨⟨⟩⟩ | ⟨⟨⟩⟩

theorem expand_file {pattern : String} (file : fs.isFile (s.target pattern) = true) :
    s.expand fs [pattern] = .ok [⟨0, s.target pattern, s.isIgnored (s.target pattern)⟩] := by
  rw [expand, expandFrom_step, filesOf_file file]
  generalize s.isIgnored (s.target pattern) = mark
  generalize s.target pattern = p
  rfl

theorem expand_path {tasks : List Task} (ok : s.expand fs patterns = .ok tasks) {t u : Task}
    (ht : t ∈ tasks) (hu : u ∈ tasks) (same : t.path = u.path) : t = u := by
  obtain ⟨found, -, rfl⟩ := expand_ok ok
  have distinct : ((Task.number found.entries).map Task.path).Nodup := by
    rw [Task.number_paths]
    exact found.nodup_keys
  exact List.inj_on_of_nodup_map distinct ht hu same

theorem expand_selects {tasks : List Task} (ok : s.expand fs patterns = .ok tasks) {t : Task}
    (ht : t ∈ tasks) : ∃ pattern ∈ patterns, s.Selects fs pattern t.path := by
  obtain ⟨found, expanded, rfl⟩ := expand_ok ok
  exact ((mem_expanded expanded _ _).1 (Task.number_mem ht)).1

theorem file_succeeds {pattern : String} (file : fs.isFile (s.target pattern) = true)
    (e : LintError) : ¬s.Fails fs pattern e := by
  rintro (⟨noFile, -, -⟩ | ⟨-, -, none⟩)
  · rw [file] at noFile
    cases noFile
  · exact none _ (.named file rfl)

theorem expand_names {tasks : List Task} (ok : s.expand fs patterns = .ok tasks) {pattern : String}
    (hp : pattern ∈ patterns) (file : fs.isFile (s.target pattern) = true) :
    ∃ t ∈ tasks, t.path = s.target pattern := by
  obtain ⟨found, expanded, rfl⟩ := expand_ok ok
  have there := (mem_expanded expanded (s.target pattern) _).2 ⟨⟨pattern, hp, .named file rfl⟩, rfl⟩
  rw [← List.mem_map, Task.number_paths]
  exact List.mem_map_of_mem there

/-- Straight patterns name every file in one way only: it has one task, and its mark does not depend
on how it is spelled. -/
theorem expand_once {tasks : List Task} (linkFree : fs.LinkFree) (named : fs.Named)
    (existing : ∀ pattern ∈ patterns,
      fs.isFile (s.target pattern) = true ∨ fs.isDirectory (s.target pattern) = true)
    (straight : s.Straight patterns) (ok : s.expand fs patterns = .ok tasks) :
    (∀ t ∈ tasks, ∀ u ∈ tasks, ∀ l, fs.FileAt t.path l → fs.FileAt u.path l → t = u) ∧
    ∀ p ∈ patterns, ∀ q ∈ patterns, ∀ l,
      fs.FileAt (s.target p) l → fs.FileAt (s.target q) l →
        ∃ t : Task, s.expand fs [p] = .ok [t] ∧ s.expand fs [q] = .ok [t] := by
  obtain ⟨base, some, below⟩ := straight.below
  have alike : ∀ {p q : Path} {l}, p.Normal → q.Normal → base.Below p → base.Below q →
      fs.FileAt p l → fs.FileAt q l → p = q := fun hp hq below below' first second =>
    FileSystem.below_unique hp hq below below'
      ((linkFree.landing first.located).symm.trans (linkFree.landing second.located))
  constructor
  · intro t ht u hu l first second
    have path : ∀ {t}, t ∈ tasks → t.path.Normal ∧ base.Below t.path := by
      intro t ht
      obtain ⟨pattern, hp, selects⟩ := expand_selects ok ht
      have there := below pattern hp
      exact ⟨selects.normal,
        there.trans (selects.target_below named (there.named some) (existing pattern hp))⟩
    exact expand_path ok ht hu
      (alike (path ht).1 (path hu).1 (path ht).2 (path hu).2 first second)
  · intro p hp q hq l first second
    have same : s.target p = s.target q := alike (Path.normalize_normal _) (Path.normalize_normal _)
      (below p hp) (below q hq) first second
    exact ⟨_, expand_file first.isFile, by
      rw [same]
      exact expand_file second.isFile⟩

def belowRoot : Selection := ⟨⟨"/"⟩, [], [], true⟩

/-- A file, and a directory that is always ignored. -/
def besideSkipped : FileSystem := ⟨[(["f"], .file [] 0), (["node_modules"], .directory)], [], 0⟩

theorem besideSkipped_linkFree : besideSkipped.LinkFree :=
  FileSystem.linkFree_of_listed (by simp [besideSkipped])

theorem besideSkipped_named : besideSkipped.Named := by
  intro f hf name hn
  simp only [besideSkipped, List.mem_cons, List.not_mem_nil, or_false] at hf
  rcases hf with rfl | rfl
  · rw [List.mem_singleton.1 hn]
    decide
  · rw [List.mem_singleton.1 hn]
    decide

theorem besideSkipped_file : besideSkipped.FileAt (FileSystem.top "f") ["f"] :=
  (FileSystem.top_file (by decide) rfl).1

theorem straight_targets : belowRoot.target "f" = FileSystem.top "f" ∧
    belowRoot.target "./f" = FileSystem.top "f" := by
  decide

theorem expand_once_here :
    ∃ tasks t, belowRoot.expand besideSkipped ["f", "./f"] = .ok tasks ∧
      (∀ t ∈ tasks, ∀ u ∈ tasks, ∀ l,
        besideSkipped.FileAt t.path l → besideSkipped.FileAt u.path l → t = u) ∧
      belowRoot.expand besideSkipped ["f"] = .ok [t] ∧
      belowRoot.expand besideSkipped ["./f"] = .ok [t] := by
  obtain ⟨first, second⟩ := straight_targets
  have existing : ∀ p ∈ ["f", "./f"], belowRoot.target p = FileSystem.top "f" := by
    simp [first, second]
  have file := besideSkipped_file.isFile
  have straight : belowRoot.Straight ["f", "./f"] :=
    ⟨by decide, by decide, .inl (by decide)⟩
  obtain ⟨tasks, ok⟩ : ∃ tasks, belowRoot.expand besideSkipped ["f", "./f"] = .ok tasks :=
    expand_succeeds.2 fun p hp => file_succeeds (existing p hp ▸ file)
  obtain ⟨once, alike⟩ := expand_once besideSkipped_linkFree besideSkipped_named
    (fun p hp => .inl (existing p hp ▸ file)) straight ok
  obtain ⟨t, named, spelled⟩ := alike "f" (by simp) "./f" (by simp) ["f"]
    (first ▸ besideSkipped_file) (second ▸ besideSkipped_file)
  exact ⟨tasks, t, ok, once, named, spelled⟩

theorem besideSkipped_around : besideSkipped.FileAt ⟨"/node_modules/../f"⟩ ["f"] := by
  have steps : FileSystem.steps ⟨"/node_modules/../f"⟩ = [.name "node_modules", .up, .name "f"] := by
    decide
  have origin : besideSkipped.origin ⟨"/node_modules/../f"⟩ = [] := by decide
  refine FileSystem.fileAt_iff.2 ⟨[], 0, by decide, ?_, rfl⟩
  rw [steps, origin]
  exact .down rfl rfl (by decide) rfl (by rintro _ ⟨⟩) (.up rfl
    (.down rfl rfl (by decide) rfl (by rintro _ ⟨⟩) (.arrive ..)))

theorem crooked_target :
    belowRoot.target "node_modules/../f" = ⟨"/node_modules/../f"⟩ := by
  decide

/-- With a step upward a file can have two tasks, and a mark that other spellings do not give it. -/
theorem not_expand_once :
    (¬∀ (s : Selection) (fs : FileSystem) (patterns : List String) (tasks : List Task),
      fs.LinkFree → fs.Named →
      (∀ pattern ∈ patterns,
        fs.isFile (s.target pattern) = true ∨ fs.isDirectory (s.target pattern) = true) →
      s.expand fs patterns = .ok tasks →
      ∀ t ∈ tasks, ∀ u ∈ tasks, ∀ l, fs.FileAt t.path l → fs.FileAt u.path l → t = u) ∧
    ¬∀ (s : Selection) (fs : FileSystem) (p q : String) (l : Location) (t u : Task),
      fs.LinkFree → fs.Named → fs.FileAt (s.target p) l → fs.FileAt (s.target q) l →
      s.expand fs [p] = .ok [t] → s.expand fs [q] = .ok [u] → t.ignored = u.ignored := by
  have plain : besideSkipped.FileAt (belowRoot.target "f") ["f"] :=
    straight_targets.1 ▸ besideSkipped_file
  have crooked : besideSkipped.FileAt (belowRoot.target "node_modules/../f") ["f"] :=
    crooked_target ▸ besideSkipped_around
  have files : ∀ p ∈ ["f", "node_modules/../f"],
      besideSkipped.isFile (belowRoot.target p) = true := by
    simp [plain.isFile, crooked.isFile]
  constructor
  · intro once
    obtain ⟨tasks, ok⟩ : ∃ tasks,
        belowRoot.expand besideSkipped ["f", "node_modules/../f"] = .ok tasks :=
      expand_succeeds.2 fun p hp => file_succeeds (files p hp)
    obtain ⟨t, ht, first⟩ := expand_names ok (by simp) plain.isFile
    obtain ⟨u, hu, second⟩ := expand_names ok (by simp) crooked.isFile
    have same := once _ _ _ _ besideSkipped_linkFree besideSkipped_named
      (fun p hp => .inl (files p hp)) ok t ht u hu ["f"] (first ▸ plain) (second ▸ crooked)
    rw [← same, first, straight_targets.1, crooked_target] at second
    exact absurd second (by decide)
  · intro alike
    have marks := alike _ _ _ _ _ _ _ besideSkipped_linkFree besideSkipped_named plain crooked
      (expand_file plain.isFile) (expand_file crooked.isFile)
    simp only [straight_targets.1, crooked_target] at marks
    exact absurd marks (by decide)

end Selection
end ParallelLint
