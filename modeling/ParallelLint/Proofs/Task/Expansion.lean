import ParallelLint.Proofs.Collection.Lookup
import ParallelLint.Proofs.Collection.Sorted
import ParallelLint.Proofs.Dispatch.Merge
import ParallelLint.Proofs.FileSystem.Top
import ParallelLint.Proofs.Path.Parents
import ParallelLint.Task.Expansion

set_option autoImplicit false

namespace ParallelLint
open Std

namespace Selection
variable {s : Selection} {fs : FileSystem} {pattern : String}

/-- The path that a pattern names. -/
def target (s : Selection) (pattern : String) : Path := (s.directory.join ⟨pattern⟩).normalize

/-- The files that a pattern stands for. -/
inductive Selects (s : Selection) (fs : FileSystem) (pattern : String) : Path → Prop
  | named {p : Path} (file : fs.isFile (s.target pattern) = true) (own : p = s.target pattern) :
      Selects s fs pattern p
  | below {p : Path} (noFile : fs.isFile (s.target pattern) = false)
      (directory : fs.isDirectory (s.target pattern) = true) (walked : p ∈ walk fs (s.target pattern))
      (extension : s.hasExtension p = true) (kept : s.isIgnored p = false) : Selects s fs pattern p
  | fitting {p : Path} {glob : Glob} (noFile : fs.isFile (s.target pattern) = false)
      (noDirectory : fs.isDirectory (s.target pattern) = false) (read : Glob.read pattern = .ok glob)
      (walked : p ∈ walk fs s.directory) (fits : s.fitsEither glob p = true)
      (kept : s.isIgnored p = false) : Selects s fs pattern p

/-- The pattern has to be read as a glob, and is none. -/
def Unreadable (s : Selection) (fs : FileSystem) (pattern : String) (fault : Glob.Fault) : Prop :=
  fs.isFile (s.target pattern) = false ∧ fs.isDirectory (s.target pattern) = false ∧
    Glob.read pattern = .error fault

def notGlob (pattern : String) (fault : Glob.Fault) : LintError :=
  .invalidConfig s!"invalid pattern \"{pattern}\": {Glob.faultText pattern fault}"

/-- How a pattern makes an expansion fail. -/
inductive Fails (s : Selection) (fs : FileSystem) (pattern : String) : LintError → Prop
  | unreadable {fault : Glob.Fault} (unreadable : s.Unreadable fs pattern fault) :
      Fails s fs pattern (notGlob pattern fault)
  | unmatched (strict : s.errorOnUnmatched = true)
      (readable : ∀ fault, ¬s.Unreadable fs pattern fault) (none : ∀ p, ¬s.Selects fs pattern p) :
      Fails s fs pattern (.noFilesFound pattern)

theorem walk_normal {start p : Path} (walked : p ∈ walk fs start) : p.Normal := by
  unfold walk FileSystem.walkFiles at walked
  split at walked
  · split at walked
    · rw [List.mem_singleton.1 walked]
      exact Path.normalize_normal start
    split at walked
    · cases walked
    split at walked
    · split at walked
      · obtain ⟨names, -, rfl⟩ := List.mem_map.1 walked
        exact Path.normalize_normal _
      · cases walked
    · cases walked
  · cases walked

theorem Selects.normal {p : Path} (selects : s.Selects fs pattern p) : p.Normal := by
  cases selects with
  | named file own =>
    rw [own]
    exact Path.normalize_normal _
  | below _ _ walked | fitting _ _ _ walked => exact walk_normal walked

theorem filesOf_file (file : fs.isFile (s.target pattern) = true) :
    s.filesOf fs pattern = .ok [(s.target pattern, s.isIgnored (s.target pattern))] := by
  unfold filesOf
  exact if_pos file

theorem filesOf_directory (noFile : fs.isFile (s.target pattern) = false)
    (directory : fs.isDirectory (s.target pattern) = true) :
    s.filesOf fs pattern = .ok (((walk fs (s.target pattern)).filter fun file =>
      !s.isIgnored file && s.hasExtension file).map fun file => (file, false)) := by
  unfold target at noFile directory ⊢
  simp only [filesOf, noFile, directory, Bool.false_eq_true, if_false, if_true]

theorem filesOf_glob (noFile : fs.isFile (s.target pattern) = false)
    (noDirectory : fs.isDirectory (s.target pattern) = false) :
    s.filesOf fs pattern = (readGlob pattern).map fun glob =>
      ((walk fs s.directory).filter fun file =>
        s.fitsEither glob file && !s.isIgnored file).map fun file => (file, false) := by
  unfold target at noFile noDirectory
  simp only [filesOf, noFile, noDirectory, Bool.false_eq_true, if_false]
  cases readGlob pattern <;> rfl

theorem mem_marked {files : List Path} {keep : Path → Bool} {p : Path} {mark : Bool} :
    (p, mark) ∈ (files.filter keep).map (fun file => (file, false)) ↔
      (p ∈ files ∧ keep p = true) ∧ mark = false := by
  constructor
  · intro h
    obtain ⟨q, hq, same⟩ := List.mem_map.1 h
    cases same
    exact ⟨List.mem_filter.1 hq, rfl⟩
  · rintro ⟨h, rfl⟩
    exact List.mem_map_of_mem (List.mem_filter.2 h)

theorem filesOf_ok {files : List (Path × Bool)} (ok : s.filesOf fs pattern = .ok files) (p : Path)
    (mark : Bool) : (p, mark) ∈ files ↔ s.Selects fs pattern p ∧ mark = s.isIgnored p := by
  cases file : fs.isFile (s.target pattern) with
  | true =>
    rw [filesOf_file file, Except.ok.injEq] at ok
    rw [← ok, List.mem_singleton, Prod.mk.injEq]
    constructor
    · rintro ⟨own, mark⟩
      exact ⟨.named file own, by rw [mark, own]⟩
    · rintro ⟨⟨-, own⟩ | noFile | noFile, mark⟩
      · exact ⟨own, by rw [mark, own]⟩
      all_goals
        rw [file] at noFile
        cases noFile
  | false =>
    cases directory : fs.isDirectory (s.target pattern) with
    | true =>
      rw [filesOf_directory file directory, Except.ok.injEq] at ok
      rw [← ok, mem_marked, Bool.and_eq_true, Bool.not_eq_true']
      constructor
      · rintro ⟨⟨walked, kept, extension⟩, mark⟩
        exact ⟨.below file directory walked extension kept, mark.trans kept.symm⟩
      · rintro ⟨⟨named, -⟩ | ⟨-, -, walked, extension, kept⟩ | ⟨-, noDirectory⟩, mark⟩
        · rw [file] at named
          cases named
        · exact ⟨⟨walked, kept, extension⟩, mark.trans kept⟩
        · rw [directory] at noDirectory
          cases noDirectory
    | false =>
      rw [filesOf_glob file directory] at ok
      cases read : Glob.read pattern with
      | error fault => simp only [readGlob, read, Except.map, reduceCtorEq] at ok
      | ok glob =>
        simp only [readGlob, read, Except.map, Except.ok.injEq] at ok
        rw [← ok, mem_marked, Bool.and_eq_true, Bool.not_eq_true']
        constructor
        · rintro ⟨⟨walked, fits, kept⟩, mark⟩
          exact ⟨.fitting file directory read walked fits kept, mark.trans kept.symm⟩
        · rintro ⟨⟨named, -⟩ | ⟨-, isDirectory⟩ | ⟨-, -, read', walked, fits, kept⟩, mark⟩
          · rw [file] at named
            cases named
          · rw [directory] at isDirectory
            cases isDirectory
          · rw [read] at read'
            cases read'
            exact ⟨⟨walked, fits, kept⟩, mark.trans kept⟩

theorem filesOf_error {e : LintError} : s.filesOf fs pattern = .error e ↔
    ∃ fault, s.Unreadable fs pattern fault ∧ e = notGlob pattern fault := by
  cases file : fs.isFile (s.target pattern) with
  | true => simp [filesOf_file file, Unreadable, file]
  | false =>
    cases directory : fs.isDirectory (s.target pattern) with
    | true => simp [filesOf_directory file directory, Unreadable, directory]
    | false =>
      rw [filesOf_glob file directory]
      cases read : Glob.read pattern with
      | ok glob => simp [readGlob, read, Unreadable, Except.map]
      | error fault =>
        simp only [readGlob, read, Except.map, Except.error.injEq, Unreadable, file, directory,
          true_and]
        constructor
        · rintro rfl
          exact ⟨fault, rfl, rfl⟩
        · rintro ⟨_, rfl, rfl⟩
          rfl

section
variable {mark : Path → Bool} {found : Sorted Path Bool}

/-- All keys are in normal form, and come with the marks that they have to have. -/
def Marked (mark : Path → Bool) (found : Sorted Path Bool) : Prop :=
  ∀ e ∈ found.entries, e.1.Normal ∧ e.2 = mark e.1

theorem mem_insertIfAbsent (marked : Marked mark found) {p : Path} (normal : p.Normal)
    {e : Path × Bool} :
    e ∈ (found.insertIfAbsent p (mark p)).entries ↔ e ∈ found.entries ∨ e = (p, mark p) := by
  unfold Sorted.insertIfAbsent
  cases known : found.find? p with
  | some value =>
    obtain ⟨key, mem, same⟩ := (Sorted.find?_iff found).1 known
    obtain ⟨clean, right⟩ := marked _ mem
    have equal : p = key := normal.eq clean (Path.compare_eq.1 same)
    have there : (p, mark p) ∈ found.entries := by
      rw [equal, ← right]
      exact mem
    rw [if_pos (by rfl)]
    exact ⟨.inl, fun h => h.elim id fun new => new ▸ there⟩
  | none =>
    have new : ∀ f ∈ found.entries, compare p f.1 ≠ .eq := by
      intro f hf same
      have there := (Sorted.find?_iff found).2 ⟨f.1, hf, same⟩
      rw [known] at there
      cases there
    rw [if_neg (by decide)]
    exact (Sorted.put_perm new).mem_iff.trans (List.mem_cons.trans or_comm)

theorem Marked.insertIfAbsent (marked : Marked mark found) {p : Path} (normal : p.Normal) :
    Marked mark (found.insertIfAbsent p (mark p)) := by
  intro e he
  rcases (mem_insertIfAbsent marked normal).1 he with he | rfl
  · exact marked e he
  · exact ⟨normal, rfl⟩

theorem addAll_marked {files : List (Path × Bool)}
    (given : ∀ e ∈ files, e.1.Normal ∧ e.2 = mark e.1) (marked : Marked mark found) :
    Marked mark (addAll found files) ∧
      ∀ e, e ∈ (addAll found files).entries ↔ e ∈ found.entries ∨ e ∈ files := by
  induction files generalizing found with
  | nil => exact ⟨marked, by simp [addAll]⟩
  | cons file rest ih =>
    obtain ⟨p, value⟩ := file
    obtain ⟨normal, right⟩ := given _ (List.mem_cons_self ..)
    simp only at normal right
    rw [right] at given ⊢
    obtain ⟨marked', mem⟩ := ih (fun e he => given e (List.mem_cons_of_mem _ he))
      (marked.insertIfAbsent normal)
    refine ⟨marked', fun e => (mem e).trans ?_⟩
    rw [mem_insertIfAbsent marked normal, List.mem_cons, or_assoc]

end

section
-- otherwise the unifier tries to compute what a pattern stands for
attribute [local irreducible] filesOf

theorem expandFrom_step (s : Selection) (fs : FileSystem) (found : Sorted Path Bool)
    (pattern : String) (rest : List String) :
    s.expandFrom fs found (pattern :: rest) =
      match s.filesOf fs pattern with
      | .error e => .error e
      | .ok files =>
        if files.isEmpty && s.errorOnUnmatched then .error (.noFilesFound pattern)
        else s.expandFrom fs (addAll found files) rest := rfl

end

variable {found : Sorted Path Bool}

theorem expandFrom_cons (s : Selection) (fs : FileSystem) (pattern : String) :
    (∃ e, s.Fails fs pattern e ∧
      ∀ found rest, s.expandFrom fs found (pattern :: rest) = .error e) ∨
    (∀ e, ¬s.Fails fs pattern e) ∧ ∃ files, s.filesOf fs pattern = .ok files ∧
      ∀ found rest, s.expandFrom fs found (pattern :: rest) =
        s.expandFrom fs (addAll found files) rest := by
  cases files : s.filesOf fs pattern with
  | error e =>
    obtain ⟨fault, unreadable, rfl⟩ := filesOf_error.1 files
    exact .inl ⟨_, .unreadable unreadable, fun found rest => by rw [expandFrom_step, files]⟩
  | ok given =>
    have readable : ∀ fault, ¬s.Unreadable fs pattern fault := by
      intro fault unreadable
      rw [filesOf_error.2 ⟨fault, unreadable, rfl⟩] at files
      cases files
    have empty : given.isEmpty = true ↔ ∀ p, ¬s.Selects fs pattern p := by
      rw [List.isEmpty_iff, List.eq_nil_iff_forall_not_mem]
      constructor
      · exact fun none p selects => none (p, s.isIgnored p) ((filesOf_ok files p _).2 ⟨selects, rfl⟩)
      · exact fun none e he => none e.1 ((filesOf_ok files e.1 e.2).1 he).1
    cases stuck : given.isEmpty && s.errorOnUnmatched with
    | true =>
      obtain ⟨none, strict⟩ := Bool.and_eq_true_iff.1 stuck
      refine .inl ⟨_, .unmatched strict readable (empty.1 none), fun found rest => ?_⟩
      simp only [expandFrom_step, files, stuck, if_true]
    | false =>
      refine .inr ⟨?_, given, rfl, fun found rest => ?_⟩
      · rintro e (unreadable | ⟨strict, -, none⟩)
        · exact readable _ unreadable
        · rw [empty.2 none, strict] at stuck
          cases stuck
      · simp only [expandFrom_step, files, stuck, Bool.false_eq_true, if_false]

theorem filesOf_given {files : List (Path × Bool)} (ok : s.filesOf fs pattern = .ok files) :
    ∀ e ∈ files, e.1.Normal ∧ e.2 = s.isIgnored e.1 := by
  intro e he
  obtain ⟨selects, mark⟩ := (filesOf_ok ok e.1 e.2).1 he
  exact ⟨selects.normal, mark⟩

theorem expandFrom_ok {patterns : List String} {result : Sorted Path Bool}
    (marked : Marked s.isIgnored found) (ok : s.expandFrom fs found patterns = .ok result) :
    (∀ pattern ∈ patterns, ∀ e, ¬s.Fails fs pattern e) ∧
      ∀ p mark, (p, mark) ∈ result.entries ↔ (p, mark) ∈ found.entries ∨
        (∃ pattern ∈ patterns, s.Selects fs pattern p) ∧ mark = s.isIgnored p := by
  induction patterns generalizing found with
  | nil =>
    cases ok
    simp
  | cons pattern rest ih =>
    rcases s.expandFrom_cons fs pattern with ⟨e, -, failed⟩ | ⟨sound, files, given, next⟩
    · rw [failed] at ok
      cases ok
    · rw [next] at ok
      obtain ⟨marked', mem⟩ := addAll_marked (filesOf_given given) marked
      obtain ⟨sounds, all⟩ := ih marked' ok
      refine ⟨List.forall_mem_cons.2 ⟨sound, sounds⟩, fun p mark => ?_⟩
      rw [all, mem, filesOf_ok given, or_assoc, ← or_and_right]
      simp

theorem expandFrom_error {patterns : List String} {e : LintError}
    (failed : s.expandFrom fs found patterns = .error e) :
    ∃ before pattern after, patterns = before ++ pattern :: after ∧
      (∀ q ∈ before, ∀ e, ¬s.Fails fs q e) ∧ s.Fails fs pattern e := by
  induction patterns generalizing found with
  | nil => cases failed
  | cons pattern rest ih =>
    rcases s.expandFrom_cons fs pattern with ⟨e', fails, stops⟩ | ⟨sound, files, -, next⟩
    · rw [stops] at failed
      cases failed
      exact ⟨[], pattern, rest, rfl, by simp, fails⟩
    · rw [next] at failed
      obtain ⟨before, q, after, rfl, sounds, fails⟩ := ih failed
      exact ⟨pattern :: before, q, after, rfl, List.forall_mem_cons.2 ⟨sound, sounds⟩, fails⟩

end Selection

namespace Task

theorem number_paths (files : List (Path × Bool)) :
    (number files).map path = files.map Prod.fst := by
  rw [number, List.map_map]
  change files.zipIdx.map (Prod.fst ∘ Prod.fst) = _
  rw [← List.map_map, List.zipIdx_map_fst]

theorem number_mem {files : List (Path × Bool)} {t : Task} (ht : t ∈ number files) :
    (t.path, t.ignored) ∈ files := by
  obtain ⟨f, hf, rfl⟩ := List.mem_map.1 ht
  exact List.fst_mem_of_mem_zipIdx hf

theorem number_numbered (files : List (Path × Bool)) : misnumbered? (number files) = none := by
  rw [misnumbered?, Option.map_eq_none_iff, List.find?_eq_none]
  rintro ⟨t, i⟩ h
  rw [List.mk_mem_zipIdx_iff_getElem?, number, List.getElem?_map, Option.map_eq_some_iff] at h
  obtain ⟨f, hf, rfl⟩ := h
  rw [List.getElem?_zipIdx, Option.map_eq_some_iff] at hf
  obtain ⟨file, -, rfl⟩ := hf
  simp

end Task

namespace Selection
variable {s : Selection} {fs : FileSystem} {patterns : List String}

theorem expand_ok {tasks : List Task} (ok : s.expand fs patterns = .ok tasks) :
    ∃ found, s.expandFrom fs .empty patterns = .ok found ∧ tasks = Task.number found.entries := by
  unfold expand at ok
  split at ok
  · rename_i found expanded
    exact ⟨found, expanded, (Except.ok.inj ok).symm⟩
  · cases ok

theorem mem_expanded {found : Sorted Path Bool} (ok : s.expandFrom fs .empty patterns = .ok found)
    (p : Path) (mark : Bool) : (p, mark) ∈ found.entries ↔
      (∃ pattern ∈ patterns, s.Selects fs pattern p) ∧ mark = s.isIgnored p := by
  have none : Marked s.isIgnored .empty := by
    rintro e ⟨⟩
  refine ((expandFrom_ok none ok).2 p mark).trans (or_iff_right ?_)
  rintro ⟨⟩

theorem expand_succeeds :
    (∃ tasks, s.expand fs patterns = .ok tasks) ↔
      ∀ pattern ∈ patterns, ∀ e, ¬s.Fails fs pattern e := by
  have none : Marked s.isIgnored .empty := by
    rintro e ⟨⟩
  constructor
  · rintro ⟨tasks, ok⟩
    obtain ⟨found, expanded, -⟩ := expand_ok ok
    exact (expandFrom_ok none expanded).1
  · intro sound
    unfold expand
    cases expanded : s.expandFrom fs .empty patterns with
    | ok found => exact ⟨_, rfl⟩
    | error e =>
      obtain ⟨before, pattern, after, rfl, -, fails⟩ := expandFrom_error expanded
      exact absurd fails (sound pattern (by simp) e)

/-- Patterns stand for their files, in the order of the paths and each with the right mark, or for the
failure of the first pattern that fails. -/
theorem expand_tasks (s : Selection) (fs : FileSystem) (patterns : List String) :
    (∀ tasks, s.expand fs patterns = .ok tasks →
      (tasks.map Task.path).Pairwise (fun p q => compare p q = .lt) ∧
      tasks.map Task.index = List.range tasks.length ∧ Task.misnumbered? tasks = none ∧
      (∀ p, p ∈ tasks.map Task.path ↔ ∃ pattern ∈ patterns, s.Selects fs pattern p) ∧
      (∀ t ∈ tasks, t.ignored = s.isIgnored t.path) ∧
      ∀ others : List String, (∀ q, q ∈ others ↔ q ∈ patterns) → s.expand fs others = .ok tasks) ∧
    (∀ e, s.expand fs patterns = .error e →
      ∃ before pattern after, patterns = before ++ pattern :: after ∧
        (∀ q ∈ before, ∀ e, ¬s.Fails fs q e) ∧ s.Fails fs pattern e) ∧
    ((∃ tasks, s.expand fs patterns = .ok tasks) ↔
      ∀ pattern ∈ patterns, ∀ e, ¬s.Fails fs pattern e) := by
  refine ⟨fun tasks ok => ?_, fun e failed => ?_, expand_succeeds⟩
  · obtain ⟨found, expanded, rfl⟩ := expand_ok ok
    have numbered := Task.number_numbered found.entries
    rw [Task.number_paths]
    refine ⟨List.pairwise_map.2 found.increasing, Task.indices numbered, numbered, fun p => ?_,
      fun t ht => ((mem_expanded expanded _ _).1 (Task.number_mem ht)).2, fun others same => ?_⟩
    · rw [List.mem_map]
      constructor
      · rintro ⟨⟨p, mark⟩, he, rfl⟩
        exact ((mem_expanded expanded p mark).1 he).1
      · intro selected
        have there := (mem_expanded expanded p (s.isIgnored p)).2 ⟨selected, rfl⟩
        exact ⟨_, there, rfl⟩
    · have sound := expand_succeeds.1 ⟨_, ok⟩
      obtain ⟨tasks, again⟩ := expand_succeeds.2 fun q hq => sound q ((same q).1 hq)
      obtain ⟨found', expanded', rfl⟩ := expand_ok again
      -- a map is told by its entries, which no order of the patterns changes
      have equal : found' = found := Sorted.eq_of_mem fun ⟨p, mark⟩ => by
        rw [mem_expanded expanded', mem_expanded expanded]
        simp only [same]
      rw [again, equal]
  · unfold expand at failed
    cases expanded : s.expandFrom fs .empty patterns with
    | ok found =>
      rw [expanded] at failed
      cases failed
    | error e' =>
      rw [expanded] at failed
      cases failed
      exact expandFrom_error expanded

theorem expand_tasks_repeated :
    let s : Selection := ⟨⟨"/"⟩, [], [], true⟩
    let fs : FileSystem := ⟨[(["b"], .file [] 0)], [], 0⟩
    s.expand fs ["b"] = .ok [⟨0, ⟨"/b"⟩, false⟩] ∧
      s.expand fs ["b", "b"] = .ok [⟨0, ⟨"/b"⟩, false⟩] := by
  intro s fs
  have target : s.target "b" = FileSystem.top "b" := by decide
  have status : fs.status (FileSystem.top "b") = .ok (.file [] 0) :=
    FileSystem.status_top (by decide) rfl
  have file : fs.isFile (s.target "b") = true := by
    rw [target]
    exact FileSystem.isFile_status.2 ⟨_, status, rfl⟩
  have plain : s.isIgnored (s.target "b") = false := by
    rw [target]
    decide
  have once : s.expand fs ["b"] = .ok [⟨0, ⟨"/b"⟩, false⟩] := by
    rw [expand, expandFrom_step, filesOf_file file, plain, target]
    rfl
  exact ⟨once, ((expand_tasks s fs ["b"]).1 _ once).2.2.2.2.2 ["b", "b"] (by simp)⟩

end Selection
end ParallelLint
