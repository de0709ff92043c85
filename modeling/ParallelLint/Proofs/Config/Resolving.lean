import ParallelLint.Dispatch.Run
import ParallelLint.Proofs.Collection.Lookup
import ParallelLint.Proofs.Dispatch.Steady
import ParallelLint.Proofs.Path.Parents

set_option autoImplicit false

namespace ParallelLint
open Std

/-- As long as the files stay, what has been found for a path is found again, whatever has been asked
for in between. -/
def Resolver.Stable {σ : Type} (r : Resolver σ) (fs : FileSystem) : Prop :=
  ∀ state path found, (r.resolve fs state path).1 = .ok found →
    ∀ asked, (r.resolve fs (r.after fs state (path :: asked)) path).1 = .ok found

namespace Nearest
variable {fs fs' : FileSystem} {r s : Nearest} {found : ResolvedConfig}

def lookIn (fs : FileSystem) (r : Nearest) (directory : Path) (outer : List Path) :
    Except LintError (ResolvedConfig × Nearest) :=
  if fs.isFile (directory.join fileName) then loadFile fs r (directory.join fileName)
  else if r.isRoot directory then .ok (r.baseConfig, r)
  else resolveIn fs r outer

theorem resolveIn_cons (fs : FileSystem) (r : Nearest) (directory : Path) (outer : List Path) :
    resolveIn fs r (directory :: outer) =
      match r.byDirectory.find? directory with
      | some found => .ok (found, r)
      | none => (lookIn fs r directory outer).map fun a => (a.1, a.2.remember directory a.1) := by
  rw [resolveIn]
  cases r.byDirectory.find? directory with
  | some found => rfl
  | none =>
    simp only [lookIn]
    generalize (if fs.isFile (directory.join fileName) = true then _ else _ :
      Except LintError (ResolvedConfig × Nearest)) = answer
    cases answer <;> rfl

theorem loadFile_byDirectory {file : Path} (h : loadFile fs r file = .ok (found, s)) :
    s.byDirectory = r.byDirectory := by
  unfold loadFile at h
  split at h
  · cases h
    rfl
  · split at h <;> cases h
    rfl

theorem resolveIn_head {directory : Path} {outer : List Path}
    (h : resolveIn fs r (directory :: outer) = .ok (found, s)) :
    s.byDirectory.find? directory = some found := by
  rw [resolveIn] at h
  split at h
  · rename_i known
    cases h
    exact known
  · simp only at h
    split at h
    · cases h
      exact Sorted.find?_insert_same _ _ ReflCmp.compare_self
    · cases h

theorem resolveIn_kept {directories : List Path} {known : Path} {config : ResolvedConfig}
    (h : resolveIn fs r directories = .ok (found, s))
    (before : r.byDirectory.find? known = some config) :
    s.byDirectory.find? known = some config := by
  induction directories generalizing found s with
  | nil =>
    cases h
    exact before
  | cons directory outer ih =>
    rw [resolveIn] at h
    split at h
    · cases h
      exact before
    · rename_i unknown
      have other : compare known directory ≠ .eq := by
        intro same
        obtain ⟨k, mem, equal⟩ := (Sorted.find?_iff _).1 before
        have there := (Sorted.find?_iff _).2 ⟨k, mem, TransCmp.eq_trans (OrientedCmp.eq_symm same)
          equal⟩
        rw [unknown] at there
        cases there
      simp only at h
      split at h
      · rename_i found' s' answer
        cases h
        refine (Sorted.find?_insert_other _ _ other).trans ?_
        split at answer
        · rw [loadFile_byDirectory answer]
          exact before
        split at answer
        · cases answer
          exact before
        · exact ih answer
      · cases h

theorem directories_cons (file : Path) : ∃ directory outer, directories file = directory :: outer := by
  unfold directories
  split
  · split
    · exact ⟨_, _, rfl⟩
    · rename_i directory _ _
      rw [Path.upward_eq]
      split
      · split <;> exact ⟨_, _, rfl⟩
      · exact ⟨_, _, rfl⟩
  · exact ⟨_, _, rfl⟩

theorem nearest_ok {path : Path} {answer : Option ResolvedConfig} {state : Nearest}
    (h : Resolver.nearest.resolve fs state path = (.ok answer, s)) :
    ∃ found, answer = some found ∧ Nearest.resolve fs state path = .ok (found, s) := by
  simp only [Resolver.nearest] at h
  split at h
  · rename_i found s' same
    cases h
    exact ⟨found, rfl, same⟩
  · cases h

theorem nearest_kept {state : Nearest} {known : Path} {config : ResolvedConfig}
    (before : state.byDirectory.find? known = some config) (asked : List Path) :
    (Resolver.nearest.after fs state asked).byDirectory.find? known = some config := by
  induction asked generalizing state with
  | nil => exact before
  | cons path rest ih =>
    refine ih ?_
    change (Resolver.nearest.resolve fs state path).2.byDirectory.find? known = _
    simp only [Resolver.nearest]
    split
    · rename_i found s answer
      exact resolveIn_kept answer before
    · exact before

theorem nearest_stable (fs : FileSystem) : Resolver.nearest.Stable fs := by
  intro state path found answer asked
  obtain ⟨directory, outer, cut⟩ := directories_cons path
  obtain ⟨config, rfl, resolved⟩ := nearest_ok (Prod.ext answer rfl)
  rw [resolve, cut] at resolved
  have known : (Resolver.nearest.after fs state (path :: asked)).byDirectory.find? directory =
      some config := nearest_kept (resolveIn_head resolved) asked
  generalize Resolver.nearest.after fs state (path :: asked) = later at known
  simp only [Resolver.nearest, Nearest.resolve, cut, resolveIn, known]

/-- What is found in directories, the innermost first, without remembering anything. -/
def plain (fs : FileSystem) (base : Config) (root : Option Path) :
    List Path → Except LintError ResolvedConfig
  | [] => .ok (.ofConfig base none)
  | directory :: outer =>
    if fs.isFile (directory.join fileName) then readConfig fs base (directory.join fileName)
    else if root.any directory.same then .ok (.ofConfig base none)
    else plain fs base root outer

section
variable {α : Type} {view : Except LintError ResolvedConfig → α} {known : Path → Prop}
  {base : Config} {root : Option Path}

/-- Directories that may be looked through, with those around them. In the view that is taken of the
answers, all spellings of a directory are alike. -/
structure Alike (fs : FileSystem) (base : Config) (root : Option Path)
    (view : Except LintError ResolvedConfig → α) (known : Path → Prop) : Prop where
  named {d : Path} : known d → d.text ≠ ""
  parent {d q : Path} : known d → d.parent? = some q → q.text ≠ "" → known q
  upward {d d' : Path} : known d → known d' → d.parts = d'.parts →
    view (plain fs base root d.upward) = view (plain fs base root d'.upward)
  file {d d' : Path} : known d → known d' → (d.join fileName).parts = (d'.join fileName).parts →
    view (readConfig fs base (d.join fileName)) = view (readConfig fs base (d'.join fileName))

/-- What is remembered is what would be found. -/
structure Consistent (fs : FileSystem) (base : Config) (root : Option Path)
    (view : Except LintError ResolvedConfig → α) (known : Path → Prop) (r : Nearest) : Prop where
  sameBase : r.base = base
  sameRoot : r.root = root
  directories : ∀ e ∈ r.byDirectory.entries, ∀ d, known d → d.parts = e.1.parts →
    view (plain fs base root d.upward) = view (.ok e.2)
  files : ∀ e ∈ r.byFile.entries, ∀ d, known d → (d.join fileName).parts = e.1.parts →
    view (readConfig fs base (d.join fileName)) = view (.ok e.2)

theorem fresh_consistent (fs : FileSystem) (base : Config) (root : Option Path) :
    Consistent fs base root view known (.fresh base root) :=
  ⟨rfl, rfl, by simp [fresh, Sorted.empty], by simp [fresh, Sorted.empty]⟩

theorem mem_found {m : Sorted Path ResolvedConfig} {p : Path} (h : m.find? p = some found) :
    ∃ key, (key, found) ∈ m.entries ∧ p.parts = key.parts := by
  obtain ⟨key, mem, same⟩ := (Sorted.find?_iff m).1 h
  exact ⟨key, mem, Path.compare_eq.1 same⟩

theorem mem_inserted {m : Sorted Path ResolvedConfig} {p : Path} {e : Path × ResolvedConfig}
    (h : e ∈ (m.insert p found).entries) : e ∈ m.entries ∨ e.1.parts = p.parts ∧ e.2 = found := by
  rcases Sorted.mem_insert.1 h with ⟨key, value⟩ | ⟨h, -⟩
  · exact .inr ⟨key ▸ (Path.compare_eq.1 (Sorted.compare_keyIn ..)).symm, value⟩
  · exact .inl h

theorem Consistent.remember (c : Consistent fs base root view known r)
    (alike : Alike fs base root view known) {directory : Path} (listed : known directory)
    (same : view (plain fs base root directory.upward) = view (.ok found)) :
    Consistent fs base root view known (r.remember directory found) := by
  refine ⟨c.sameBase, c.sameRoot, fun e he d hd parts => ?_, c.files⟩
  rcases mem_inserted he with he | ⟨key, value⟩
  · exact c.directories e he d hd parts
  · rw [value, alike.upward hd listed (parts.trans key), same]

theorem loadFile_plain (c : Consistent fs base root view known r)
    (alike : Alike fs base root view known) {directory : Path} (listed : known directory) :
    view ((loadFile fs r (directory.join fileName)).map Prod.fst) =
        view (readConfig fs base (directory.join fileName)) ∧
      ∀ answer, loadFile fs r (directory.join fileName) = .ok answer →
        Consistent fs base root view known answer.2 := by
  unfold loadFile
  split
  · rename_i found present
    obtain ⟨key, mem, parts⟩ := mem_found present
    exact ⟨(c.files _ mem _ listed parts).symm, by rintro answer ⟨⟩; exact c⟩
  · rw [c.sameBase]
    split
    · rename_i found read
      refine ⟨congrArg view read.symm, ?_⟩
      rintro answer ⟨⟩
      refine ⟨rfl, c.sameRoot, c.directories, fun e he d hd parts => ?_⟩
      rcases mem_inserted he with he | ⟨key, value⟩
      · exact c.files e he d hd parts
      · rw [value, alike.file hd listed (parts.trans key), read]
    · rename_i e read
      exact ⟨congrArg view read.symm, by rintro answer ⟨⟩⟩

/-- Looking through directories finds what would be found without what is remembered. -/
theorem resolveIn_plain (alike : Alike fs base root view known) {directory : Path}
    (listed : known directory) (c : Consistent fs base root view known r) :
    view ((resolveIn fs r directory.upward).map Prod.fst) =
        view (plain fs base root directory.upward) ∧
      ∀ answer, resolveIn fs r directory.upward = .ok answer →
        Consistent fs base root view known answer.2 := by
  -- the parents have fewer parts
  induction h : directory.parts.length using Nat.strong_induction_on generalizing directory r with
  | _ n ih =>
    obtain ⟨outer, cut, below⟩ : ∃ outer, directory.upward = directory :: outer ∧
        (view ((resolveIn fs r outer).map Prod.fst) = view (plain fs base root outer) ∧
          ∀ answer, resolveIn fs r outer = .ok answer →
            Consistent fs base root view known answer.2) := by
      have none : view ((resolveIn fs r []).map Prod.fst) = view (plain fs base root []) ∧
          ∀ answer, resolveIn fs r [] = .ok answer →
            Consistent fs base root view known answer.2 := by
        refine ⟨?_, ?_⟩
        · rw [resolveIn, plain, baseConfig, c.sameBase]
          rfl
        · rintro answer ⟨⟩
          exact c
      rw [Path.upward_eq]
      split
      · rename_i parent around
        split
        · exact ⟨[], rfl, none⟩
        · rename_i some
          obtain ⟨last, parts⟩ := Path.parent_parts around some
          have less : parent.parts.length < n := by
            rw [← h, parts, List.length_append, List.length_singleton]
            omega
          exact ⟨parent.upward, rfl, ih _ less (alike.parent listed around some) c rfl⟩
      · exact ⟨[], rfl, none⟩
    rw [cut, resolveIn_cons]
    split
    · rename_i found present
      obtain ⟨key, mem, parts⟩ := mem_found present
      have same := c.directories _ mem _ listed parts
      rw [cut] at same
      exact ⟨same.symm, by rintro answer ⟨⟩; exact c⟩
    · have answered : view ((lookIn fs r directory outer).map Prod.fst) =
            view (plain fs base root (directory :: outer)) ∧
          ∀ answer, lookIn fs r directory outer = .ok answer →
            Consistent fs base root view known answer.2 := by
        rw [plain, lookIn]
        split
        · exact loadFile_plain c alike listed
        · rw [isRoot, c.sameRoot]
          split
          · refine ⟨by rw [baseConfig, c.sameBase]; rfl, ?_⟩
            rintro a ⟨⟩
            exact c
          · exact below
      cases looked : lookIn fs r directory outer with
      | error e =>
        rw [looked] at answered
        exact ⟨answered.1, by rintro a ⟨⟩⟩
      | ok a =>
        rw [looked] at answered
        refine ⟨answered.1, ?_⟩
        rintro a ⟨⟩
        exact (answered.2 _ rfl).remember alike listed (cut ▸ answered.1.symm)

theorem directories_upward (file : Path) :
    ∃ directory : Path, directory.text ≠ "" ∧ directories file = directory.upward ∧
      (file.Normal → directory.Normal) := by
  have dot : (⟨"."⟩ : Path).text ≠ "" ∧ [⟨"."⟩] = (⟨"."⟩ : Path).upward ∧
      (file.Normal → (⟨"."⟩ : Path).Normal) := by
    refine ⟨by decide, by decide, fun _ => ?_⟩
    rw [Path.Normal]
    decide
  unfold directories
  split
  · rename_i directory around
    split
    · exact ⟨_, dot⟩
    · rename_i named
      exact ⟨directory, named, rfl, fun normal => normal.parent around named⟩
  · exact ⟨_, dot⟩

theorem nearest_answer (fs : FileSystem) (r : Nearest) (file : Path) :
    (Resolver.nearest.resolve fs r file).1 = ((resolve fs r file).map Prod.fst).map some := by
  simp only [Resolver.nearest]
  cases resolve fs r file <;> rfl

theorem resolve_plain (alike : Alike fs base root view known) {file : Path}
    (listed : ∀ d ∈ directories file, known d) (c : Consistent fs base root view known r) :
    view ((resolve fs r file).map Prod.fst) = view (plain fs base root (directories file)) ∧
      Consistent fs base root view known (Resolver.nearest.resolve fs r file).2 := by
  obtain ⟨directory, named, same, -⟩ := directories_upward file
  have first : directory ∈ directories file := same ▸ directory.mem_upward_self
  obtain ⟨answer, kept⟩ := resolveIn_plain alike (listed _ first) c
  rw [← same] at answer kept
  refine ⟨answer, ?_⟩
  simp only [Resolver.nearest, Nearest.resolve]
  cases found : resolveIn fs r (directories file) with
  | error e => exact c
  | ok a => exact kept a found

theorem Consistent.after (alike : Alike fs base root view known)
    (c : Consistent fs base root view known r) {asked : List Path}
    (listed : ∀ p ∈ asked, ∀ d ∈ Nearest.directories p, known d) :
    Consistent fs base root view known (Resolver.nearest.after fs r asked) := by
  induction asked generalizing r with
  | nil => exact c
  | cons p rest ih =>
    exact ih (resolve_plain alike (listed p (List.mem_cons_self ..)) c).2
      fun q hq => listed q (List.mem_cons_of_mem _ hq)

end

section
variable {base : Config} {root : Option Path}

theorem fileName_own : Path.isVoid ".lintpool.toml" = false ∧ Path.Slashless ".lintpool.toml" := by
  constructor
  · decide
  · rw [Path.Slashless]
    decide

theorem normal_alike (fs : FileSystem) (base : Config) (root : Option Path) :
    Alike fs base root id fun d => d.Normal ∧ d.text ≠ "" where
  named := And.right
  parent h around named := ⟨h.1.parent around named, named⟩
  upward h h' same := by rw [h.1.eq h'.1 same]
  file h h' same := by
    have normal := fun {d : Path} (h : d.Normal ∧ d.text ≠ "") =>
      h.1.join h.2 fileName_own.1 fileName_own.2
    have equal : _ = _ := (normal h).eq (normal h') same
    simp only [fileName] at equal ⊢
    rw [equal]

theorem directories_normal {file : Path} (normal : file.Normal) :
    ∀ d ∈ directories file, d.Normal ∧ d.text ≠ "" := by
  obtain ⟨directory, named, same, kept⟩ := directories_upward file
  rw [same]
  exact Path.upward_all ⟨kept normal, named⟩ fun d q h around named =>
    ⟨h.1.parent around named, named⟩

/-- For paths in normal form it makes no difference what has been asked for before. -/
theorem nearest_steady (fs : FileSystem) (base : Config) (root : Option Path) {paths : List Path}
    (normal : ∀ p ∈ paths, p.Normal) :
    Resolver.nearest.Steady fs (.fresh base root) paths := by
  intro asked listed p hp
  have alike := normal_alike fs base root
  have start := @fresh_consistent _ id (fun d => d.Normal ∧ d.text ≠ "") fs base root
  have later := start.after alike fun q hq => directories_normal (normal q (listed q hq))
  have answer := fun {r : Nearest} (c : Consistent fs base root id _ r) =>
    (resolve_plain alike (directories_normal (normal p hp)) c).1
  rw [nearest_answer, nearest_answer]
  exact congrArg _ ((answer later).trans (answer start).symm)

end

/-- The path leads to a file with the same text, or in neither to a file. -/
def SameFile (fs fs' : FileSystem) (p : Path) : Prop :=
  fs.isFile p = fs'.isFile p ∧ (fs.isFile p = true → fs.readText p = fs'.readText p)

theorem sameFile_of_status {p : Path} (same : fs'.status p = fs.status p) : SameFile fs fs' p := by
  refine ⟨by rw [FileSystem.isFile, FileSystem.isFile, same], fun _ => ?_⟩
  rw [FileSystem.readText, FileSystem.readText, FileSystem.read, FileSystem.read, same]

/-- The files in which a configuration for a file is looked for. -/
def candidates (file : Path) : List Path := (directories file).map fun d => d.join fileName

theorem resolveIn_congr {directories : List Path}
    (same : ∀ d ∈ directories, SameFile fs fs' (d.join fileName)) :
    resolveIn fs r directories = resolveIn fs' r directories := by
  induction directories with
  | nil => rfl
  | cons directory outer ih =>
    obtain ⟨there, text⟩ := same directory (List.mem_cons_self ..)
    have loaded : fs.isFile (directory.join fileName) = true →
        loadFile fs r (directory.join fileName) = loadFile fs' r (directory.join fileName) := by
      intro file
      simp only [loadFile, readConfig, text file]
    rw [resolveIn, resolveIn, ih fun d hd => same d (List.mem_cons_of_mem _ hd), ← there]
    cases file : fs.isFile (directory.join fileName) with
    | true => rw [loaded file]
    | false => rfl

theorem nearest_congr {file : Path} (same : ∀ p ∈ candidates file, SameFile fs fs' p) :
    Resolver.nearest.resolve fs r file = Resolver.nearest.resolve fs' r file := by
  have found : resolveIn fs r (directories file) = resolveIn fs' r (directories file) :=
    resolveIn_congr fun d hd => same _ (List.mem_map_of_mem hd)
  simp only [Resolver.nearest, Nearest.resolve, found]

theorem after_congr {asked : List Path}
    (same : ∀ p ∈ asked, ∀ q ∈ candidates p, SameFile fs fs' q) :
    Resolver.nearest.after fs r asked = Resolver.nearest.after fs' r asked := by
  induction asked generalizing r with
  | nil => rfl
  | cons p rest ih =>
    have first := congrArg Prod.snd (@nearest_congr fs fs' r p (same p (List.mem_cons_self ..)))
    change Resolver.nearest.after fs (Resolver.nearest.resolve fs r p).2 rest = _
    rw [first, ih fun q hq => same q (List.mem_cons_of_mem _ hq)]
    rfl

end Nearest
end ParallelLint
