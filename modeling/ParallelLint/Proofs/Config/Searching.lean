import Mathlib.Data.List.Dedup
import ParallelLint.Proofs.Config.Resolving

set_option autoImplicit false

namespace ParallelLint
open Std

/-- The state after calls, each with the files that there are at its time. -/
def Resolver.through {σ : Type} (r : Resolver σ) (state : σ) (calls : List (FileSystem × Path)) : σ :=
  calls.foldl (fun state call => (r.resolve call.1 state call.2).2) state

namespace Nearest
variable {fs : FileSystem} {r : Nearest}

/-- What a search comes to, what is remembered after it, and the files that it has parsed. -/
structure Search where
  answer : Except LintError ResolvedConfig
  tables : Nearest
  parsed : List Path

def searchFile (fs : FileSystem) (r : Nearest) (file : Path) : Search :=
  match r.byFile.find? file with
  | some found => ⟨.ok found, r, []⟩
  | none =>
    match readConfig fs r.base file with
    | .error e => ⟨.error e, r, []⟩
    | .ok found => ⟨.ok found, { r with byFile := r.byFile.insert file found }, [file]⟩

def Search.remembering (directory : Path) (s : Search) : Search :=
  match s.answer with
  | .error _ => s
  | .ok found => { s with tables := s.tables.remember directory found }

/-- Looks through directories, the innermost first. All changes of the tables stay, also those before
a failure. -/
def searchIn (fs : FileSystem) (r : Nearest) : List Path → Search
  | [] => ⟨.ok r.baseConfig, r, []⟩
  | directory :: outer =>
    match r.byDirectory.find? directory with
    | some found => ⟨.ok found, r, []⟩
    | none =>
      let s :=
        if fs.isFile (directory.join fileName) then searchFile fs r (directory.join fileName)
        else if r.isRoot directory then ⟨.ok r.baseConfig, r, []⟩
        else searchIn fs r outer
      s.remembering directory

def search (fs : FileSystem) (r : Nearest) (file : Path) : Search := searchIn fs r (directories file)

/-- What all searches have in common: how they can end, and that answers are remembered on the way
back. -/
theorem searchIn_ind {P : Search → Prop} (base : P ⟨.ok r.baseConfig, r, []⟩)
    (known : ∀ directory found, r.byDirectory.find? directory = some found → P ⟨.ok found, r, []⟩)
    (file : ∀ file, P (searchFile fs r file))
    (remembering : ∀ directory s, P s → P (s.remembering directory)) (directories : List Path) :
    P (searchIn fs r directories) := by
  induction directories with
  | nil => exact base
  | cons directory outer ih =>
    rw [searchIn]
    split
    · rename_i found present
      exact known directory found present
    · refine remembering directory _ ?_
      split
      · exact file _
      split
      · exact base
      · exact ih

/-- A search that comes to a resolution, and leaves the tables as they were where there is none. -/
inductive Search.Comes (r : Nearest) (s : Search) :
    Except LintError (ResolvedConfig × Nearest) → Prop
  | found {config : ResolvedConfig} (answer : s.answer = .ok config) :
      Comes r s (.ok (config, s.tables))
  | failed {e : LintError} (answer : s.answer = .error e) (same : s.tables = r) :
      Comes r s (.error e)

theorem searchFile_comes (fs : FileSystem) (r : Nearest) (file : Path) :
    (searchFile fs r file).Comes r (loadFile fs r file) := by
  unfold searchFile loadFile
  cases r.byFile.find? file with
  | some found => exact .found rfl
  | none =>
    cases readConfig fs r.base file with
    | error e => exact .failed rfl rfl
    | ok found => exact .found rfl

theorem Search.Comes.remembering {s : Search} {x : Except LintError (ResolvedConfig × Nearest)}
    (comes : s.Comes r x) (directory : Path) :
    (s.remembering directory).Comes r (x.map fun a => (a.1, a.2.remember directory a.1)) := by
  unfold Search.remembering
  cases comes with
  | found answer =>
    simp only [answer]
    exact .found rfl
  | failed answer same =>
    simp only [answer]
    exact .failed answer same

theorem searchIn_comes (fs : FileSystem) (r : Nearest) (directories : List Path) :
    (searchIn fs r directories).Comes r (resolveIn fs r directories) := by
  induction directories with
  | nil => exact .found rfl
  | cons directory outer ih =>
    rw [searchIn, resolveIn_cons]
    cases r.byDirectory.find? directory with
    | some found => exact .found rfl
    | none =>
      refine Search.Comes.remembering ?_ directory
      unfold lookIn
      split
      · exact searchFile_comes fs r _
      split
      · exact .found rfl
      · exact ih

theorem search_comes (fs : FileSystem) (r : Nearest) (file : Path) :
    (search fs r file).Comes r (resolve fs r file) := searchIn_comes fs r _

theorem search_answer (fs : FileSystem) (r : Nearest) (file : Path) :
    (search fs r file).answer = (resolve fs r file).map Prod.fst := by
  have comes := search_comes fs r file
  revert comes
  generalize resolve fs r file = resolved
  rintro (⟨answer⟩ | ⟨answer, -⟩) <;> rw [answer] <;> rfl

theorem nearest_search (fs : FileSystem) (r : Nearest) (file : Path) :
    Resolver.nearest.resolve fs r file =
      ((search fs r file).answer.map some, (search fs r file).tables) := by
  have comes := search_comes fs r file
  simp only [Resolver.nearest]
  revert comes
  generalize resolve fs r file = resolved
  rintro (⟨answer⟩ | ⟨answer, same⟩)
  · rw [answer]
    rfl
  · rw [answer, same]
    rfl

theorem search_failed {file : Path} {e : LintError} (failed : (search fs r file).answer = .error e) :
    (search fs r file).tables = r := by
  have comes := search_comes fs r file
  revert comes
  generalize resolve fs r file = resolved
  rintro (⟨answer⟩ | ⟨-, same⟩)
  · rw [failed] at answer
    cases answer
  · exact same

/-- A search parses one file at most, one that it has not known, and then gives its configuration. -/
inductive Parses (fs : FileSystem) (r : Nearest) (s : Search) : Prop
  | nothing (parsed : s.parsed = []) (same : s.tables.byFile = r.byFile)
  | file {file : Path} {found : ResolvedConfig} (parsed : s.parsed = [file])
      (unknown : r.byFile.find? file = none) (read : readConfig fs r.base file = .ok found)
      (answer : s.answer = .ok found) (inserted : s.tables.byFile = r.byFile.insert file found)

theorem searchFile_parses (fs : FileSystem) (r : Nearest) (file : Path) :
    Parses fs r (searchFile fs r file) := by
  unfold searchFile
  split
  · exact .nothing rfl rfl
  · rename_i unknown
    split
    · exact .nothing rfl rfl
    · rename_i read
      exact .file rfl unknown read rfl rfl

theorem searchIn_parses (fs : FileSystem) (r : Nearest) (directories : List Path) :
    Parses fs r (searchIn fs r directories) := by
  refine searchIn_ind (.nothing rfl rfl) (fun _ _ _ => .nothing rfl rfl) (searchFile_parses fs r)
    (fun directory s parses => ?_) directories
  unfold Search.remembering
  split
  · exact parses
  · cases parses with
    | nothing parsed same => exact .nothing parsed same
    | file parsed unknown read answer inserted => exact .file parsed unknown read answer inserted

theorem search_kept {file known : Path} {config : ResolvedConfig}
    (before : r.byDirectory.find? known = some config) :
    (search fs r file).tables.byDirectory.find? known = some config := by
  have comes := search_comes fs r file
  cases resolved : resolve fs r file with
  | error e =>
    rw [resolved] at comes
    obtain _ | ⟨-, same⟩ := comes
    rwa [same]
  | ok a =>
    rw [resolved] at comes
    obtain ⟨-⟩ | _ := comes
    exact resolveIn_kept resolved before

def innermost (file : Path) : Path :=
  match file.parent? with
  | some directory => if directory.text = "" then ⟨"."⟩ else directory
  | none => ⟨"."⟩

theorem directories_innermost (file : Path) : ∃ outer, directories file = innermost file :: outer := by
  cases around : file.parent? with
  | none => exact ⟨[], by simp only [directories, innermost, around]⟩
  | some directory =>
    by_cases unnamed : directory.text = ""
    · exact ⟨[], by simp only [directories, innermost, around, if_pos unnamed]⟩
    · simp only [directories, innermost, around, if_neg unnamed]
      rw [Path.upward_eq]
      split
      · split <;> exact ⟨_, rfl⟩
      · exact ⟨_, rfl⟩

/-- The paths have the same parent. -/
def Beside (p q : Path) : Prop := p.parent?.map Path.parts = q.parent?.map Path.parts

theorem unnamed_iff (p : Path) : p.text = "" ↔ p.parts = [] := by
  constructor
  · intro unnamed
    have empty : p = ⟨""⟩ := by rw [← unnamed]
    rw [empty]
    decide
  · exact fun none => by_contra fun named => Path.parts_named named none

theorem Beside.innermost {p q : Path} (beside : Beside p q) :
    (innermost p).parts = (innermost q).parts := by
  unfold Beside at beside
  unfold Nearest.innermost
  cases hp : p.parent? <;> cases hq : q.parent? <;> simp only [hp, hq] at beside ⊢
  · cases beside
  · cases beside
  · have same := Option.some.inj beside
    simp only [unnamed_iff, same]
    split
    · rfl
    · exact same

theorem find_spelled (m : Sorted Path ResolvedConfig) {p q : Path} (same : p.parts = q.parts) :
    m.find? p = m.find? q := by
  have alike : ∀ k : Path, compare p k = compare q k := fun k =>
    TransCmp.congr_left (Path.compare_eq.2 same)
  simp only [Sorted.find?, alike]

theorem search_remembers {file : Path} {found : ResolvedConfig}
    (answer : (search fs r file).answer = .ok found) :
    (search fs r file).tables.byDirectory.find? (innermost file) = some found := by
  have comes := search_comes fs r file
  cases resolved : resolve fs r file with
  | error e =>
    rw [resolved] at comes
    obtain _ | ⟨failed, -⟩ := comes
    rw [answer] at failed
    cases failed
  | ok a =>
    rw [resolved] at comes
    obtain ⟨same⟩ | _ := comes
    rw [answer] at same
    cases same
    obtain ⟨outer, cut⟩ := directories_innermost file
    rw [resolve, cut] at resolved
    exact resolveIn_head resolved

theorem search_remembered {file : Path} {found : ResolvedConfig}
    (known : r.byDirectory.find? (innermost file) = some found) :
    (search fs r file).answer = .ok found := by
  obtain ⟨outer, cut⟩ := directories_innermost file
  rw [search, cut, searchIn, known]

def answers (r : Nearest) : List (FileSystem × Path) → List (Except LintError ResolvedConfig)
  | [] => []
  | (fs, file) :: rest => (search fs r file).answer :: answers (search fs r file).tables rest

/-- The configuration files that are parsed for calls. -/
def parsed (r : Nearest) : List (FileSystem × Path) → List Path
  | [] => []
  | (fs, file) :: rest => (search fs r file).parsed ++ parsed (search fs r file).tables rest

theorem through_cons (r : Nearest) (fs : FileSystem) (file : Path) (rest : List (FileSystem × Path)) :
    Resolver.nearest.through r ((fs, file) :: rest) =
      Resolver.nearest.through (search fs r file).tables rest := by
  rw [Resolver.through, List.foldl_cons, nearest_search]
  rfl

theorem through_kept {known : Path} {config : ResolvedConfig}
    (before : r.byDirectory.find? known = some config) (calls : List (FileSystem × Path)) :
    (Resolver.nearest.through r calls).byDirectory.find? known = some config := by
  induction calls generalizing r with
  | nil => exact before
  | cons call rest ih =>
    rw [through_cons]
    exact ih (search_kept before)

theorem nearest_settled {path other : Path} {found : Option ResolvedConfig}
    (answer : (Resolver.nearest.resolve fs r path).1 = .ok found) (beside : Beside path other)
    (calls : List (FileSystem × Path)) (fs' : FileSystem) :
    (Resolver.nearest.resolve fs' (Resolver.nearest.through r ((fs, path) :: calls)) other).1 =
      .ok found := by
  rw [nearest_search] at answer ⊢
  cases first : (search fs r path).answer with
  | error e =>
    rw [first] at answer
    cases answer
  | ok config =>
    rw [first] at answer
    have known := through_kept (search_remembers first) calls
    rw [← through_cons, find_spelled _ beside.innermost] at known
    simp only [search_remembered known]
    exact answer

theorem Parses.known {s : Search} (parses : Parses fs r s) (file : Path) :
    (s.tables.byFile.find? file).isSome = true ↔
      (r.byFile.find? file).isSome = true ∨ ∃ p ∈ s.parsed, p.parts = file.parts := by
  cases parses with
  | nothing parsed same => simp [parsed, same]
  | @file p found parsed unknown read answer inserted =>
    rw [inserted, parsed]
    by_cases same : p.parts = file.parts
    · simp [Sorted.find?_insert_same _ found (Path.compare_eq.2 same.symm), same]
    · have other : compare file p ≠ .eq := fun h => same (Path.compare_eq.1 h).symm
      simp [Sorted.find?_insert_other _ found other, same]

theorem Parses.loaded {s : Search} (parses : Parses fs r s) :
    s.tables.loadedFiles = r.loadedFiles + s.parsed.length := by
  cases parses with
  | nothing parsed same => rw [loadedFiles, same, parsed]; rfl
  | @file p found parsed unknown read answer inserted =>
    have new : ∀ e ∈ r.byFile.entries, compare p e.1 ≠ .eq := by
      intro e he same
      have there := (Sorted.find?_iff r.byFile).2 ⟨e.1, he, same⟩
      rw [unknown] at there
      cases there
    rw [loadedFiles, inserted, parsed]
    exact (Sorted.put_perm new).length_eq

theorem parsed_once (r : Nearest) (calls : List (FileSystem × Path)) :
    ((parsed r calls).map Path.parts).Nodup ∧ ∀ p ∈ parsed r calls, r.byFile.find? p = none := by
  induction calls generalizing r with
  | nil => simp [parsed]
  | cons call rest ih =>
    obtain ⟨fs, file⟩ := call
    obtain ⟨distinct, unknown⟩ := ih (search fs r file).tables
    have parses : Parses fs r (search fs r file) := searchIn_parses fs r _
    have new : ∀ p ∈ parsed (search fs r file).tables rest, r.byFile.find? p = none ∧
        ∀ q ∈ (search fs r file).parsed, q.parts ≠ p.parts := by
      intro p hp
      have absent : ((search fs r file).tables.byFile.find? p).isSome = false := by
        rw [unknown p hp]
        rfl
      have both := (not_congr (parses.known _)).1 (by rw [absent]; decide)
      rw [not_or] at both
      exact ⟨by simpa using both.1, fun q hq same => both.2 ⟨q, hq, same⟩⟩
    rw [parsed, List.map_append, List.nodup_append]
    refine ⟨⟨?_, distinct, ?_⟩, ?_⟩
    · cases parses with
      | nothing parsed => simp [parsed]
      | file parsed => simp [parsed]
    · intro x hx y hy
      obtain ⟨q, hq, rfl⟩ := List.mem_map.1 hx
      obtain ⟨p, hp, rfl⟩ := List.mem_map.1 hy
      exact (new p hp).2 q hq
    · intro p hp
      rcases List.mem_append.1 hp with hp | hp
      · cases parses with
        | nothing parsed => simp [parsed] at hp
        | file parsed absent =>
          rw [parsed, List.mem_singleton] at hp
          rw [hp]
          exact absent
      · exact (new p hp).1

theorem loadedFiles_through (r : Nearest) (calls : List (FileSystem × Path)) :
    (Resolver.nearest.through r calls).loadedFiles = r.loadedFiles + (parsed r calls).length := by
  induction calls generalizing r with
  | nil => rfl
  | cons call rest ih =>
    obtain ⟨fs, file⟩ := call
    have parses : Parses fs r (search fs r file) := searchIn_parses fs r _
    calc (Resolver.nearest.through r ((fs, file) :: rest)).loadedFiles
        = (search fs r file).tables.loadedFiles +
            (parsed (search fs r file).tables rest).length := by rw [through_cons, ih]
      _ = r.loadedFiles + (search fs r file).parsed.length +
            (parsed (search fs r file).tables rest).length := by rw [parses.loaded]
      _ = r.loadedFiles + (parsed r ((fs, file) :: rest)).length := by
          rw [parsed, List.length_append, Nat.add_assoc]

end Nearest
end ParallelLint
