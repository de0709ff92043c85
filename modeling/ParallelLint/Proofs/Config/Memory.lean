import ParallelLint.Proofs.Config.Searching
import ParallelLint.Proofs.Dispatch.Repeating

set_option autoImplicit false

/-!
What is remembered makes no difference to what is found, as long as all spellings of a configuration
file lead to it or none does. The configuration files that are counted as loaded are those in which
some answer was found.
-/
namespace ParallelLint.Nearest
open Std
variable {fs : FileSystem} {r : Nearest}

/-- Equal but for the spelling of the path at which a configuration was found. -/
def Agrees (a b : Except LintError ResolvedConfig) : Prop := a.map sight = b.map sight

theorem Agrees.of_sight {a b : Except LintError ResolvedConfig} (success : sight? a = sight? b)
    (failure : ∀ e, a = .error e → b = .error e) : Agrees a b := by
  cases a with
  | error e => rw [failure e rfl, Agrees]
  | ok found =>
    cases b with
    | error e => cases success
    | ok found' => exact congrArg Except.ok (Option.some.inj success)

theorem lookIn_failed {directory : Path} {outer : List Path} {e : LintError}
    (around : ∀ e, resolveIn fs r outer = .error e → plain fs r.base r.root outer = .error e)
    (failed : lookIn fs r directory outer = .error e) :
    plain fs r.base r.root (directory :: outer) = .error e := by
  rw [plain]
  unfold lookIn at failed
  split at failed
  · rename_i there
    rw [if_pos there]
    unfold loadFile at failed
    split at failed
    · cases failed
    · split at failed
      · cases failed
      · rename_i unread
        cases failed
        exact unread
  · rename_i missing
    rw [if_neg missing]
    rw [isRoot] at failed
    split at failed
    · cases failed
    · rename_i inner
      rw [if_neg inner]
      exact around e failed

theorem resolveIn_failed {directories : List Path} {e : LintError}
    (failed : resolveIn fs r directories = .error e) :
    plain fs r.base r.root directories = .error e := by
  induction directories generalizing e with
  | nil => cases failed
  | cons directory outer ih =>
    rw [resolveIn_cons] at failed
    split at failed
    · cases failed
    · cases looked : lookIn fs r directory outer with
      | ok a =>
        rw [looked] at failed
        cases failed
      | error e' =>
        rw [looked] at failed
        cases failed
        exact lookIn_failed (fun _ => ih) looked

theorem search_failure {file : Path} {e : LintError}
    (failed : (search fs r file).answer = .error e) :
    plain fs r.base r.root (directories file) = .error e := by
  rw [search_answer, resolve] at failed
  refine resolveIn_failed ?_
  generalize resolveIn fs r (directories file) = found at failed ⊢
  cases found <;> cases failed
  rfl

theorem remember_answer (directory : Path) (x : Except LintError (ResolvedConfig × Nearest)) :
    (x.map fun a => (a.1, a.2.remember directory a.1)).map Prod.fst = x.map Prod.fst := by
  cases x <;> rfl

theorem resolveIn_blank (directories : List Path) (blank : ∀ p, r.byDirectory.find? p = none)
    (unloaded : ∀ p, r.byFile.find? p = none) :
    (resolveIn fs r directories).map Prod.fst = plain fs r.base r.root directories := by
  induction directories with
  | nil => rfl
  | cons directory outer ih =>
    rw [resolveIn_cons, blank]
    simp only [remember_answer]
    rw [plain, lookIn, isRoot]
    split
    · simp only [loadFile, unloaded]
      cases readConfig fs r.base (directory.join fileName) <;> rfl
    split
    · rfl
    · exact ih

theorem search_fresh (fs : FileSystem) (base : Config) (root : Option Path) (file : Path) :
    (search fs (.fresh base root) file).answer = plain fs base root (directories file) := by
  rw [search_answer, resolve]
  exact resolveIn_blank (r := .fresh base root) _ (fun _ => rfl) fun _ => rfl

theorem search_agrees {base : Config} {root : Option Path} {asked : List Path} {file : Path}
    (spelled : SpelledAlike fs (file :: asked)) :
    Agrees (search fs (Resolver.nearest.after fs (.fresh base root) asked) file).answer
      (search fs (.fresh base root) file).answer := by
  have listed : ∀ p ∈ asked, p ∈ file :: asked := fun p hp => List.mem_cons_of_mem _ hp
  have later := (@fresh_consistent _ sight? (Searched (file :: asked)) fs base root).after
    (spelled_alike spelled base root) fun p hp => searched_directories (listed p hp)
  rw [search_fresh, search_answer]
  refine .of_sight (resolve_sight spelled listed (List.mem_cons_self ..)) fun e failed => ?_
  have found := search_failure (search_answer fs _ file ▸ failed)
  rwa [later.sameBase, later.sameRoot] at found

def Known (r : Nearest) (p : Path) : Prop := (r.byFile.find? p).isSome = true

/-- The configuration comes from a file that is known. -/
def Backed (r : Nearest) (found : ResolvedConfig) : Prop := ∀ p, found.source = some p → r.Known p

/-- All that is remembered comes from files that are known. -/
structure Sourced (r : Nearest) : Prop where
  directories : ∀ e ∈ r.byDirectory.entries, r.Backed e.2
  files : ∀ e ∈ r.byFile.entries, e.2.source.map Path.parts = some e.1.parts

theorem fresh_sourced (base : Config) (root : Option Path) : (fresh base root).Sourced :=
  ⟨by simp [fresh, Sorted.empty], by simp [fresh, Sorted.empty]⟩

theorem Known.spelled {p q : Path} (h : r.Known p) (same : p.parts = q.parts) : r.Known q := by
  rwa [Known, ← find_spelled _ same]

theorem readConfig_source {base : Config} {file : Path} {found : ResolvedConfig}
    (read : readConfig fs base file = .ok found) : found.source = some file := by
  unfold readConfig at read
  split at read
  · cases read
  split at read <;> cases read
  rfl

theorem Backed.mono {s : Nearest} {found : ResolvedConfig} (h : r.Backed found)
    (kept : ∀ p, r.Known p → s.Known p) : s.Backed found := fun p source => kept p (h p source)

theorem Sourced.remember (h : r.Sourced) {directory : Path} {found : ResolvedConfig}
    (backed : r.Backed found) : (r.remember directory found).Sourced := by
  refine ⟨fun e he => ?_, h.files⟩
  rcases mem_inserted he with he | ⟨-, value⟩
  · exact h.directories e he
  · rw [value]
    exact backed

/-- What a search leaves and what it answers come from files that are known then. -/
def Search.Sourced (s : Search) : Prop :=
  s.tables.Sourced ∧ ∀ found, s.answer = .ok found → s.tables.Backed found

theorem searchFile_sourced (h : r.Sourced) (file : Path) : (searchFile fs r file).Sourced := by
  have kept : ∀ p, r.Known p → (searchFile fs r file).tables.Known p := fun p known =>
    ((searchFile_parses fs r file).known _).2 (.inl known)
  unfold searchFile at kept ⊢
  cases present : r.byFile.find? file with
  | some config =>
    refine ⟨h, ?_⟩
    rintro found ⟨⟩ p source
    obtain ⟨key, mem, same⟩ := mem_found present
    have parts := h.files _ mem
    rw [source, Option.map_some, Option.some.injEq] at parts
    have known : r.Known file := by rw [Known, present]; rfl
    exact known.spelled (same.trans parts.symm)
  | none =>
    simp only [present] at kept
    cases read : readConfig fs r.base file with
    | error e => exact ⟨h, by rintro found ⟨⟩⟩
    | ok config =>
      simp only [read] at kept
      have source := readConfig_source read
      refine ⟨⟨fun e he => (h.directories e he).mono kept, fun e he => ?_⟩, ?_⟩
      · rcases mem_inserted he with he | ⟨key, value⟩
        · exact h.files e he
        · rw [value, source, key]
          rfl
      · rintro found ⟨⟩ p same
        rw [source] at same
        cases same
        have known := Sorted.find?_insert_same r.byFile config (Path.compare_eq.2 (Eq.refl file.parts))
        rw [Known, known]
        rfl

theorem searchIn_sourced (h : r.Sourced) (directories : List Path) :
    (searchIn fs r directories).Sourced := by
  have base : (⟨.ok r.baseConfig, r, []⟩ : Search).Sourced :=
    ⟨h, by rintro found ⟨⟩ p ⟨⟩⟩
  refine searchIn_ind base (fun directory found present => ?_) (searchFile_sourced h)
    (fun directory s sourced => ?_) directories
  · obtain ⟨key, mem, -⟩ := mem_found present
    exact ⟨h, by rintro found ⟨⟩; exact h.directories _ mem⟩
  · obtain ⟨sourced, backed⟩ := sourced
    unfold Search.remembering
    split
    · exact ⟨sourced, backed⟩
    · rename_i found answer
      exact ⟨sourced.remember (backed found answer), fun found' same => backed found' same⟩

def sources (answers : List (Except LintError ResolvedConfig)) : List Path :=
  answers.filterMap fun answer => answer.toOption.bind ResolvedConfig.source

theorem known_through {calls : List (FileSystem × Path)} {p : Path} :
    (Resolver.nearest.through r calls).Known p ↔
      r.Known p ∨ ∃ q ∈ parsed r calls, q.parts = p.parts := by
  induction calls generalizing r with
  | nil => simp [Resolver.through, parsed]
  | cons call rest ih =>
    obtain ⟨fs, file⟩ := call
    have first := (searchIn_parses fs r (directories file)).known p
    calc (Resolver.nearest.through r ((fs, file) :: rest)).Known p
        ↔ (search fs r file).tables.Known p ∨
            ∃ q ∈ parsed (search fs r file).tables rest, q.parts = p.parts := by
          rw [through_cons, ih]
      _ ↔ r.Known p ∨ (∃ q ∈ (search fs r file).parsed, q.parts = p.parts) ∨
            ∃ q ∈ parsed (search fs r file).tables rest, q.parts = p.parts := by
          rw [Known, search, first, or_assoc, Known]
      _ ↔ r.Known p ∨ ∃ q ∈ parsed r ((fs, file) :: rest), q.parts = p.parts := by
          simp only [parsed, List.mem_append, or_and_right, exists_or]

/-- Every file that is parsed gives an answer, and every answer is found in a file that is known. -/
theorem sources_through (h : r.Sourced) (calls : List (FileSystem × Path)) :
    (∀ p ∈ parsed r calls, p ∈ sources (answers r calls)) ∧
      ∀ p ∈ sources (answers r calls), (Resolver.nearest.through r calls).Known p := by
  induction calls generalizing r with
  | nil => simp [parsed, sources, answers]
  | cons call rest ih =>
    obtain ⟨fs, file⟩ := call
    have parses : Parses fs r (search fs r file) := searchIn_parses fs r _
    obtain ⟨sourced, backed⟩ : (search fs r file).Sourced := searchIn_sourced h _
    obtain ⟨given, known⟩ := ih sourced
    have cons : ∀ p, p ∈ sources (answers r ((fs, file) :: rest)) ↔
        (∃ found, (search fs r file).answer = .ok found ∧ found.source = some p) ∨
          p ∈ sources (answers (search fs r file).tables rest) := by
      intro p
      rw [answers, sources, List.filterMap_cons]
      cases (search fs r file).answer with
      | error e => simp [sources, Except.toOption]
      | ok found => cases source : found.source <;> simp [sources, Except.toOption, source, eq_comm]
    constructor
    · intro p hp
      rw [parsed] at hp
      rcases List.mem_append.1 hp with hp | hp
      · cases parses with
        | nothing parsed => simp [parsed] at hp
        | file parsed unknown read answer inserted =>
          rw [parsed, List.mem_singleton] at hp
          exact (cons p).2 (.inl ⟨_, answer, hp ▸ readConfig_source read⟩)
      · exact (cons p).2 (.inr (given p hp))
    · intro p hp
      rw [through_cons]
      rcases (cons p).1 hp with ⟨found, answer, source⟩ | hp
      · exact known_through.2 (.inl (backed found answer p source))
      · exact known p hp

theorem loadedFiles_sources (base : Config) (root : Option Path) (calls : List (FileSystem × Path)) :
    (Resolver.nearest.through (.fresh base root) calls).loadedFiles =
      ((sources (answers (.fresh base root) calls)).map Path.parts).dedup.length := by
  obtain ⟨once, -⟩ := parsed_once (.fresh base root) calls
  obtain ⟨given, known⟩ := sources_through (fresh_sourced base root) calls
  have same : ∀ x, x ∈ (parsed (.fresh base root) calls).map Path.parts ↔
      x ∈ ((sources (answers (.fresh base root) calls)).map Path.parts).dedup := by
    intro x
    rw [List.mem_dedup]
    constructor
    · rintro hx
      obtain ⟨p, hp, rfl⟩ := List.mem_map.1 hx
      exact List.mem_map_of_mem (given p hp)
    · intro hx
      obtain ⟨p, hp, rfl⟩ := List.mem_map.1 hx
      rcases known_through.1 (known p hp) with impossible | ⟨q, hq, equal⟩
      · cases impossible
      · exact equal ▸ List.mem_map_of_mem hq
  have perm := (List.perm_ext_iff_of_nodup once (List.nodup_dedup _)).2 same
  rw [loadedFiles_through, ← perm.length_eq, List.length_map]
  exact Nat.zero_add _

theorem after_calls (fs : FileSystem) (r : Nearest) (asked : List Path) (file : Path) :
    Resolver.nearest.through r ((asked ++ [file]).map fun p => (fs, p)) =
      (search fs (Resolver.nearest.after fs r asked) file).tables := by
  have last := nearest_search fs (Resolver.nearest.after fs r asked) file
  rw [Resolver.through, List.foldl_map, List.foldl_append]
  exact congrArg Prod.snd last

/-- After any calls on the same files a resolver finds what a new one finds, which is what there is on
the way up. A call that fails leaves what is remembered as it was, and the files that are counted as
loaded are those in which some answer was found. -/
theorem search_transparent {fs : FileSystem} {base : Config} {root : Option Path}
    {asked : List Path} {file : Path} (spelled : SpelledAlike fs (file :: asked)) :
    let state := Resolver.nearest.after fs (.fresh base root) asked
    let s := search fs state file
    Resolver.nearest.resolve fs state file = (s.answer.map some, s.tables) ∧
      Agrees s.answer (search fs (.fresh base root) file).answer ∧
      (search fs (.fresh base root) file).answer = plain fs base root (directories file) ∧
      (∀ e, s.answer = .error e → s.tables = state) ∧
      s.tables.loadedFiles = ((sources (answers (.fresh base root)
        ((asked ++ [file]).map fun p => (fs, p)))).map Path.parts).dedup.length := by
  intro state s
  refine ⟨nearest_search fs state file, search_agrees spelled, search_fresh fs base root file,
    fun e failed => search_failed failed, ?_⟩
  rw [← loadedFiles_sources, after_calls]

theorem normal_spelled (fs : FileSystem) {paths : List Path} (normal : ∀ p ∈ paths, p.Normal) :
    SpelledAlike fs paths := by
  have candidate : ∀ p ∈ paths, ∀ q ∈ candidates p, q.Normal := by
    intro p hp q hq
    obtain ⟨d, hd, rfl⟩ := List.mem_map.1 hq
    obtain ⟨clean, named⟩ := directories_normal (normal p hp) d hd
    exact clean.join named fileName_own.1 fileName_own.2
  intro p hp q hq p' hp' q' hq' same
  rw [(candidate p hp q hq).eq (candidate p' hp' q' hq') same]

theorem search_transparent_unreadable :
    let fs : FileSystem := ⟨[(["d"], .directory), (["d", ".lintpool.toml"], .file [255] 1)], [], 0⟩
    SpelledAlike fs [⟨"/d/f"⟩, ⟨"/d/g"⟩] ∧
      Agrees (search fs (Resolver.nearest.after fs (.fresh .empty none) [⟨"/d/g"⟩]) ⟨"/d/f"⟩).answer
        (search fs (.fresh .empty none) ⟨"/d/f"⟩).answer := by
  intro fs
  have spelled : SpelledAlike fs [⟨"/d/f"⟩, ⟨"/d/g"⟩] := by
    refine normal_spelled fs fun p hp => ?_
    rcases List.mem_pair.1 hp with rfl | rfl <;> (rw [Path.Normal]; decide)
  exact ⟨spelled, (search_transparent spelled).2.1⟩

theorem search_misled {n : Nat} (long : 4096 ≤ n) (sample : fs.HasUnreadable) (base : Config) :
    let fresh := Nearest.fresh base (some ⟨"/d"⟩)
    ¬Agrees (search fs (Resolver.nearest.after fs fresh [Path.padded n ["d", "g"]]) ⟨"/d/f"⟩).answer
      (search fs fresh ⟨"/d/f"⟩).answer := by
  intro fresh agrees
  obtain ⟨first, second⟩ := FileSystem.HasUnreadable.resolved long fs base
  obtain ⟨e, failed⟩ := sample.unresolved base (some ⟨"/d"⟩)
  have state : Resolver.nearest.after fs fresh [Path.padded n ["d", "g"]] =
      fresh.remember (Path.padded n ["d"]) (.ofConfig base none) := congrArg Prod.snd first
  rw [nearest_search] at failed second
  rw [state] at agrees
  generalize (search fs fresh ⟨"/d/f"⟩).answer = alone at agrees failed
  generalize (search fs _ ⟨"/d/f"⟩).answer = answer at agrees second
  cases alone with
  | ok found => cases failed
  | error e =>
    cases answer with
    | error e => cases second
    | ok found => cases agrees

theorem search_not_transparent :
    ¬∀ (fs : FileSystem) (base : Config) (root : Option Path) (asked : List Path) (file : Path),
      Agrees (search fs (Resolver.nearest.after fs (.fresh base root) asked) file).answer
        (search fs (.fresh base root) file).answer := fun transparent =>
  @search_misled ⟨[(["d"], .directory), (["d", ".lintpool.toml"], .file [255] 1)], [], 0⟩ 4096
    (Nat.le_refl 4096) ⟨rfl, rfl, rfl, rfl⟩ .empty
    (transparent _ .empty (some ⟨"/d"⟩) [Path.padded 4096 ["d", "g"]] ⟨"/d/f"⟩)

end ParallelLint.Nearest
