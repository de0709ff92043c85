import Mathlib.Data.List.Induction
import ParallelLint.Cache.Location
import ParallelLint.Cache.Written
import ParallelLint.Proofs.FileSystem.Walks

set_option autoImplicit false

namespace ParallelLint

namespace FileSystem
variable {fs fs' fs'' : FileSystem} {p : Path} {location : Location}

/-- The bytes of the regular file at a location, if there is one. -/
def bytesAt? (fs : FileSystem) (location : Location) : Option Text.Bytes :=
  match fs.entry? location with
  | some (.file bytes _) => some bytes
  | _ => none

theorem bytesAt_iff {bytes : Text.Bytes} :
    fs.bytesAt? location = some bytes ↔
      ∃ modified, fs.entry? location = some (.file bytes modified) := by
  unfold bytesAt?
  cases fs.entry? location with
  | none => simp
  | some e => cases e <;> simp

/-- The same regular files hold the same bytes. -/
def SameFiles (fs fs' : FileSystem) : Prop := ∀ l, fs'.bytesAt? l = fs.bytesAt? l

/-- The regular file at a location is gone, if there was one, and the others are the same. -/
structure LosesFile (fs fs' : FileSystem) (location : Location) : Prop where
  gone : fs'.bytesAt? location = none
  others : ∀ l, l ≠ location → fs'.bytesAt? l = fs.bytesAt? l

/-- Every entry lies in a directory. -/
def IsTree (fs : FileSystem) : Prop :=
  ∀ l name, (fs.entry? (l ++ [name])).isSome → fs.entry? l = some .directory

theorem tree_of_listed (listed : ∀ f ∈ fs.entries, fs.entry? f.1.dropLast = some .directory) :
    fs.IsTree := by
  intro l name found
  have named : (fs.entries.lookup (l ++ [name])).isSome := by
    simpa [ entry?] using found
  obtain ⟨e, found⟩ := Option.isSome_iff_exists.1 named
  obtain ⟨before, after, entries, -⟩ := List.lookup_eq_some_iff.1 found
  have inside := listed (l ++ [name], e) (by simp [entries])
  rwa [List.dropLast_concat] at inside

theorem SameFiles.refl (fs : FileSystem) : fs.SameFiles fs := fun _ => rfl

theorem SameFiles.trans (h : fs.SameFiles fs') (h' : fs'.SameFiles fs'') : fs.SameFiles fs'' :=
  fun l => (h' l).trans (h l)

theorem LosesFile.trans (h : fs.LosesFile fs' location) (h' : fs'.SameFiles fs'') :
    fs.LosesFile fs'' location :=
  ⟨(h' location).trans h.gone, fun l other => (h' l).trans (h.others l other)⟩

theorem IsTree.below (tree : fs.IsTree) (plain : fs.entry? location ≠ some .directory)
    {rest : List String} (some : rest ≠ []) : fs.entry? (location ++ rest) = none := by
  induction rest using List.reverseRecOn with
  | nil => exact absurd rfl some
  | append_singleton before name ih =>
    rw [← List.append_assoc]
    cases there : fs.entry? (location ++ before ++ [name]) with
    | none => rfl
    | some e =>
      have directory := tree _ _ (by rw [there]; rfl)
      cases before with
      | nil =>
        rw [List.append_nil] at directory
        exact absurd directory plain
      | cons first more =>
        rw [ih (by simp)] at directory
        cases directory

theorem IsTree.get_erase (tree : fs.IsTree) (plain : fs.entry? location ≠ some .directory)
    {l : Location} (other : l ≠ location) :
    FileSystem.entry? (fs.erase location) l = fs.entry? l := by
  rw [entry_erase]
  by_cases below : l ≠ [] ∧ location.isPrefixOf l = true
  · obtain ⟨rest, rfl⟩ := List.isPrefixOf_iff_prefix.1 below.2
    have some : rest ≠ [] := by
      rintro rfl
      exact other (List.append_nil _)
    rw [if_pos below, tree.below plain some]
  · rw [if_neg below]

theorem get_erase_same (named : location ≠ []) :
    FileSystem.entry? (fs.erase location) location = none := by
  have here : location.isPrefixOf location = true :=
    List.isPrefixOf_iff_prefix.2 (List.prefix_refl _)
  rw [entry_erase, if_pos ⟨named, here⟩]

theorem erase_loses (tree : fs.IsTree) (plain : fs.entry? location ≠ some .directory) :
    fs.LosesFile (fs.erase location) location := by
  have named : location ≠ [] := by
    rintro rfl
    exact plain rfl
  constructor
  · rw [bytesAt?, get_erase_same named]
  · intro l other
    rw [bytesAt?, bytesAt?, tree.get_erase plain other]

theorem remove_ok (h : fs.remove p = .ok fs') :
    ∃ location, fs.placeOfEntry p = .ok (.found location) ∧
      fs.entry? location ≠ some .directory ∧ fs' = fs.erase location := by
  unfold remove at h
  split at h
  · cases h
  · cases h
  rename_i location place
  split at h
  · cases h
  rename_i plain
  simp only [Bool.or_eq_true, Bool.not_eq_true', decide_eq_true_eq, not_or] at plain
  split at h
  · cases h
  · cases h
    exact ⟨location, place, plain.2, rfl⟩

theorem remove_loses (tree : fs.IsTree) (h : fs.remove p = .ok fs') :
    ∃ location, fs.placeOfEntry p = .ok (.found location) ∧ fs.LosesFile fs' location := by
  obtain ⟨location, place, plain, rfl⟩ := remove_ok h
  exact ⟨location, place, erase_loses tree plain⟩

/-- Nothing is new but directories. -/
structure Grows (fs fs' : FileSystem) : Prop where
  origin : fs'.workingDirectory = fs.workingDirectory
  entries : ∀ l, fs'.entry? l = fs.entry? l ∨
    fs.entry? l = none ∧ fs'.entry? l = some .directory

theorem Grows.refl (fs : FileSystem) : fs.Grows fs := ⟨rfl, fun _ => .inl rfl⟩

theorem Grows.trans (h : fs.Grows fs') (h' : fs'.Grows fs'') : fs.Grows fs'' := by
  refine ⟨h'.origin.trans h.origin, fun l => ?_⟩
  rcases h.entries l with same | ⟨free, made⟩
  · rw [← same]
    exact h'.entries l
  · rcases h'.entries l with same | ⟨free', -⟩
    · exact .inr ⟨free, same.trans made⟩
    · rw [made] at free'
      cases free'

theorem Grows.sameFiles (h : fs.Grows fs') : fs.SameFiles fs' := by
  intro l
  rcases h.entries l with same | ⟨free, made⟩
  · rw [bytesAt?, bytesAt?, same]
  · rw [bytesAt?, bytesAt?, free, made]

theorem Grows.within (h : fs.Grows fs') : fs.Within fs' := by
  refine ⟨h.origin.symm, fun l e found => ?_⟩
  rcases h.entries l with same | ⟨free, -⟩
  · rw [same, found]
  · rw [free] at found
    cases found

theorem set_directory_grows (free : fs.entry? location = none) :
    fs.Grows (fs.set location .directory) := by
  have named : location ≠ [] := by
    rintro rfl
    cases free
  refine ⟨rfl, fun l => ?_⟩
  by_cases same : l = location
  · exact .inr ⟨same ▸ free, by rw [same, get_set_same named]⟩
  · exact .inl (get_set_other same _)

theorem relist_grows (fs : FileSystem) (directory : Location) : fs.Grows (fs.relist directory) :=
  ⟨rfl, fun _ => .inl rfl⟩

theorem relistAt_grows (fs : FileSystem) (p : Path) : fs.Grows (fs.relistAt p) := by
  unfold relistAt
  split
  · exact relist_grows fs _
  · exact .refl fs

theorem createDirectory_grows (h : fs.createDirectory p = .ok fs') : fs.Grows fs' := by
  unfold createDirectory at h
  split at h
  · cases h
  · cases h
  · rename_i location free
    cases h
    unfold placeOfEntry follow at free
    split at free
    · cases free
    · exact (set_directory_grows (walk_free free)).trans (relist_grows _ _)

/-- What holds through the making of every directory holds when missing parents are made. -/
theorem createDirectoriesWithin_keeps {Holds : FileSystem → Prop}
    (step : ∀ {fs fs' : FileSystem} {p : Path}, fs.createDirectory p = .ok fs' → Holds fs → Holds fs')
    (holds : Holds fs) (p : Path) (depth : Nat) : Holds (fs.createDirectoriesWithin p depth).2 := by
  have ensured : ∀ (fs : FileSystem) (p : Path), Holds fs → Holds (fs.ensureDirectory p).2 := by
    intro fs p holds
    unfold ensureDirectory
    split
    · rename_i made
      exact step made holds
    · exact holds
  induction depth generalizing p with
  | zero => exact holds
  | succ depth ih =>
    have here := ensured fs p holds
    rw [createDirectoriesWithin]
    split
    · exact holds
    split
    · rename_i e fs₁ failed
      rw [failed] at here
      split
      · exact here
      split
      · exact here
      rename_i parent around
      have same : fs₁ = fs := by
        unfold ensureDirectory at failed
        split at failed
        · cases failed
        · split at failed <;> cases failed
          rfl
      subst same
      have outer := ih parent
      split
      · rename_i fs₂ made
        rw [made] at outer
        exact ensured fs₂ p outer
      · exact outer
    · exact here

theorem createDirectoriesWithin_grows (fs : FileSystem) (p : Path) (depth : Nat) :
    fs.Grows (fs.createDirectoriesWithin p depth).2 :=
  createDirectoriesWithin_keeps (fun made grows => grows.trans (createDirectory_grows made))
    (.refl fs) p depth

theorem walk_free_inside {purpose : Purpose} {links : Nat} {here : Location} {todo : List Step}
    (h : fs.walk purpose links here todo = .ok (.free location)) :
    fs.entry? location.dropLast = some .directory := by
  fun_induction walk fs purpose links here todo with
  | case2 _ _ _ _ ih | case3 _ _ _ _ ih | case4 _ _ _ _ ih => exact ih h
  | case11 _ _ _ _ _ _ _ _ _ _ ih => exact ih h
  | case12 _ _ _ _ _ _ _ _ _ _ ih => exact ih h
  | case7 links here rest directory =>
    cases h
    rwa [List.dropLast_concat]
  | _ => cases h

theorem IsTree.set (tree : fs.IsTree) {e : Entry}
    (inside : fs.entry? location.dropLast = some .directory)
    (plain : fs.entry? location = some .directory → e = .directory) :
    (fs.set location e).IsTree := by
  intro l name found
  by_cases root : location = []
  · -- the root is a directory whatever is put there
    subst root
    have same : ∀ m, FileSystem.entry? (fs.set [] e) m = fs.entry? m := by
      intro m
      by_cases top : m = []
      · rw [top, entry?_root, entry?_root]
      · exact get_set_other top e
    rw [same] at found ⊢
    exact tree l name found
  have outer : fs.entry? l = some .directory := by
    by_cases same : l ++ [name] = location
    · rwa [← same, List.dropLast_concat] at inside
    · rw [get_set_other same] at found
      exact tree l name found
  by_cases same : l = location
  · rw [same, get_set_same root, plain (same ▸ outer)]
  · rw [get_set_other same, outer]

theorem createDirectory_tree (h : fs.createDirectory p = .ok fs') (tree : fs.IsTree) :
    fs'.IsTree := by
  unfold createDirectory at h
  split at h
  · cases h
  · cases h
  · rename_i location free
    cases h
    unfold placeOfEntry follow at free
    split at free
    · cases free
    · exact tree.set (walk_free_inside free) fun _ => rfl

theorem createDirectories_tree (tree : fs.IsTree) (p : Path) : (fs.createDirectories p).2.IsTree :=
  createDirectoriesWithin_keeps createDirectory_tree tree p _

end FileSystem

namespace Cache
open FileSystem

theorem save_failed_same {c : Cache} {fs fs' : FileSystem} {e : LintError}
    (h : c.save fs = (.error e, fs')) : fs.SameFiles fs' := by
  have made := (createDirectoriesWithin_grows fs c.directory
    (c.directory.parts.length + 1)).sameFiles
  unfold save createDirectories at h
  split at h
  · rename_i failed
    rw [failed] at made
    cases h
    exact made
  · rename_i prepared ready
    rw [ready] at made
    split at h
    · cases h
      exact made.trans (relistAt_grows prepared _).sameFiles
    · cases h

theorem delete_loses {fs fs' : FileSystem} {path : Path} {answer : Except LintError Bool}
    (tree : fs.IsTree) (h : delete fs path = (answer, fs')) :
    fs' = fs ∨ (∃ found, answer = .ok found) ∧
      ∃ location, fs.placeOfEntry path = .ok (.found location) ∧ fs.LosesFile fs' location := by
  unfold delete at h
  split at h
  · rename_i removed
    cases h
    exact .inr ⟨⟨_, rfl⟩, remove_loses tree removed⟩
  · split at h <;> cases h <;> exact .inl rfl

end Cache
end ParallelLint
