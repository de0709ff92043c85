import ParallelLint.Proofs.FileSystem.Straight
import ParallelLint.Proofs.FileSystem.Top

set_option autoImplicit false

namespace ParallelLint
open FileSystem ParallelLint.Path

theorem Text.hex_plain {bytes : Text.Bytes} {c : Char} (h : c ∈ (Text.hex bytes).toList) :
    c ≠ '/' ∧ c ≠ Char.ofNat 0 := by
  have digit : ∀ n < 16, Text.hexDigit n ≠ '/' ∧ Text.hexDigit n ≠ Char.ofNat 0 := by decide
  rw [Text.hex, String.toList_ofList] at h
  obtain ⟨b, -, mem⟩ := List.mem_flatMap.1 h
  have small := b.toNat_lt
  rcases List.mem_pair.1 mem with rfl | rfl
  · exact digit _ (by omega)
  · exact digit _ (by omega)

theorem Text.ofList_size (chars : List Char) :
    (String.ofList chars).utf8ByteSize ≤ 4 * chars.length := by
  induction chars with
  | nil => decide
  | cons c rest ih =>
    have size := c.utf8Size_le_four
    rw [String.ofList_cons, String.utf8ByteSize_append, String.utf8ByteSize_singleton,
      List.length_cons]
    omega

theorem FileSystem.steps_join {p : Path} {name : String} (named : p.text ≠ "")
    (own : OwnName name) : steps (p.join ⟨name⟩) = walked p.text ++ [.name name] := by
  have single : walked name = [.name name] := by
    have steps := top_steps own
    rwa [steps_noSlash (top_noSlash own), top, walked_append] at steps
  have noSlash : ∀ before : String, (before ++ "/" ++ name).toList.getLast? ≠ some '/' := by
    intro before last
    have ends := top_noSlash own
    rw [top_text] at ends
    refine ends ?_
    rwa [String.append_assoc, String.toList_append, String.toList_append,
      List.getLast?_append_of_ne_nil _ (by simp)] at last
  have split (before : String) (joined : p.join ⟨name⟩ = ⟨before ++ "/" ++ name⟩) :
      steps (p.join ⟨name⟩) = walked before ++ [.name name] :=
    calc steps (p.join ⟨name⟩) = walked (before ++ "/" ++ name) := by
          rw [joined, steps_noSlash (noSlash before)]
      _ = walked before ++ [.name name] := by rw [walked_append, single]
  rcases join_name named own.clean with ⟨before, text, joined, -⟩ | ⟨-, joined, -⟩
  · -- the slash at the end of the path is no step
    have none : walked (before ++ "/" ++ "") = walked before ++ [] := walked_append before ""
    rw [String.append_empty, List.append_nil, ← text] at none
    rw [split before joined, none]
  · exact split p.text joined

theorem FileSystem.Inside.joined {fs : FileSystem} {p : Path} {name : String}
    {home : Location} (h : fs.Inside (p.join ⟨name⟩) (walked p.text) name home)
    (named : p.text ≠ "") (own : OwnName name) : fs.isDirectory p = true :=
  h.around (begins_join named (slashless_relative own.clean))

theorem FileSystem.inside_joined {fs : FileSystem} {p : Path} {name : String}
    (directory : fs.isDirectory p = true) (named : p.text ≠ "") (own : OwnName name)
    (accepted : refused? (p.join ⟨name⟩) = none) :
    ∃ home, fs.Inside (p.join ⟨name⟩) (walked p.text) name home := by
  obtain ⟨-, l, leads, found⟩ := isDirectory_iff.1 directory
  obtain ⟨home, leads, found⟩ : ∃ home,
      Leads fs .content linkLimit (fs.origin p) (walked p.text) home ∧
        fs.entry? home = some .directory := by
    rcases steps_cases p with steps | steps
    · exact ⟨l, steps ▸ leads, found⟩
    · exact leads.split steps (by simp)
  have origin : fs.origin (p.join ⟨name⟩) = fs.origin p := by
    rcases join_name named own.clean with ⟨before, text, joined, -⟩ | ⟨-, joined, -⟩
    · have whole : p = ⟨before ++ "/"⟩ := by rw [← text]
      rw [joined, origin_begins fs name (by simp), ← whole]
    · rw [joined, origin_append fs name named]
  exact ⟨home, accepted, steps_join named own, origin ▸ leads, found, own.short⟩

namespace Cache
variable {fs fs' : FileSystem} {c : Cache} {location directory : Path} {place : Place} {l : Location}

theorem sharedName_own (directory : Path) : OwnName (sharedName directory).text := by
  obtain ⟨digits, text, plain, few⟩ : ∃ digits,
      (sharedName directory).text = ".lintpoolcache_" ++ String.ofList digits ∧
      (∀ c ∈ digits, c ≠ '/' ∧ c ≠ Char.ofNat 0) ∧ digits.length ≤ 16 :=
    ⟨_, rfl, fun _ hc => Text.hex_plain (List.mem_of_mem_take hc), List.length_take_le ..⟩
  rw [text]
  have lead : OwnName ".lintpoolcache_" := by decide
  have joined : ∀ c, c ∈ (".lintpoolcache_" ++ String.ofList digits).toList ↔
      c ∈ ".lintpoolcache_".toList ∨ c ∈ digits := by
    intro c
    rw [String.toList_append, List.mem_append, String.toList_ofList (l := digits)]
  have other : ∀ s : String, s.toList.length < 15 →
      ".lintpoolcache_" ++ String.ofList digits ≠ s := by
    rintro s short rfl
    rw [String.toList_append, List.length_append] at short
    have first : ".lintpoolcache_".toList.length = 15 := by decide
    omega
  have size := Text.ofList_size digits
  have first : ".lintpoolcache_".utf8ByteSize = 15 := by decide
  refine ⟨fun slash => ?_, ?_, other _ (by decide), ?_, fun zero => ?_⟩
  · exact ((joined _).1 slash).elim lead.clean fun slash => (plain _ slash).1 rfl
  · simp only [isVoid, other "" (by decide), other "." (by decide), decide_false, Bool.or_self]
  · rw [String.utf8ByteSize_append]
    omega
  · exact ((joined _).1 zero).elim lead.noZero fun zero => (plain _ zero).2 rfl

theorem sharedName_spelled (directory : Path) :
    ∃ name, OwnName name ∧ sharedName directory = ⟨name⟩ := ⟨_, sharedName_own directory, rfl⟩

theorem shared_cut (shared : namesDirectory fs location directory = true) :
    ∃ before name, sharedName directory = ⟨name⟩ ∧
      steps (locate fs location directory) = before ++ [.name name] := by
  obtain ⟨name, own, spelled⟩ := sharedName_spelled directory
  have named : (directory.join location).text ≠ "" := by
    rcases Bool.or_eq_true_iff.1 shared with slash | there
    · intro empty
      have none : location.text = "" := by
        unfold Path.join at empty
        split at empty
        · exact empty
        · split at empty <;> simp only [String.append_eq_empty_iff] at empty <;> exact empty.2
      rw [none] at slash
      cases slash
    · exact directory_named there
  rw [locate, if_pos shared, spelled]
  exact ⟨_, name, rfl, steps_join named own⟩

theorem load_status {path : Path} {strategy : CacheStrategy} {cache : Cache}
    (h : load fs path strategy = .ok cache) :
    fs.status path ≠ .error .tooManyLinks ∧ fs.isDirectory path ≠ true := by
  constructor
  · intro status
    rw [load, FileSystem.read, status] at h
    cases h
  · intro directory
    obtain ⟨listing, status⟩ := isDirectory_status.1 directory
    rw [load, FileSystem.read, status] at h
    cases h

theorem save_place (h : c.save fs = (.ok (), fs')) :
    ∃ place l, Replaceable (fs.createDirectories c.directory).2 c.path place l ∧
      fs' = (fs.createDirectories c.directory).2.set l
        (.file c.bytes (fs.createDirectories c.directory).2.clock) := by
  obtain ⟨prepared, made, replaced⟩ := save_ok h
  rw [made]
  exact replace_cases replaced

theorem directory_there {before : List Step} {name : String} {home : Location}
    (inside : fs.Inside c.path before name home) : (fs.createDirectories c.directory).2 = fs := by
  rcases c.directory_cases with dot | ⟨around, named⟩
  · obtain ⟨e, same⟩ := createDirectories_dot fs
    rw [dot, same]
  · have there := inside.around (begins_parent around named)
    rw [createDirectories_there named there]

theorem save_in_directory {p : Path} {name : String} {strategy : CacheStrategy} {loaded : Cache}
    (there : fs.isDirectory p = true) (own : OwnName name) (path : c.path = p.join ⟨name⟩)
    (load : load fs c.path strategy = .ok loaded) (h : c.save fs = (.ok (), fs')) :
    fs'.isDirectory p = true := by
  have named := directory_named there
  obtain ⟨place, l, can, rfl⟩ := save_place h
  obtain ⟨home, inside⟩ := inside_joined there named own (path ▸ can.accepted)
  rw [← path] at inside
  rw [directory_there inside] at can ⊢
  obtain ⟨home', inside', rfl⟩ := can.inside inside.cut
  obtain rfl := inside.unique inside'
  obtain ⟨few, plain⟩ := load_status load
  have still := inside.filled few plain c.bytes fs.clock
  rw [path] at still
  exact still.joined named own

theorem locate_saved {strategy : CacheStrategy} {loaded : Cache}
    (path : c.path = locate fs location directory) (load : load fs c.path strategy = .ok loaded)
    (h : c.save fs = (.ok (), fs')) : locate fs' location directory = c.path := by
  rw [path]
  refine locate_same fun slash => ?_
  have names : namesDirectory fs location directory = fs.isDirectory (directory.join location) := by
    simp [namesDirectory, slash]
  rw [locate, names] at path
  cases there : fs.isDirectory (directory.join location) with
  | false =>
    -- the location is the path of the new file
    rw [there, if_neg (by simp)] at path
    obtain ⟨place, l, can, rfl⟩ := save_place h
    rw [← path]
    exact can.no_directory _ _
  | true =>
    obtain ⟨name, own, spelled⟩ := sharedName_spelled directory
    rw [there, if_pos rfl, spelled] at path
    exact save_in_directory there own path load h

theorem save_tree (tree : fs.IsTree) (h : c.save fs = (.ok (), fs')) : fs'.IsTree := by
  obtain ⟨place, l, can, rfl⟩ := save_place h
  obtain ⟨before, name, cut⟩ := last_name can.named can.noSlash
  obtain ⟨home, inside, rfl⟩ := can.inside cut
  refine (createDirectories_tree tree c.directory).set ?_ fun found => absurd found can.plain
  rw [List.dropLast_concat]
  exact inside.directory

/-- When its directories have been made, the way to the place of a cache is straight. -/
def StraightIn (c : Cache) (fs : FileSystem) : Prop :=
  (fs.createDirectories c.directory).2.Straight c.path

/-- What was saved can be read if and only if the way to it is straight. -/
theorem save_straight (tree : fs.IsTree) (h : c.save fs = (.ok (), fs')) :
    c.StraightIn fs ↔ fs'.read c.path = .ok c.bytes := by
  obtain ⟨place, l, can, rfl⟩ := save_place h
  exact ⟨fun straight => straight.read can _ _, can.straight (createDirectories_tree tree _)⟩

theorem save_names (h : c.save fs = (.ok (), fs')) (read : fs'.read c.path = .ok c.bytes) :
    ∃ l, fs'.NamesFile c.path l c.bytes := by
  obtain ⟨place, l, can, rfl⟩ := save_place h
  exact ⟨l, (can.again read).here, can.holds _ _⟩

theorem locate_lost {bytes : Text.Bytes} (lost : fs.LosesOnly fs' l)
    (file : fs.bytesAt? l = some bytes) (location directory : Path) :
    locate fs' location directory = locate fs location directory :=
  locate_same fun _ => lost.isDirectory file _

theorem delete_saved {without : FileSystem} {answer : Except LintError Bool}
    (h : c.save fs = (.ok (), fs')) (deleted : delete fs' c.path = (answer, without)) :
    without = fs' ∨ ∃ l, fs'.NamesFile c.path l c.bytes ∧ without = fs'.erase l := by
  unfold delete at deleted
  split at deleted
  · rename_i removed
    cases deleted
    right
    obtain ⟨m, here, -, rfl⟩ := remove_ok removed
    obtain ⟨place, l, can, rfl⟩ := save_place h
    obtain rfl := can.names here
    exact ⟨m, ⟨here, can.holds _ _⟩, rfl⟩
  · split at deleted <;> cases deleted <;> exact .inl rfl

theorem locate_deleted {without : FileSystem} {answer : Except LintError Bool} (tree : fs.IsTree)
    (h : c.save fs = (.ok (), fs')) (deleted : delete fs' c.path = (answer, without))
    (location directory : Path) :
    locate without location directory = locate fs' location directory ∧
      (without = fs' ∨ ∃ l, fs'.NamesFile c.path l c.bytes ∧ fs'.LosesOnly without l) := by
  rcases delete_saved h deleted with rfl | ⟨l, names, rfl⟩
  · exact ⟨rfl, .inl rfl⟩
  · have lost := names.loses (save_tree tree h)
    exact ⟨locate_lost lost names.2 location directory, .inr ⟨l, names, lost⟩⟩

theorem delete_names {path : Path} {bytes : Text.Bytes} (named : endsInName path = true)
    (noSlash : endsInSlash path = false) (names : fs.NamesFile path l bytes) :
    delete fs path = (.ok true, fs.erase l) := by
  rw [delete, names.remove named noSlash]

theorem others_kept {other : Path} {m : Location} {bytes bytes' : Text.Bytes}
    (tree : fs.IsTree) (shared : namesDirectory fs location directory = true)
    (shared' : namesDirectory fs location other = true)
    (apart : sharedName other ≠ sharedName directory)
    (names : fs.NamesFile (locate fs location directory) l bytes)
    (names' : fs.NamesFile (locate fs location other) m bytes') :
    locate (fs.erase l) location other = locate fs location other ∧
      (fs.erase l).NamesFile (locate fs location other) m bytes' := by
  have lost := names.loses tree
  refine ⟨locate_lost lost names.2 location other, ?_⟩
  obtain ⟨before, name, spelled, cut⟩ := shared_cut shared
  obtain ⟨before', name', spelled', cut'⟩ := shared_cut shared'
  refine lost.namesFile names.2 cut' names' ?_
  obtain ⟨home, -, at_⟩ := (placeOfEntry_iff cut).1 names.1
  obtain ⟨home', -, at'⟩ := (placeOfEntry_iff cut').1 names'.1
  rw [placeAt_eq at_ (.inl rfl), placeAt_eq at' (.inl rfl)]
  intro same
  obtain ⟨-, same⟩ := List.append_inj' same rfl
  refine apart ?_
  rw [spelled, spelled', (List.cons.inj same).1]

end Cache
end ParallelLint
