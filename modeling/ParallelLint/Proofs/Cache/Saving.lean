import ParallelLint.Cache.Location
import ParallelLint.Cache.Written
import ParallelLint.Proofs.FileSystem.Replacing

set_option autoImplicit false

namespace ParallelLint.Cache
open FileSystem
variable {fs fs' : FileSystem} {c : Cache}

theorem directory_cases (c : Cache) :
    c.directory = ⟨"."⟩ ∨ c.path.parent? = some c.directory ∧ c.directory.text ≠ "" := by
  unfold directory
  split
  · rename_i parent around
    split
    · exact .inl rfl
    · rename_i named
      exact .inr ⟨around, named⟩
  · exact .inl rfl

theorem save_ok (h : c.save fs = (.ok (), fs')) :
    ∃ prepared, fs.createDirectories c.directory = (.ok (), prepared) ∧
      prepared.replace c.path c.bytes = .ok fs' := by
  unfold save at h
  split at h
  · cases h
  · rename_i prepared made
    split at h
    · cases h
    · rename_i saved
      cases h
      exact ⟨prepared, made, saved⟩

theorem save_unique {d : Cache} (h : c.save fs = (.ok (), fs')) (h' : d.save fs = (.ok (), fs'))
    (path : c.path = d.path) : c.bytes = d.bytes := by
  obtain ⟨prepared, made, replaced⟩ := save_ok h
  obtain ⟨prepared', made', replaced'⟩ := save_ok h'
  have directory : c.directory = d.directory := by rw [Cache.directory, Cache.directory, path]
  rw [← directory, made] at made'
  cases made'
  rw [← path] at replaced'
  obtain ⟨place, l, can, rfl⟩ := replace_cases replaced
  have same := replaced'.symm.trans (can.replace_eq d.bytes)
  have entry := congrArg (fun files : FileSystem => files.entry? l) (Except.ok.inj same)
  simp only [get_set_same can.root, Option.some.injEq, Entry.file.injEq] at entry
  exact entry.1

theorem save_read {bytes : Text.Bytes} (h : c.save fs = (.ok (), fs'))
    (read : fs'.read c.path = .ok bytes) : bytes = c.bytes := by
  obtain ⟨prepared, -, replaced⟩ := save_ok h
  exact replace_read replaced read

theorem delete_of_save (h : c.save fs = (.ok (), fs')) :
    delete fs c.path = (.ok false, fs) ∨
      ∃ without, fs.remove c.path = .ok without ∧ delete fs c.path = (.ok true, without) := by
  obtain ⟨prepared, made, replaced⟩ := save_ok h
  obtain ⟨place, l, can, -⟩ := replace_cases replaced
  have removed : fs.remove c.path = .error .notFound ∨
      ∃ without, fs.remove c.path = .ok without := by
    have unchanged : prepared = fs → fs.remove c.path = .error .notFound ∨
        ∃ without, fs.remove c.path = .ok without := by
      rintro rfl
      exact can.remove.imp_right fun ok => ⟨_, ok⟩
    rcases c.directory_cases with dot | ⟨around, some⟩
    · obtain ⟨_, same⟩ := createDirectories_dot fs
      rw [← dot, made] at same
      exact unchanged (Prod.mk.inj same).2
    rcases createDirectories_made some made with same | missing
    · exact unchanged same
    left
    rw [remove, placeOfEntry_missing around some can.accepted can.noSlash missing]
  unfold delete
  rcases removed with missing | ⟨without, removed⟩
  · left
    rw [missing]
    rfl
  · right
    rw [removed]
    exact ⟨without, rfl, rfl⟩

theorem save_again {bytes : Text.Bytes} (h : c.save fs = (.ok (), fs'))
    (read : fs'.read c.path = .ok bytes) {next : Cache} (path : next.path = c.path) :
    ∃ fs'', next.save fs' = (.ok (), fs'') ∧ fs''.read c.path = .ok next.bytes := by
  obtain ⟨prepared, made, replaced⟩ := save_ok h
  obtain ⟨fs'', again, same⟩ := replace_again replaced read next.bytes
  have directory : next.directory = c.directory := by rw [Cache.directory, Cache.directory, path]
  have there : fs'.createDirectories c.directory = (.ok (), fs') := by
    rcases c.directory_cases with dot | ⟨around, some⟩
    · obtain ⟨_, first⟩ := createDirectories_dot fs
      rw [← dot, made] at first
      obtain ⟨first, rfl⟩ := Prod.mk.inj first
      split at first
      · rename_i directory
        obtain ⟨place, l, can, rfl⟩ := replace_cases replaced
        rw [dot] at directory ⊢
        have here := isDirectory_dot.1 directory
        refine createDirectories_there (by decide) (isDirectory_dot.2 ?_)
        have other : prepared.workingDirectory ≠ l := by
          rintro rfl
          exact can.plain here
        exact (get_set_other other _).trans here
      · cases first
    · obtain ⟨time, status⟩ := read_iff.1 read
      exact createDirectories_there some ((begins_parent around some).isDirectory status)
  refine ⟨fs'', ?_, same⟩
  rw [save, directory, there, path]
  simp only [again]

theorem sharedName_relative (directory : Path) : (sharedName directory).isAbsolute = false := by
  simp [sharedName, Path.isAbsolute, String.toList_append]

theorem locate_same {location directory : Path}
    (same : location.text.toList.getLast? ≠ some '/' →
      fs'.isDirectory (directory.join location) = fs.isDirectory (directory.join location)) :
    locate fs' location directory = locate fs location directory := by
  have same : namesDirectory fs' location directory = namesDirectory fs location directory := by
    unfold namesDirectory
    by_cases slash : location.text.toList.getLast? = some '/'
    · simp [slash]
    · rw [same slash]
  rw [locate, locate, same]

theorem directory_named {p : Path} (directory : fs.isDirectory p = true) : p.text ≠ "" := by
  intro empty
  obtain ⟨accepted, -⟩ := isDirectory_iff.1 directory
  rw [refused?, if_pos empty] at accepted
  split at accepted <;> cases accepted

theorem locate_again {location directory : Path}
    (there : fs'.isFile (locate fs location directory) = true) :
    locate fs' location directory = locate fs location directory := by
  refine locate_same fun slash => ?_
  unfold locate namesDirectory at there
  simp only [slash, decide_false, Bool.false_or] at there
  split at there
  · rename_i found
    obtain ⟨s, status, -⟩ := isFile_status.1 there
    rw [found]
    exact (begins_join (directory_named found) (sharedName_relative directory)).isDirectory status
  · rename_i found
    rw [Bool.not_eq_true _ |>.mp found]
    exact noDirectory_of_isFile there

end ParallelLint.Cache
