import ParallelLint.Dispatch.Run
import ParallelLint.Proofs.Cache.Saving
import ParallelLint.Proofs.FileSystem.Contents

set_option autoImplicit false

namespace ParallelLint

namespace FileSystem
variable {fs fs' fs'' : FileSystem} {p q : Path} {l m : Location}

def LinkFree (fs : FileSystem) : Prop := ∀ l target, fs.entry? l ≠ some (.link target)

theorem linkFree_of_listed (listed : ∀ f ∈ fs.entries, ∀ target, f.2 ≠ .link target) :
    fs.LinkFree := by
  intro l target found
  unfold FileSystem.entry? at found
  split at found
  · cases found
  · obtain ⟨before, after, entries, -⟩ := List.lookup_eq_some_iff.1 found
    exact listed (l, .link target) (by simp [entries]) target rfl

theorem LinkFree.set (linkFree : fs.LinkFree) (named : l ≠ []) (bytes : Text.Bytes)
    (modified : Int) : (fs.set l (.file bytes modified)).LinkFree := by
  intro m target found
  by_cases same : m = l
  · rw [same, get_set_same named] at found
    cases found
  · rw [get_set_other same] at found
    exact linkFree m target found

/-- The path leads to the regular file at a location. -/
structure FileAt (fs : FileSystem) (p : Path) (l : Location) : Prop where
  located : fs.locate p = .ok l
  file : (fs.bytesAt? l).isSome = true

theorem locate_iff : fs.locate p = .ok l ↔
    refused? p = none ∧ Leads fs .content linkLimit (fs.origin p) (steps p) l := by
  rw [← walk_found, locate, place, follow]
  cases refused? p with
  | some e => simp
  | none =>
    cases fs.walk .content linkLimit (fs.origin p) (steps p) with
    | error e => simp
    | ok place => cases place <;> simp

theorem fileAt_iff : fs.FileAt p l ↔
    ∃ bytes modified, refused? p = none ∧
      Leads fs .content linkLimit (fs.origin p) (steps p) l ∧
      fs.entry? l = some (.file bytes modified) := by
  constructor
  · rintro ⟨located, file⟩
    obtain ⟨bytes, found⟩ := Option.isSome_iff_exists.1 file
    obtain ⟨modified, found⟩ := bytesAt_iff.1 found
    obtain ⟨accepted, leads⟩ := locate_iff.1 located
    exact ⟨bytes, modified, accepted, leads, found⟩
  · rintro ⟨bytes, modified, accepted, leads, found⟩
    exact ⟨locate_iff.2 ⟨accepted, leads⟩, by rw [bytesAt_iff.2 ⟨modified, found⟩]; rfl⟩

theorem fileAt_of_read {bytes : Text.Bytes} (read : fs.read p = .ok bytes) :
    ∃ l, fs.FileAt p l ∧ fs.bytesAt? l = some bytes := by
  obtain ⟨modified, status⟩ := read_iff.1 read
  obtain ⟨accepted, l, leads, found, -⟩ := status_file.1 status
  exact ⟨l, fileAt_iff.2 ⟨bytes, modified, accepted, leads, found⟩, bytesAt_iff.2 ⟨modified, found⟩⟩

/-- Other bytes at most: the files and directories are the same. -/
structure SameShape (fs fs' : FileSystem) : Prop where
  origin : fs'.workingDirectory = fs.workingDirectory
  entries : ∀ l, fs'.entry? l = fs.entry? l ∨
    (fs.bytesAt? l).isSome = true ∧ (fs'.bytesAt? l).isSome = true

namespace SameShape

theorem refl (fs : FileSystem) : fs.SameShape fs := ⟨rfl, fun _ => .inl rfl⟩

theorem file_iff (h : fs.SameShape fs') (l : Location) :
    (fs'.bytesAt? l).isSome = (fs.bytesAt? l).isSome := by
  rcases h.entries l with same | ⟨file, file'⟩
  · rw [bytesAt?, bytesAt?, same]
  · rw [file, file']

theorem trans (h : fs.SameShape fs') (h' : fs'.SameShape fs'') : fs.SameShape fs'' := by
  refine ⟨h'.origin.trans h.origin, fun l => ?_⟩
  rcases h'.entries l with same | ⟨file, file'⟩
  · rcases h.entries l with same' | ⟨file, file'⟩
    · exact .inl (same.trans same')
    · exact .inr ⟨file, by rw [bytesAt?, same]; exact file'⟩
  · exact .inr ⟨by rw [← h.file_iff]; exact file, file'⟩

theorem entry (h : fs.SameShape fs') {e : Entry} (found : fs.entry? l = some e)
    (plain : ∀ bytes modified, e ≠ .file bytes modified) : fs'.entry? l = some e := by
  rcases h.entries l with same | ⟨file, -⟩
  · rw [same, found]
  · cases e with
    | file bytes modified => exact absurd rfl (plain bytes modified)
    | directory | link => simp [bytesAt?, found] at file

theorem symm (h : fs.SameShape fs') : fs'.SameShape fs :=
  ⟨h.origin.symm, fun l => (h.entries l).imp Eq.symm And.symm⟩

theorem leads (h : fs.SameShape fs') {purpose : Purpose} {links : Nat} {here : Location}
    {todo : List Step} (leads : Leads fs purpose links here todo l) :
    Leads fs' purpose links here todo l := by
  have directory : ∀ {m}, fs.entry? m = some .directory → fs'.entry? m = some .directory :=
    fun found => h.entry found (by rintro _ _ ⟨⟩)
  have link : ∀ {m target}, fs.entry? m = some (.link target) →
      fs'.entry? m = some (.link target) := fun found => h.entry found (by rintro _ _ ⟨⟩)
  induction leads with
  | arrive => exact .arrive ..
  | stay here plain _ ih => exact .stay (directory here) plain ih
  | up here _ ih => exact .up (directory here) ih
  | @down _ here _ _ name entry there free short found plain _ ih =>
    rcases h.entries (here ++ [name]) with same | ⟨-, file⟩
    · exact .down (directory there) free short (same.trans found) plain ih
    · obtain ⟨bytes, file⟩ := Option.isSome_iff_exists.1 file
      obtain ⟨modified, file⟩ := bytesAt_iff.1 file
      exact .down (directory there) free short file (by rintro _ ⟨⟩) ih
  | link there wanted short found => exact .link (directory there) wanted short (link found)
  | follow there free short found onward _ ih =>
    exact .follow (directory there) free short (link found) onward ih

theorem locate (h : fs.SameShape fs') (p : Path) (l : Location) :
    fs'.locate p = .ok l ↔ fs.locate p = .ok l := by
  rw [locate_iff, locate_iff]
  have origin : fs'.origin p = fs.origin p := by rw [FileSystem.origin, FileSystem.origin, h.origin]
  rw [origin]
  exact and_congr_right fun _ => ⟨h.symm.leads, h.leads⟩

theorem placeOfEntry (h : fs.SameShape fs') (p : Path) (l : Location) :
    fs'.placeOfEntry p = .ok (.found l) ↔ fs.placeOfEntry p = .ok (.found l) := by
  rw [FileSystem.placeOfEntry, FileSystem.placeOfEntry, follow, follow]
  have origin : fs'.origin p = fs.origin p := by rw [FileSystem.origin, FileSystem.origin, h.origin]
  rw [origin]
  cases refused? p with
  | some e => exact Iff.rfl
  | none =>
    rw [walk_found, walk_found]
    exact ⟨h.symm.leads, h.leads⟩

end SameShape

theorem put_file_shape (file : (fs.bytesAt? l).isSome = true) (bytes : Text.Bytes)
    (modified : Int) : fs.SameShape (fs.put l (.file bytes modified)) := by
  have named : l ≠ [] := by
    rintro rfl
    cases file
  refine ⟨rfl, fun m => ?_⟩
  by_cases same : m = l
  · exact .inr ⟨same ▸ file, by rw [same, bytesAt?, get_put_same named]; rfl⟩
  · exact .inl (get_put_other same _)

theorem set_file_shape (file : (fs.bytesAt? l).isSome = true) (bytes : Text.Bytes)
    (modified : Int) : fs.SameShape (fs.set l (.file bytes modified)) :=
  have shape := put_file_shape file bytes modified
  ⟨shape.origin, shape.entries⟩

theorem bytesAt_put_same (file : (fs.bytesAt? l).isSome = true) (bytes : Text.Bytes)
    (modified : Int) : (fs.put l (.file bytes modified)).bytesAt? l = some bytes := by
  have named : l ≠ [] := by
    rintro rfl
    cases file
  exact bytesAt_iff.2 ⟨modified, get_put_same named _⟩

theorem bytesAt_put_other (other : m ≠ l) (e : Entry) :
    (fs.put l e).bytesAt? m = fs.bytesAt? m := by
  rw [bytesAt?, bytesAt?, get_put_other other]

theorem bytesAt_set_other (other : m ≠ l) (e : Entry) :
    (fs.set l e).bytesAt? m = fs.bytesAt? m := by
  rw [bytesAt?, bytesAt?, get_set_other other]

theorem onlySlashes_last {rest : List Step} (h : onlySlashes rest = true) :
    ∃ before, rest = before ++ [.slash] := by
  rw [onlySlashes, Bool.and_eq_true, List.all_eq_true] at h
  cases rest using List.reverseRecOn with
  | nil => simp at h
  | append_singleton before s => exact ⟨before, by simpa using h.2 s (by simp)⟩

theorem Leads.output {links : Nat} {here : Location} {todo : List Step}
    (h : Leads fs .content links here todo l) (file : fs.entry? l ≠ some .directory) :
    Leads fs .output links here todo l := by
  -- a slash behind the last name would ask for a directory
  have free : ∀ {n : Nat} {m : Location} {before rest : List Step},
      Leads fs .content n m (before ++ rest) l → onlySlashes rest = false := by
    intro n m before rest more
    rw [Bool.eq_false_iff]
    intro slashes
    obtain ⟨first, rfl⟩ := onlySlashes_last slashes
    exact file (more.idle_end rfl rfl (List.append_assoc ..).symm)
  induction h with
  | arrive => exact .arrive ..
  | stay directory plain _ ih => exact .stay directory plain (ih file free)
  | up directory _ ih => exact .up directory (ih file free)
  | down directory _ short found plain more ih =>
    exact .down directory (by rw [@free _ _ [] _ more]; rfl) short found plain (ih file free)
  | link _ wanted => cases wanted
  | follow directory _ short found _ more ih =>
    exact .follow directory (by rw [free more]; rfl) short found (by simp) (ih file free)

theorem FileAt.write (h : fs.FileAt p l) (bytes : Text.Bytes) :
    fs.write p bytes =
      match fs.attributes.unwritable l with
      | some e => .error e
      | none => .ok (fs.put l (.file bytes fs.clock)) := by
  obtain ⟨old, modified, accepted, leads, found⟩ := fileAt_iff.1 h
  have there := (leads.output (by rw [found]; rintro ⟨⟩)).walk_eq
  rw [FileSystem.write, place, follow, accepted]
  simp only [there, found]
  cases fs.attributes.unwritable l <;> rfl

theorem FileAt.of_shape (h : fs.FileAt p l) (same : fs.SameShape fs') : fs'.FileAt p l :=
  ⟨(same.locate p l).2 h.located, by rw [same.file_iff]; exact h.file⟩

theorem FileAt.within (h : fs.FileAt p l) (within : fs.Within fs') : fs'.FileAt p l := by
  obtain ⟨bytes, modified, accepted, leads, found⟩ := fileAt_iff.1 h
  have origin : fs'.origin p = fs.origin p := by rw [origin, origin, within.1]
  exact fileAt_iff.2
    ⟨bytes, modified, accepted, origin ▸ leads.within within, within.2 l _ found⟩

theorem leads_filled {links : Nat} {here : Location} {todo : List Step} {e : Entry}
    (plain : ∀ target, e ≠ .link target) (h : fs.walk .entry links here todo = .ok (.free l)) :
    Leads (fs.set l e) .entry links here todo l := by
  have there := (set_within (walk_free h) e).2
  fun_induction walk fs .entry links here todo with
  | case2 _ _ _ directory ih => exact .stay (there _ _ directory) (.inl rfl) (ih h)
  | case3 _ _ _ directory ih => exact .stay (there _ _ directory) (.inr rfl) (ih h)
  | case4 _ _ _ directory ih => exact .up (there _ _ directory) (ih h)
  | case7 links here rest directory name free short none last =>
    cases h
    rw [List.isEmpty_iff] at last
    subst last
    exact .down (there _ _ directory) (by simp) (Nat.not_lt.1 short)
      (get_set_same (by simp) e) plain (.arrive ..)
  | case11 here rest directory name free short target found onward links ih =>
    exact .follow (there _ _ directory) (by simp) (Nat.not_lt.1 short) (there _ _ found)
      (by simpa using onward) (ih h)
  | case12 links here rest directory name free short entry plain found ih =>
    exact .down (there _ _ directory) (by simp) (Nat.not_lt.1 short) (there _ _ found) plain (ih h)
  | _ => cases h

theorem replaceable_set {place : Place} {bytes : Text.Bytes} {modified : Int}
    (linkFree : fs.LinkFree) (can : Replaceable fs p place l) :
    let saved := fs.set l (.file bytes modified)
    saved.placeOfEntry p = .ok (.found l) ∧ ∀ q m, fs.FileAt q m → saved.FileAt q m := by
  intro saved
  have here := can.here
  cases found : fs.entry? l with
  | some e =>
    have shape : fs.SameShape saved := by
      cases e with
      | file old modified' => exact set_file_shape (by rw [bytesAt?, found]; rfl) _ _
      | directory => exact absurd found can.plain
      | link target => exact absurd found (linkFree l target)
    refine ⟨?_, fun q m at_ => at_.of_shape shape⟩
    rcases can.at_ with rfl | rfl
    · exact (shape.placeOfEntry p l).2 here
    · rw [placeOfEntry_free here] at found
      cases found
  | none =>
    have within : fs.Within saved := set_within found _
    refine ⟨?_, fun q m at_ => at_.within within⟩
    have origin : saved.origin p = fs.origin p := rfl
    rw [placeOfEntry, follow] at here ⊢
    rw [origin]
    cases accepted : refused? p with
    | some e =>
      rw [accepted] at here
      cases here
    | none =>
      rw [accepted] at here
      rcases can.at_ with rfl | rfl
      · exact ((walk_found.1 here).within within).walk_eq
      · exact (leads_filled (by rintro _ ⟨⟩) here).walk_eq

end FileSystem

namespace Cache
open FileSystem

theorem save_changes {c : Cache} {fs fs' : FileSystem} (linkFree : fs.LinkFree)
    (h : c.save fs = (.ok (), fs')) :
    ∃ l, fs'.placeOfEntry c.path = .ok (.found l) ∧
      (∀ m, m ≠ l → fs'.bytesAt? m = fs.bytesAt? m) ∧
      ∀ p m, fs.FileAt p m → fs'.FileAt p m := by
  obtain ⟨prepared, made, replaced⟩ := save_ok h
  have grows : fs.Grows prepared := by
    have grows := createDirectoriesWithin_grows fs c.directory (c.directory.parts.length + 1)
    rw [← createDirectories, made] at grows
    exact grows
  have linkFree' : prepared.LinkFree := by
    intro l target link
    rcases grows.entries l with same | ⟨-, made⟩
    · exact linkFree l target (same ▸ link)
    · rw [made] at link
      cases link
  obtain ⟨place, l, can, rfl⟩ := replace_cases replaced
  obtain ⟨here, kept⟩ := replaceable_set linkFree' can
  refine ⟨l, here, fun m other => ?_, fun p m at_ => kept p m (at_.within grows.within)⟩
  rw [bytesAt_set_other other, grows.sameFiles]

end Cache

section
open FileSystem
variable {fs fs' : FileSystem} {l : Location} {r : LintResult} {results : List LintResult}
  {output : String}

/-- The result has a fixed text for the file at a location. -/
def LintResult.Fixes (r : LintResult) (fs : FileSystem) (l : Location) (output : String) : Prop :=
  r.output = some output ∧ fs.locate r.path = .ok l

/-- Every fixed text belongs to a file, and each file has one fixed text. -/
structure FixesFit (results : List LintResult) (fs : FileSystem) : Prop where
  files : ∀ r ∈ results, r.output.isSome = true → ∃ l, fs.FileAt r.path l
  agree : ∀ r ∈ results, ∀ r' ∈ results, ∀ l output output',
    r.Fixes fs l output → r'.Fixes fs l output' → output = output'

/-- The file systems before and after all fixed texts were written. -/
structure FixesWritten (results : List LintResult) (fs fs' : FileSystem) : Prop where
  shape : fs.SameShape fs'
  written : ∀ r ∈ results, ∀ l output, r.Fixes fs l output →
    fs'.bytesAt? l = some (Text.bytesOf output)
  others : ∀ l, (∀ r ∈ results, ∀ output, ¬r.Fixes fs l output) → fs'.bytesAt? l = fs.bytesAt? l

theorem LintResult.fixes_shape (shape : fs.SameShape fs') :
    r.Fixes fs' l output ↔ r.Fixes fs l output :=
  and_congr_right fun _ => shape.locate r.path l

theorem LintResult.Fixes.unique {m : Location} {other : String} (h : r.Fixes fs l output)
    (h' : r.Fixes fs m other) : l = m ∧ output = other :=
  ⟨Except.ok.inj (h.2.symm.trans h'.2), Option.some.inj (h.1.symm.trans h'.1)⟩

theorem FixesFit.tail (fit : FixesFit (r :: results) fs) : FixesFit results fs where
  files s hs := fit.files s (List.mem_cons_of_mem _ hs)
  agree s hs s' hs' := fit.agree s (List.mem_cons_of_mem _ hs) s' (List.mem_cons_of_mem _ hs')

theorem FixesFit.of_shape (fit : FixesFit results fs) (shape : fs.SameShape fs') :
    FixesFit results fs' where
  files s hs some := (fit.files s hs some).imp fun _ there => there.of_shape shape
  agree s hs s' hs' l output output' fixes fixes' :=
    fit.agree s hs s' hs' l output output' ((LintResult.fixes_shape shape).1 fixes)
      ((LintResult.fixes_shape shape).1 fixes')

theorem FixesWritten.skip (text : r.output = none) (h : FixesWritten results fs fs') :
    FixesWritten (r :: results) fs fs' := by
  refine ⟨h.shape, fun s hs l output fixes => ?_, fun l none => ?_⟩
  · rcases List.mem_cons.1 hs with rfl | hs
    · cases text.symm.trans fixes.1
    · exact h.written s hs l output fixes
  · exact h.others l fun s hs => none s (List.mem_cons_of_mem _ hs)

theorem FixesWritten.next (fit : FixesFit (r :: results) fs) (fixes : r.Fixes fs l output)
    (file : (fs.bytesAt? l).isSome = true) {modified : Int}
    (h : FixesWritten results (fs.put l (.file (Text.bytesOf output) modified)) fs') :
    FixesWritten (r :: results) fs fs' := by
  have shape := put_file_shape file (Text.bytesOf output) modified
  refine ⟨shape.trans h.shape, fun s hs m other fixes' => ?_, fun m none => ?_⟩
  · rcases List.mem_cons.1 hs with rfl | hs
    · obtain ⟨rfl, rfl⟩ := fixes.unique fixes'
      -- the text of the first result stays, or is written once more
      by_cases again : ∃ s ∈ results, ∃ other, s.Fixes fs l other
      · obtain ⟨s', hs', other, fixes'⟩ := again
        rw [h.written s' hs' l other ((LintResult.fixes_shape shape).2 fixes'),
          fit.agree s' (List.mem_cons_of_mem _ hs') s (List.mem_cons_self ..) l _ _ fixes' fixes]
      · rw [h.others l fun s' hs' other fixes' =>
          again ⟨s', hs', other, (LintResult.fixes_shape shape).1 fixes'⟩]
        exact bytesAt_put_same file _ _
    · exact h.written s hs m other ((LintResult.fixes_shape shape).2 fixes')
  · have other : m ≠ l := by
      rintro rfl
      exact none r (List.mem_cons_self ..) output fixes
    rw [h.others m fun s hs o fixes' =>
      none s (List.mem_cons_of_mem _ hs) o ((LintResult.fixes_shape shape).1 fixes')]
    exact bytesAt_put_other other _

theorem writeFixes_written (fit : FixesFit results fs) {count n : Nat}
    (done : writeFixes fs count results = (.ok n, fs')) : FixesWritten results fs fs' := by
  induction results generalizing fs count with
  | nil =>
    cases done
    exact ⟨.refl _, by rintro _ ⟨⟩, fun _ _ => rfl⟩
  | cons r rest ih =>
    rw [writeFixes] at done
    cases text : r.output with
    | none =>
      simp only [text] at done
      exact (ih fit.tail done).skip text
    | some output =>
      obtain ⟨l, here⟩ := fit.files r (List.mem_cons_self ..) (by rw [text]; rfl)
      have shape := put_file_shape here.file (Text.bytesOf output)
      simp only [text, here.write] at done
      split at done
      · cases done
      · rename_i allowed
        split at allowed
        · cases allowed
        · cases allowed
          exact (ih (fit.tail.of_shape (shape _)) done).next fit ⟨text, here.located⟩ here.file

theorem writeFixes_single (text : r.output = some output) (there : fs.FileAt r.path l)
    (allowed : fs.attributes.unwritable l = none) :
    writeFixes fs 0 [r] = (.ok 1, fs.put l (.file (Text.bytesOf output) fs.clock)) := by
  rw [writeFixes]
  simp only [text, there.write, allowed]
  rfl

end
end ParallelLint
