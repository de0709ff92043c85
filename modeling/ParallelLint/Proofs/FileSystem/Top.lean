import ParallelLint.Proofs.FileSystem.Writes

set_option autoImplicit false

namespace ParallelLint

/-- The text of an entry's own name, as the system accepts it. -/
structure Path.OwnName (name : String) : Prop where
  clean : Slashless name
  own : isVoid name = false
  down : name ≠ ".."
  short : name.utf8ByteSize ≤ 255
  noZero : Char.ofNat 0 ∉ name.toList

instance (name : String) : Decidable (Path.OwnName name) :=
  decidable_of_iff
    (Path.Slashless name ∧ Path.isVoid name = false ∧ name ≠ ".." ∧ name.utf8ByteSize ≤ 255 ∧
      Char.ofNat 0 ∉ name.toList)
    ⟨fun ⟨clean, own, down, short, noZero⟩ => ⟨clean, own, down, short, noZero⟩,
      fun ⟨clean, own, down, short, noZero⟩ => ⟨clean, own, down, short, noZero⟩⟩

namespace FileSystem
open ParallelLint.Path
variable {fs : FileSystem} {name : String} {e : Entry} {l : Location}

/-- The path of an entry right below the root. -/
def top (name : String) : Path := ⟨"" ++ "/" ++ name⟩

theorem top_segments (own : OwnName name) : (top name).segments = ["", name] := by
  rw [top, segments_append, segments_single own.clean]
  rfl

theorem top_opens (own : OwnName name) : Opens (top name) (some .root) "/" [name] :=
  .root (top_segments own) (by simp)

theorem top_normal (own : OwnName name) : (top name).Normal :=
  (top_opens own).normal (by simpa using own.own)

theorem top_text (name : String) : (top name).text.toList = '/' :: name.toList := by
  simp [top, String.toList_append]

theorem top_noSlash (own : OwnName name) : (top name).text.toList.getLast? ≠ some '/' := by
  have named : name.toList ≠ [] := by
    intro empty
    have void := own.own
    simp [isVoid, String.toList_eq_nil_iff.1 empty] at void
  rw [top_text, List.getLast?_cons, List.getLast?_eq_some_getLast named, Option.getD_some]
  exact fun last => own.clean ((Option.some.inj last) ▸ List.getLast_mem named)

theorem top_steps (own : OwnName name) : steps (top name) = [.name name] := by
  have plain : stepOf name = .name name := by
    have void := own.own
    simp only [isVoid, Bool.or_eq_false_iff, decide_eq_false_iff_not] at void
    rw [stepOf, if_neg void.2, if_neg own.down]
  have void := own.own
  simp only [isVoid, Bool.or_eq_false_iff, decide_eq_false_iff_not] at void
  rw [steps_noSlash (top_noSlash own), walked]
  simp [top_segments own, plain, void.1]

theorem top_accepted (own : OwnName name) : refused? (top name) = none := by
  have noZero : hasZero (top name) = false := by
    rw [hasZero, top_text, List.contains_eq_mem, decide_eq_false_iff_not, List.mem_cons, not_or]
    exact ⟨by decide, own.noZero⟩
  have size : (top name).text.utf8ByteSize = 1 + name.utf8ByteSize := by
    simp only [top, String.utf8ByteSize_append]
    rfl
  have short := own.short
  have named : (top name).text ≠ "" := by
    intro empty
    rw [empty, String.utf8ByteSize_empty] at size
    omega
  rw [refused?, if_neg (by simp [noZero]), if_neg named, if_neg (by omega)]

theorem top_origin (fs : FileSystem) (name : String) : fs.origin (top name) = [] := by
  have absolute : (top name).isAbsolute = true := by
    simp [Path.isAbsolute, top_text]
  rw [origin, if_pos absolute]

theorem top_endsInSlash (own : OwnName name) : endsInSlash (top name) = false := by
  rw [endsInSlash, top_steps own]
  rfl

theorem top_stepsToEntry (own : OwnName name) : stepsToEntry (top name) = [.name name] :=
  (stepsToEntry_eq (top_endsInSlash own)).trans (top_steps own)

theorem top_endsInName (own : OwnName name) : endsInName (top name) = true := by
  rw [endsInName, top_stepsToEntry own]
  rfl

theorem top_leads (own : OwnName name) (found : fs.entry? [name] = some e)
    (noLink : ∀ target, e ≠ .link target) (purpose : Purpose) :
    Leads fs purpose linkLimit [] [.name name] [name] :=
  .down rfl (by simp [onlySlashes]) own.short found noLink (.arrive ..)

theorem Leads.single {purpose : Purpose} {limit : Nat}
    (leads : Leads fs purpose limit [] [.name name] l)
    (straight : purpose = .entry ∨ fs.LinkFree) : l = [name] := by
  cases leads with
  | stay _ plain => simp at plain
  | down _ _ _ _ _ more =>
    cases more
    rfl
  | link => rfl
  | follow _ _ _ found onward =>
    rcases straight with rfl | linkFree
    · cases onward
    · exact absurd found (linkFree _ _)

theorem top_place (own : OwnName name) (here : fs.placeOfEntry (top name) = .ok (.found l)) :
    l = [name] := by
  rw [placeOfEntry, follow, top_accepted own, top_stepsToEntry own, top_origin] at here
  exact (walk_found.1 here).single (.inl rfl)

theorem LinkFree.locate_top (linkFree : fs.LinkFree) (own : OwnName name)
    (located : fs.locate (top name) = .ok l) : l = [name] := by
  obtain ⟨-, leads⟩ := locate_iff.1 located
  rw [top_steps own, top_origin] at leads
  exact leads.single (.inr linkFree)

theorem top_file (own : OwnName name) {bytes : Text.Bytes} {modified : Int}
    (found : fs.entry? [name] = some (.file bytes modified)) :
    fs.FileAt (top name) [name] ∧ fs.placeOfEntry (top name) = .ok (.found [name]) := by
  have leads := top_leads own found (by rintro _ ⟨⟩)
  constructor
  · refine fileAt_iff.2 ⟨bytes, modified, top_accepted own, ?_, found⟩
    rw [top_steps own, top_origin]
    exact leads .content
  · rw [placeOfEntry, follow, top_accepted own, top_stepsToEntry own, top_origin]
    exact (leads .entry).walk_eq

theorem status_top (own : OwnName name) {s : Status} (told : fs.statusAt? [name] = some s) :
    fs.status (top name) = .ok s := by
  obtain ⟨e, found, noLink⟩ := statusAt_plain told
  refine status_iff.2 ⟨top_accepted own, [name], ?_, told⟩
  rw [top_steps own, top_origin]
  exact top_leads own found noLink .content

theorem status_top_free (own : OwnName name) (free : fs.entry? [name] = none) :
    fs.status (top name) = .error .notFound := by
  have short := Nat.not_lt.2 own.short
  have root : fs.entry? [] = some .directory := rfl
  rw [status, locate, place, follow, top_accepted own, top_steps own, top_origin]
  simp [walk, root, short, free]

theorem top_replaceable (own : OwnName name) (plain : fs.entry? [name] ≠ some .directory) :
    ∃ place, Replaceable fs (top name) place [name] := by
  have short := Nat.not_lt.2 own.short
  have root : fs.entry? [] = some .directory := rfl
  have place : fs.placeOfEntry (top name) =
      .ok (if (fs.entry? [name]).isSome then .found [name] else .free [name]) := by
    rw [placeOfEntry, follow, top_accepted own, top_stepsToEntry own, top_origin]
    cases found : fs.entry? [name] with
    | none => simp [walk, root, short, found]
    | some e =>
      cases e with
      | link target | directory | file bytes modified => simp [walk, root, short, found]
  refine ⟨_, top_endsInName own, top_endsInSlash own, place, ?_, plain⟩
  split
  · exact .inl rfl
  · exact .inr rfl

theorem root_join (own : OwnName name) : (⟨"/"⟩ : Path).join ⟨name⟩ = top name := by
  have relative := slashless_relative own.clean
  simp [Path.join, relative, top]

theorem locate_top (own : OwnName name) (plain : fs.isDirectory (top name) = false) :
    Cache.locate fs ⟨name⟩ ⟨"/"⟩ = top name := by
  have noSlash : name.toList.getLast? ≠ some '/' :=
    fun last => own.clean (List.mem_of_getLast? last)
  rw [Cache.locate, Cache.namesDirectory, root_join own, plain]
  simp [noSlash]

/-- Right below the root there is a file of this name that can be read, or nothing. -/
def FreeOrFile (fs : FileSystem) (name : String) : Prop :=
  fs.entry? [name] = none ∨ ∃ bytes modified, fs.statusAt? [name] = some (.file bytes modified)

theorem FreeOrFile.plain (h : fs.FreeOrFile name) : fs.entry? [name] ≠ some .directory := by
  rcases h with free | ⟨bytes, modified, told⟩
  · rw [free]
    rintro ⟨⟩
  · rw [(statusAt_file.1 told).1]
    rintro ⟨⟩

theorem FreeOrFile.locate (h : fs.FreeOrFile name) (own : OwnName name) :
    Cache.locate fs ⟨name⟩ ⟨"/"⟩ = top name := by
  refine locate_top own ?_
  rcases h with free | ⟨bytes, modified, told⟩
  · rw [isDirectory, status_top_free own free]
  · rw [isDirectory, status_top own told]

theorem FreeOrFile.load (h : fs.FreeOrFile name) (own : OwnName name) (strategy : CacheStrategy) :
    ∃ loaded, Cache.load fs (top name) strategy = .ok loaded := by
  rw [Cache.load, read]
  rcases h with free | ⟨bytes, modified, told⟩
  · rw [status_top_free own free]
    exact ⟨_, rfl⟩
  · rw [status_top own told]
    exact ⟨_, rfl⟩

end FileSystem

theorem Cache.save_top {c : Cache} {fs : FileSystem} {name : String} (own : Path.OwnName name)
    (path : c.path = FileSystem.top name) (plain : fs.entry? [name] ≠ some .directory) :
    c.save fs = (.ok (), fs.set [name] (.file c.bytes fs.clock)) := by
  have parent : (FileSystem.top name).parent? = some ⟨"/"⟩ := by
    have kept : Path.dropVoidEnd [name] = [name] :=
      Path.dropVoidEnd_full (by simpa using own.own)
    simp only [Path.parent?, (FileSystem.top_opens own).opening, kept]
    rfl
  have directory : c.directory = ⟨"/"⟩ := by
    rw [Cache.directory, path, parent]
    rfl
  have there := FileSystem.createDirectories_there (p := ⟨"/"⟩) (by decide)
    (FileSystem.root_isDirectory fs)
  obtain ⟨place, can⟩ := FileSystem.top_replaceable own plain
  rw [save, directory, there, path]
  simp only [can.replace_eq]

theorem Cache.delete_top {fs : FileSystem} {name : String} (own : Path.OwnName name)
    {bytes : Text.Bytes} {modified : Int} (found : fs.entry? [name] = some (.file bytes modified)) :
    Cache.delete fs (FileSystem.top name) = (.ok true, fs.erase [name]) := by
  have removed : fs.remove (FileSystem.top name) = .ok (fs.erase [name]) := by
    rw [FileSystem.remove, (FileSystem.top_file own found).2]
    simp [FileSystem.top_endsInName own, FileSystem.top_endsInSlash own, found]
  rw [delete, removed]

end ParallelLint
