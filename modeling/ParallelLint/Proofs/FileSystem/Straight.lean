import ParallelLint.Proofs.FileSystem.Contents
import ParallelLint.Proofs.FileSystem.Replacing

set_option autoImplicit false

/-!
Ways to an entry. Its name is the last one of its path, and the names before lead to its directory.
A file that takes the place of the entry is found there again unless the way goes over that place
itself, by a link that is not there any more.
-/
namespace ParallelLint.FileSystem
variable {fs fs' : FileSystem} {links : Nat} {here l home : Location} {before todo : List Step}
  {name : String} {p : Path}

theorem Leads.start {purpose : Purpose} (h : Leads fs purpose links here todo home)
    (directory : fs.entry? home = some .directory) : fs.entry? here = some .directory := by
  cases h with
  | arrive => exact directory
  | stay found | up found | down found | link found | follow found => exact found

theorem Leads.kept (h : Leads fs .content links here todo home)
    (directory : fs.entry? home = some .directory)
    (kept : ∀ m e, fs.entry? m = some e → (∀ bytes modified, e ≠ .file bytes modified) →
      fs'.entry? m = some e) : Leads fs' .content links here todo home := by
  have there : ∀ {m}, fs.entry? m = some .directory → fs'.entry? m = some .directory :=
    fun found => kept _ _ found (by simp)
  induction h with
  | arrive => exact .arrive ..
  | stay found plain _ ih => exact .stay (there found) plain (ih directory)
  | up found _ ih => exact .up (there found) (ih directory)
  | down found _ short _ _ more ih =>
    exact .down (there found) (by simp) short (there (more.start directory)) (by simp)
      (ih directory)
  | link _ wanted => cases wanted
  | follow found _ short link _ _ ih =>
    exact .follow (there found) (by simp) short (kept _ _ link (by simp)) (by simp) (ih directory)

theorem Leads.unique {purpose : Purpose} (h : Leads fs purpose links here todo home)
    (h' : Leads fs purpose links here todo l) : home = l := by
  have same := h.walk_eq.symm.trans h'.walk_eq
  exact Place.found.inj (Except.ok.inj same)

theorem Leads.spare (h : Leads fs .content links here todo home) (spare : Nat) :
    fs.walk .content spare here todo = .ok (.found home) ∨
      fs.walk .content spare here todo = .error .tooManyLinks := by
  induction h generalizing spare with
  | arrive => exact .inl (by rw [walk])
  | stay directory plain _ ih => rcases plain with rfl | rfl <;> simpa [walk, directory] using ih spare
  | up directory _ ih => simpa [walk, directory] using ih spare
  | @down _ _ _ _ _ entry directory _ short found plain _ ih =>
    cases entry with
    | link target => exact absurd rfl (plain target)
    | file | directory => simpa [walk, directory, Nat.not_lt.2 short, found] using ih spare
  | link _ wanted => cases wanted
  | follow directory _ short found _ _ ih =>
    cases spare with
    | zero => simp [walk, directory, Nat.not_lt.2 short, found]
    | succ spare => simpa [walk, directory, Nat.not_lt.2 short, found] using ih spare

/-- The place of a location, as a path to its entry names it. -/
def placeAt (fs : FileSystem) (l : Location) : Place :=
  if (fs.entry? l).isSome then .found l else .free l

theorem walk_last {place : Place} :
    fs.walk .entry links here (before ++ [.name name]) = .ok place ↔
      ∃ home, Leads fs .content links here before home ∧
        fs.entry? home = some .directory ∧ name.utf8ByteSize ≤ 255 ∧
        place = fs.placeAt (home ++ [name]) := by
  constructor
  · intro h
    generalize whole : before ++ [.name name] = todo at h
    fun_induction walk fs .entry links here todo generalizing before with
    | case1 => simp at whole
    | case2 links here rest directory ih =>
      obtain ⟨-, other⟩ | ⟨before, rfl, rfl⟩ := List.append_eq_cons_iff.1 whole
      · cases other
      · obtain ⟨home, leads, more⟩ := ih rfl h
        exact ⟨home, .stay directory (.inl rfl) leads, more⟩
    | case3 links here rest directory ih =>
      obtain ⟨-, other⟩ | ⟨before, rfl, rfl⟩ := List.append_eq_cons_iff.1 whole
      · cases other
      · obtain ⟨home, leads, more⟩ := ih rfl h
        exact ⟨home, .stay directory (.inr rfl) leads, more⟩
    | case4 links here rest directory ih =>
      obtain ⟨-, other⟩ | ⟨before, rfl, rfl⟩ := List.append_eq_cons_iff.1 whole
      · cases other
      · obtain ⟨home, leads, more⟩ := ih rfl h
        exact ⟨home, .up directory leads, more⟩
    | case7 links here rest directory text free short none last =>
      obtain ⟨rfl, same⟩ | ⟨before, rfl, rfl⟩ := List.append_eq_cons_iff.1 whole
      · cases same
        cases h
        exact ⟨here, .arrive .., directory, Nat.not_lt.1 short, by simp [placeAt, none]⟩
      · simp at last
    | case9 links here rest directory text free short target found last =>
      obtain ⟨rfl, same⟩ | ⟨before, rfl, rfl⟩ := List.append_eq_cons_iff.1 whole
      · cases same
        cases h
        exact ⟨here, .arrive .., directory, Nat.not_lt.1 short, by simp [placeAt, found]⟩
      · simp at last
    | case11 here rest directory text free short target found onward links ih =>
      obtain ⟨-, same⟩ | ⟨before, rfl, rfl⟩ := List.append_eq_cons_iff.1 whole
      · cases same
        simp at onward
      · obtain ⟨home, leads, more⟩ := ih (List.append_assoc ..) h
        exact ⟨home, .follow directory (by simp) (Nat.not_lt.1 short) found (by simp) leads, more⟩
    | case12 links here rest directory text free short entry plain found ih =>
      obtain ⟨rfl, same⟩ | ⟨before, rfl, rfl⟩ := List.append_eq_cons_iff.1 whole
      · cases same
        rw [walk] at h
        cases h
        exact ⟨here, .arrive .., directory, Nat.not_lt.1 short, by simp [placeAt, found]⟩
      · obtain ⟨home, leads, more⟩ := ih rfl h
        exact ⟨home, .down directory (by simp) (Nat.not_lt.1 short) found plain leads, more⟩
    | _ => cases h
  · rintro ⟨home, leads, directory, short, rfl⟩
    induction leads with
    | arrive =>
      rw [List.nil_append, walk]
      cases found : fs.entry? (_ ++ [name]) with
      | none => simp [directory, Nat.not_lt.2 short, placeAt, found]
      | some entry =>
        cases entry with
        | link target => simp [directory, Nat.not_lt.2 short, placeAt, found]
        | file | directory => simp [directory, Nat.not_lt.2 short, placeAt, found, walk]
    | stay found plain _ ih =>
      rcases plain with rfl | rfl <;> simpa [walk, found] using ih directory
    | up found _ ih => simpa [walk, found] using ih directory
    | @down _ _ _ _ _ entry found _ short' there plain _ ih =>
      cases entry with
      | link target => exact absurd rfl (plain target)
      | file | directory => simpa [walk, found, Nat.not_lt.2 short', there] using ih directory
    | link _ wanted => cases wanted
    | follow found _ short' there _ _ ih =>
      simpa [walk, found, Nat.not_lt.2 short', there] using ih directory

theorem Leads.last {e : Entry} (h : Leads fs .content links here before home)
    (directory : fs.entry? home = some .directory) (short : name.utf8ByteSize ≤ 255)
    (found : fs.entry? (home ++ [name]) = some e) (plain : ∀ target, e ≠ .link target) :
    Leads fs .content links here (before ++ [.name name]) (home ++ [name]) := by
  induction h with
  | arrive => exact .down directory (by simp) short found plain (.arrive ..)
  | stay there idle _ ih => exact .stay there idle (ih directory found)
  | up there _ ih => exact .up there (ih directory found)
  | down there _ short' entry plain' _ ih =>
    exact .down there (by simp) short' entry plain' (ih directory found)
  | link _ wanted => cases wanted
  | follow there _ short' link _ _ ih =>
    have more := ih directory found
    rw [List.append_assoc] at more
    exact .follow there (by simp) short' link (by simp) more

theorem Leads.last_link {target : String} (h : Leads fs .content links here before home)
    (directory : fs.entry? home = some .directory) (short : name.utf8ByteSize ≤ 255)
    (found : fs.entry? (home ++ [name]) = some (.link target)) :
    fs.walk .content links here (before ++ [.name name]) = .error .tooManyLinks ∨
      ∃ spare, fs.walk .content links here (before ++ [.name name]) =
        fs.walk .content spare (linkOrigin target home) (steps ⟨target⟩) := by
  induction h with
  | arrive links here =>
    rw [List.nil_append, walk]
    cases links with
    | zero => simp [directory, Nat.not_lt.2 short, found]
    | succ links =>
      refine .inr ⟨links, ?_⟩
      simp [directory, Nat.not_lt.2 short, found]
  | stay there idle _ ih =>
    rcases idle with rfl | rfl <;> simpa [walk, there] using ih directory found
  | up there _ ih => simpa [walk, there] using ih directory found
  | @down _ _ _ _ _ entry there _ short' entered plain _ ih =>
    cases entry with
    | link target => exact absurd rfl (plain target)
    | file | directory => simpa [walk, there, Nat.not_lt.2 short', entered] using ih directory found
  | link _ wanted => cases wanted
  | follow there _ short' link _ _ ih =>
    simpa [walk, there, Nat.not_lt.2 short', link] using ih directory found

/-- A way to a directory stays when a file takes the place of a link, or the link itself leads to a
directory. -/
theorem Leads.across {target : String} {bytes : Text.Bytes} {modified : Int}
    (h : Leads fs .content links here todo home) (directory : fs.entry? home = some .directory)
    (link : fs.entry? l = some (.link target)) :
    Leads (fs.set l (.file bytes modified)) .content links here todo home ∨
      ∃ spare m, Leads fs .content spare (linkOrigin target l.dropLast) (steps ⟨target⟩) m ∧
        fs.entry? m = some .directory := by
  have kept : ∀ {m : Location} {e : Entry}, fs.entry? m = some e → e ≠ .link target →
      FileSystem.entry? (fs.set l (.file bytes modified)) m = some e := by
    intro m e found other
    rw [get_set_other, found]
    rintro rfl
    exact other (Option.some.inj (found.symm.trans link))
  induction h with
  | arrive => exact .inl (.arrive ..)
  | stay found plain _ ih => exact (ih directory).imp_left (.stay (kept found (by simp)) plain)
  | up found _ ih => exact (ih directory).imp_left (.up (kept found (by simp)))
  | down found _ short entered plain _ ih =>
    exact (ih directory).imp_left
      (.down (kept found (by simp)) (by simp) short (kept entered (plain _)) plain)
  | link _ wanted => cases wanted
  | @follow links here m rest name target' found _ short link' _ more ih =>
    by_cases same : here ++ [name] = l
    · right
      subst same
      obtain rfl : target' = target := by simpa using link'.symm.trans link
      rw [List.dropLast_concat]
      cases rest with
      | nil => exact ⟨links, m, by simpa using more, directory⟩
      | cons step rest =>
        obtain ⟨m, leads, inside⟩ := more.split rfl (by simp)
        exact ⟨links, m, leads, inside⟩
    · refine (ih directory).imp_left (.follow (kept found (by simp)) (by simp) short ?_ (by simp))
      exact (get_set_other same _).trans link'

/-- The way to a link that leads to no directory does not go over that link. -/
theorem Leads.unlooped {target : String} {bytes : Text.Bytes} {modified : Int}
    (h : Leads fs .content links here before home) (directory : fs.entry? home = some .directory)
    (short : name.utf8ByteSize ≤ 255) (link : fs.entry? (home ++ [name]) = some (.link target))
    (few : fs.walk .content links here (before ++ [.name name]) ≠ .error .tooManyLinks)
    (plain : ∀ m, fs.walk .content links here (before ++ [.name name]) = .ok (.found m) →
      fs.entry? m ≠ some .directory) :
    Leads (fs.set (home ++ [name]) (.file bytes modified)) .content links here before home := by
  rcases @Leads.across _ _ _ _ _ _ _ bytes modified h directory link with
    stays | ⟨spare, m, leads, inside⟩
  · exact stays
  rw [List.dropLast_concat] at leads
  rcases h.last_link directory short link with many | ⟨spare', walks⟩
  · exact absurd many few
  · rcases leads.spare spare' with found | many
    · exact absurd inside (plain m (walks.trans found))
    · exact absurd (walks.trans many) few

/-- The name of an entry, and the way to its directory. -/
structure Inside (fs : FileSystem) (p : Path) (before : List Step) (name : String)
    (home : Location) : Prop where
  accepted : refused? p = none
  cut : steps p = before ++ [.name name]
  leads : Leads fs .content linkLimit (fs.origin p) before home
  directory : fs.entry? home = some .directory
  short : name.utf8ByteSize ≤ 255

theorem placeOfEntry_iff {place : Place} (cut : steps p = before ++ [.name name]) :
    fs.placeOfEntry p = .ok place ↔
      ∃ home, fs.Inside p before name home ∧ place = fs.placeAt (home ++ [name]) := by
  have noSlash : endsInSlash p = false := by simp [endsInSlash, cut]
  rw [placeOfEntry, follow, stepsToEntry_eq noSlash, cut]
  constructor
  · intro h
    split at h
    · cases h
    · rename_i accepted
      obtain ⟨home, leads, directory, short, at_⟩ := walk_last.1 h
      exact ⟨home, ⟨accepted, cut, leads, directory, short⟩, at_⟩
  · rintro ⟨home, inside, at_⟩
    rw [inside.accepted]
    exact walk_last.2 ⟨home, inside.leads, inside.directory, inside.short, at_⟩

theorem placeAt_eq {place : Place} (h : place = fs.placeAt l)
    (at_ : place = .found home ∨ place = .free home) : home = l := by
  subst h
  unfold placeAt at at_
  split at at_ <;> rcases at_ with at_ | at_ <;> cases at_ <;> rfl

namespace Inside

theorem unique {other : Location} (h : fs.Inside p before name home)
    (h' : fs.Inside p before name other) : home = other := h.leads.unique h'.leads

theorem kept (h : fs.Inside p before name home)
    (origin : fs'.workingDirectory = fs.workingDirectory)
    (kept : ∀ m e, fs.entry? m = some e → (∀ bytes modified, e ≠ .file bytes modified) →
      fs'.entry? m = some e) : fs'.Inside p before name home where
  accepted := h.accepted
  cut := h.cut
  leads := by
    have same : fs'.origin p = fs.origin p := by rw [FileSystem.origin, FileSystem.origin, origin]
    exact same ▸ h.leads.kept h.directory kept
  directory := kept _ _ h.directory (by simp)
  short := h.short

theorem within (h : fs.Inside p before name home) (within : fs.Within fs') :
    fs'.Inside p before name home :=
  h.kept within.1.symm fun m e found _ => within.2 m e found

theorem read {bytes : Text.Bytes} {modified : Int} (h : fs.Inside p before name home)
    (told : fs.statusAt? (home ++ [name]) = some (.file bytes modified)) :
    fs.read p = .ok bytes := by
  have found := (statusAt_file.1 told).1
  refine read_iff.2 ⟨modified, status_iff.2 ⟨h.accepted, _, ?_, told⟩⟩
  rw [h.cut]
  exact h.leads.last h.directory h.short found (by simp)

theorem around {q : Path} (h : fs.Inside p before name home) (begins : Begins q p) :
    fs.isDirectory q = true := by
  refine begins.directory h.accepted fun front after cut more => ?_
  cases after using List.reverseRecOn with
  | nil => exact absurd rfl more
  | append_singleton after s =>
    rw [h.cut, ← List.append_assoc] at cut
    obtain ⟨cut, -⟩ := List.append_inj' cut rfl
    by_cases last : after = []
    · rw [last, List.append_nil] at cut
      exact ⟨home, cut ▸ h.leads, h.directory⟩
    · exact h.leads.split cut last

theorem filled (h : fs.Inside p before name home) (few : fs.status p ≠ .error .tooManyLinks)
    (plain : fs.isDirectory p ≠ true) (bytes : Text.Bytes) (modified : Int) :
    (fs.set (home ++ [name]) (.file bytes modified)).Inside p before name home := by
  have inside : FileSystem.entry? (fs.set (home ++ [name]) (.file bytes modified)) home =
      some .directory := by
    rw [get_set_other (by simp), h.directory]
  refine ⟨h.accepted, h.cut, ?_, inside, h.short⟩
  cases found : fs.entry? (home ++ [name]) with
  | none => exact h.leads.within (set_within found _)
  | some entry =>
    cases entry with
    | file =>
      refine h.leads.kept h.directory fun m e there other => ?_
      rw [get_set_other, there]
      rintro rfl
      exact other _ _ (Option.some.inj (there.symm.trans found))
    | directory =>
      have leads := h.leads.last h.directory h.short found (by simp)
      exact absurd (isDirectory_iff.2 ⟨h.accepted, _, h.cut ▸ leads, found⟩) plain
    | link target =>
      refine h.leads.unlooped h.directory h.short found (fun many => few ?_) fun m leads there => ?_
      · rw [status, locate, place, follow, h.accepted, h.cut]
        simp only [many]
      · exact plain (isDirectory_iff.2 ⟨h.accepted, m, h.cut ▸ walk_found.1 leads, there⟩)

end Inside

/-- The way to the entry that a path names does not go over that entry. -/
def Straight (fs : FileSystem) (p : Path) : Prop :=
  ∀ l, fs.placeOfEntry p = .ok (.found l) → (fs.erase l).placeOfEntry p = .ok (.free l)

theorem erase_within_set (named : l ≠ []) (e : Entry) : (fs.erase l).Within (fs.set l e) := by
  refine ⟨rfl, fun m e' found => ?_⟩
  have other : m ≠ l := by
    rintro rfl
    rw [get_erase_same named] at found
    cases found
  exact (get_set_other other e).trans ((erase_within fs l).2 m e' found)

theorem Replaceable.inside {place : Place} (h : Replaceable fs p place l)
    (cut : steps p = before ++ [.name name]) :
    ∃ home, fs.Inside p before name home ∧ l = home ++ [name] := by
  obtain ⟨home, inside, at_⟩ := (placeOfEntry_iff cut).1 h.here
  exact ⟨home, inside, placeAt_eq at_ h.at_⟩

theorem Straight.read {place : Place} (straight : fs.Straight p) (can : Replaceable fs p place l)
    (bytes : Text.Bytes) (modified : Int) :
    (fs.set l (.file bytes modified)).read p = .ok bytes := by
  obtain ⟨before, name, cut⟩ := last_name can.named can.noSlash
  obtain ⟨home, inside, rfl⟩ := can.inside cut
  suffices same : (fs.set (home ++ [name]) (.file bytes modified)).Inside p before name home from
    same.read (statusAt_set (by simp) bytes modified)
  rcases can.at_ with at_ | at_
  · have free := straight _ (at_ ▸ can.here)
    obtain ⟨home', inside', at'⟩ := (placeOfEntry_iff cut).1 free
    have same := List.append_inj_left' (placeAt_eq at' (.inr rfl)) rfl
    subst same
    exact inside'.within (erase_within_set (by simp) _)
  · exact inside.within (set_within (placeOfEntry_free (at_ ▸ can.here)) _)

theorem kept_unset {bytes : Text.Bytes} {modified : Int} (named : l ≠ []) :
    ∀ m e, FileSystem.entry? (fs.set l (.file bytes modified)) m = some e →
      (∀ bytes modified, e ≠ .file bytes modified) → m ≠ l ∧ fs.entry? m = some e := by
  intro m e found plain
  have other : m ≠ l := by
    rintro rfl
    rw [get_set_same named] at found
    exact plain _ _ (Option.some.inj found).symm
  exact ⟨other, (get_set_other other _).symm.trans found⟩

theorem Replaceable.names {place : Place} {m : Location} (can : Replaceable fs p place l)
    {bytes : Text.Bytes} {modified : Int}
    (here : (fs.set l (.file bytes modified)).placeOfEntry p = .ok (.found m)) : m = l := by
  obtain ⟨before, name, cut⟩ := last_name can.named can.noSlash
  obtain ⟨home, inside, at_⟩ := (placeOfEntry_iff cut).1 here
  obtain ⟨home', inside', same⟩ := can.inside cut
  have was : fs.Inside p before name home :=
    inside.kept rfl fun m e found plain => (kept_unset can.root m e found plain).2
  obtain rfl := was.unique inside'
  exact (placeAt_eq at_ (.inl rfl)).trans same.symm

theorem Replaceable.holds {place : Place} (can : Replaceable fs p place l) (bytes : Text.Bytes)
    (modified : Int) : (fs.set l (.file bytes modified)).bytesAt? l = some bytes :=
  bytesAt_iff.2 ⟨modified, get_set_same can.root _⟩

theorem Replaceable.straight {place : Place} (can : Replaceable fs p place l) (tree : fs.IsTree)
    {bytes b : Text.Bytes} {modified : Int}
    (read : (fs.set l (.file bytes modified)).read p = .ok b) : fs.Straight p := by
  intro m found
  obtain rfl : l = m := by
    rcases can.at_ with rfl | rfl
    · exact Place.found.inj (Except.ok.inj (can.here.symm.trans found))
    · cases can.here.symm.trans found
  obtain ⟨before, name, cut⟩ := last_name can.named can.noSlash
  obtain ⟨home, inside, rfl⟩ := (can.again read).inside cut
  refine (placeOfEntry_iff cut).2 ⟨home, inside.kept rfl fun m e found plain => ?_, ?_⟩
  · obtain ⟨other, before⟩ := kept_unset can.root m e found plain
    rw [tree.get_erase can.plain other, before]
  · rw [placeAt, get_erase_same can.root]
    rfl

def NamesFile (fs : FileSystem) (p : Path) (l : Location) (bytes : Text.Bytes) : Prop :=
  fs.placeOfEntry p = .ok (.found l) ∧ fs.bytesAt? l = some bytes

/-- The entry at a location is gone, and all others are the same. -/
structure LosesOnly (fs fs' : FileSystem) (l : Location) : Prop where
  origin : fs'.workingDirectory = fs.workingDirectory
  gone : fs'.entry? l = none
  others : ∀ m, m ≠ l → fs'.entry? m = fs.entry? m

theorem NamesFile.found {bytes : Text.Bytes} (h : fs.NamesFile p l bytes) :
    ∃ modified, fs.entry? l = some (.file bytes modified) := bytesAt_iff.1 h.2

theorem NamesFile.remove {bytes : Text.Bytes} (h : fs.NamesFile p l bytes)
    (named : endsInName p = true) (noSlash : endsInSlash p = false) :
    fs.remove p = .ok (fs.erase l) := by
  obtain ⟨modified, found⟩ := h.found
  rw [FileSystem.remove, h.1]
  simp [named, noSlash, found]

theorem NamesFile.loses {bytes : Text.Bytes} (h : fs.NamesFile p l bytes) (tree : fs.IsTree) :
    fs.LosesOnly (fs.erase l) l := by
  obtain ⟨modified, found⟩ := h.found
  have named : l ≠ [] := by
    rintro rfl
    cases found
  exact ⟨rfl, get_erase_same named, fun m other => tree.get_erase (by simp [found]) other⟩

namespace LosesOnly

theorem within (h : fs.LosesOnly fs' l) : fs'.Within fs := by
  refine ⟨h.origin, fun m e found => ?_⟩
  have other : m ≠ l := by
    rintro rfl
    rw [h.gone] at found
    cases found
  exact (h.others m other).symm.trans found

theorem kept {bytes : Text.Bytes} (h : fs.LosesOnly fs' l) (file : fs.bytesAt? l = some bytes)
    (m : Location) (e : Entry) (found : fs.entry? m = some e)
    (plain : ∀ bytes modified, e ≠ .file bytes modified) : fs'.entry? m = some e := by
  obtain ⟨modified, there⟩ := bytesAt_iff.1 file
  rw [h.others, found]
  rintro rfl
  exact plain _ _ (Option.some.inj (found.symm.trans there))

theorem isDirectory {bytes : Text.Bytes} (h : fs.LosesOnly fs' l)
    (file : fs.bytesAt? l = some bytes) (q : Path) : fs'.isDirectory q = fs.isDirectory q := by
  rw [Bool.eq_iff_iff]
  constructor
  · exact isDirectory_within h.within
  · intro directory
    obtain ⟨accepted, m, leads, found⟩ := isDirectory_iff.1 directory
    have kept := h.kept file
    have origin : fs'.origin q = fs.origin q := by
      rw [FileSystem.origin, FileSystem.origin, h.origin]
    exact isDirectory_iff.2 ⟨accepted, m, origin ▸ leads.kept found kept, kept m _ found (by simp)⟩

theorem namesFile {m : Location} {bytes bytes' : Text.Bytes} (h : fs.LosesOnly fs' l)
    (file : fs.bytesAt? l = some bytes) (cut : steps p = before ++ [.name name])
    (names : fs.NamesFile p m bytes') (other : m ≠ l) : fs'.NamesFile p m bytes' := by
  obtain ⟨modified, found⟩ := names.found
  have there := (h.others m other).trans found
  obtain ⟨home, inside, at_⟩ := (placeOfEntry_iff cut).1 names.1
  have same := placeAt_eq at_ (.inl rfl)
  subst same
  refine ⟨(placeOfEntry_iff cut).2 ⟨home, inside.kept h.origin (h.kept file), ?_⟩,
    bytesAt_iff.2 ⟨modified, there⟩⟩
  rw [placeAt, there]
  rfl

end LosesOnly

end ParallelLint.FileSystem
