import ParallelLint.FileSystem.Change

set_option autoImplicit false

namespace ParallelLint.FileSystem

@[simp] theorem entry?_root (fs : FileSystem) : fs.entry? [] = some .directory := rfl

theorem lookup_putEntry (location : Location) (entry : Entry) (entries : List (Location × Entry))
    (l : Location) :
    (putEntry location entry entries).lookup l =
      if l = location then some entry else entries.lookup l := by
  induction entries with
  | nil =>
    by_cases h : l = location
    · simp [putEntry, h]
    · simp [putEntry, List.lookup_cons, h, beq_eq_false_iff_ne.2 h]
  | cons f rest ih =>
    obtain ⟨k, e⟩ := f
    by_cases h : l = location
    · subst h
      by_cases hk : k = l
      · simp [putEntry, hk]
      · have other : (l == k) = false := beq_eq_false_iff_ne.2 (Ne.symm hk)
        simp [putEntry, hk, List.lookup_cons, other, ih]
    · have other : (l == location) = false := beq_eq_false_iff_ne.2 h
      by_cases hk : k = location
      · simp [putEntry, hk, List.lookup_cons, other, h]
      · simp [putEntry, hk, List.lookup_cons, ih, h]

@[simp] theorem entry?_relist (fs : FileSystem) (directory l : Location) :
    FileSystem.entry? (fs.relist directory) l = fs.entry? l := rfl

theorem get_put_same {fs : FileSystem} {location : Location} (named : location ≠ [])
    (entry : Entry) : FileSystem.entry? (fs.put location entry) location = some entry := by
  simp [put, named, lookup_putEntry, entry?]

theorem get_put_other {fs : FileSystem} {location l : Location} (other : l ≠ location)
    (entry : Entry) : FileSystem.entry? (fs.put location entry) l = fs.entry? l := by
  simp [put, lookup_putEntry, other, entry?]

theorem get_set_same {fs : FileSystem} {location : Location} (named : location ≠ [])
    (entry : Entry) : FileSystem.entry? (fs.set location entry) location = some entry :=
  get_put_same named entry

theorem get_set_other {fs : FileSystem} {location l : Location} (other : l ≠ location)
    (entry : Entry) : FileSystem.entry? (fs.set location entry) l = fs.entry? l :=
  get_put_other other entry

theorem lookup_filter (keep : Location → Bool) (entries : List (Location × Entry)) (l : Location) :
    (entries.filter fun f => keep f.1).lookup l = if keep l then entries.lookup l else none := by
  induction entries with
  | nil => simp
  | cons f rest ih =>
    obtain ⟨k, e⟩ := f
    rw [List.filter_cons]
    by_cases h : l = k
    · subst h
      cases kept : keep l <;> simp [kept, ih]
    · have other : (l == k) = false := beq_eq_false_iff_ne.2 h
      cases kept : keep k <;> simp [List.lookup_cons, other, ih]

theorem entry_erase (fs : FileSystem) (location l : Location) :
    FileSystem.entry? (fs.erase location) l =
      if l ≠ [] ∧ location.isPrefixOf l = true then none else fs.entry? l := by
  unfold erase
  rw [entry?_relist]
  by_cases root : l = []
  · simp [root]
  · simp only [List.isEmpty_iff, root, entry?, ite_false,
      lookup_filter fun l => !location.isPrefixOf l]
    cases location.isPrefixOf l <;> simp [root]

/-- What is there is also there in the other file system. -/
def Within (fs fs' : FileSystem) : Prop :=
  fs.workingDirectory = fs'.workingDirectory ∧
    ∀ l e, fs.entry? l = some e → fs'.entry? l = some e

theorem set_within {fs : FileSystem} {location : Location} (free : fs.entry? location = none)
    (entry : Entry) : fs.Within (fs.set location entry) := by
  refine ⟨rfl, fun l e found => ?_⟩
  have other : l ≠ location := by
    rintro rfl
    rw [free] at found
    cases found
  exact (get_set_other other entry).trans found

theorem erase_within (fs : FileSystem) (location : Location) : (fs.erase location).Within fs := by
  refine ⟨rfl, fun l e h => ?_⟩
  rw [entry_erase] at h
  split at h
  · cases h
  · exact h

/-- Walks that arrive at an entry, with the links that may still be followed. -/
inductive Leads (fs : FileSystem) (purpose : Purpose) :
    Nat → Location → List Step → Location → Prop where
  | arrive (links : Nat) (here : Location) : Leads fs purpose links here [] here
  | stay {links : Nat} {here l : Location} {step : Step} {rest : List Step}
      (directory : fs.entry? here = some .directory) (plain : step = .here ∨ step = .slash)
      (more : Leads fs purpose links here rest l) : Leads fs purpose links here (step :: rest) l
  | up {links : Nat} {here l : Location} {rest : List Step}
      (directory : fs.entry? here = some .directory)
      (more : Leads fs purpose links here.dropLast rest l) :
      Leads fs purpose links here (.up :: rest) l
  | down {links : Nat} {here l : Location} {rest : List Step} {name : String} {entry : Entry}
      (directory : fs.entry? here = some .directory)
      (free : (decide (purpose = .output) && onlySlashes rest) = false)
      (short : name.utf8ByteSize ≤ 255) (found : fs.entry? (here ++ [name]) = some entry)
      (plain : ∀ target, entry ≠ .link target)
      (more : Leads fs purpose links (here ++ [name]) rest l) :
      Leads fs purpose links here (.name name :: rest) l
  | link {links : Nat} {here : Location} {name target : String}
      (directory : fs.entry? here = some .directory) (wanted : purpose = .entry)
      (short : name.utf8ByteSize ≤ 255) (found : fs.entry? (here ++ [name]) = some (.link target)) :
      Leads fs purpose links here [.name name] (here ++ [name])
  | follow {links : Nat} {here l : Location} {rest : List Step} {name target : String}
      (directory : fs.entry? here = some .directory)
      (free : (decide (purpose = .output) && onlySlashes rest) = false)
      (short : name.utf8ByteSize ≤ 255) (found : fs.entry? (here ++ [name]) = some (.link target))
      (onward : (rest.isEmpty && decide (purpose = .entry)) = false)
      (more : Leads fs purpose links (linkOrigin target here) (steps ⟨target⟩ ++ rest) l) :
      Leads fs purpose (links + 1) here (.name name :: rest) l

section
variable {fs fs' : FileSystem} {purpose : Purpose} {links : Nat} {here l : Location}
  {todo : List Step}

theorem leads_of_walk (h : fs.walk purpose links here todo = .ok (.found l)) :
    Leads fs purpose links here todo l := by
  fun_induction walk fs purpose links here todo with
  | case1 => cases h; exact .arrive ..
  | case2 _ _ _ directory ih => exact .stay directory (.inl rfl) (ih h)
  | case3 _ _ _ directory ih => exact .stay directory (.inr rfl) (ih h)
  | case4 _ _ _ directory ih => exact .up directory (ih h)
  | case9 links here rest directory name free short target found last =>
    cases h
    rw [Bool.and_eq_true, List.isEmpty_iff, decide_eq_true_eq] at last
    obtain ⟨rfl, wanted⟩ := last
    exact .link directory wanted (Nat.not_lt.1 short) found
  | case11 here rest directory name free short target found onward links ih =>
    exact .follow directory (by simpa using free) (Nat.not_lt.1 short) found
      (by simpa using onward) (ih h)
  | case12 links here rest directory name free short entry plain found ih =>
    exact .down directory (by simpa using free) (Nat.not_lt.1 short) found plain (ih h)
  | _ => cases h

theorem Leads.walk_eq (h : Leads fs purpose links here todo l) :
    fs.walk purpose links here todo = .ok (.found l) := by
  induction h with
  | arrive => rw [walk]
  | stay directory plain _ ih => rcases plain with rfl | rfl <;> simp [walk, directory, ih]
  | up directory _ ih => simp [walk, directory, ih]
  | @down _ _ _ _ _ entry directory free short found plain _ ih =>
    rw [walk]
    cases entry with
    | link target => exact absurd rfl (plain target)
    | file | directory => simp [directory, free, Nat.not_lt.2 short, found, ih]
  | link directory wanted short found =>
    rw [walk]
    simp [directory, wanted, Nat.not_lt.2 short, found]
  | follow directory free short found onward _ ih =>
    rw [walk]
    simp only [directory, free, Nat.not_lt.2 short, found, onward, ih, Bool.false_eq_true,
      ite_false]

theorem walk_found :
    fs.walk purpose links here todo = .ok (.found l) ↔ Leads fs purpose links here todo l :=
  ⟨leads_of_walk, Leads.walk_eq⟩

theorem walk_free (h : fs.walk purpose links here todo = .ok (.free l)) : fs.entry? l = none := by
  fun_induction walk fs purpose links here todo with
  | case2 _ _ _ _ ih | case3 _ _ _ _ ih | case4 _ _ _ _ ih => exact ih h
  | case11 _ _ _ _ _ _ _ _ _ _ ih => exact ih h
  | case12 _ _ _ _ _ _ _ _ _ _ ih => exact ih h
  | case7 links here rest directory name free short none => cases h; exact none
  | _ => cases h

theorem Leads.within (h : Leads fs purpose links here todo l) (within : fs.Within fs') :
    Leads fs' purpose links here todo l := by
  have there := within.2
  induction h with
  | arrive => exact .arrive ..
  | stay directory plain _ ih => exact .stay (there _ _ directory) plain ih
  | up directory _ ih => exact .up (there _ _ directory) ih
  | down directory free short found plain _ ih =>
    exact .down (there _ _ directory) free short (there _ _ found) plain ih
  | link directory wanted short found =>
    exact .link (there _ _ directory) wanted short (there _ _ found)
  | follow directory free short found onward _ ih =>
    exact .follow (there _ _ directory) free short (there _ _ found) onward ih

theorem Leads.split {before after : List Step} (h : Leads fs .content links here todo l)
    (cut : todo = before ++ after) (more : after ≠ []) :
    ∃ m, Leads fs .content links here before m ∧ fs.entry? m = some .directory := by
  induction h generalizing before with
  | arrive => exact absurd (List.append_eq_nil_iff.1 cut.symm).2 more
  | stay directory plain _ ih =>
    cases before with
    | nil => exact ⟨_, .arrive .., directory⟩
    | cons s before =>
      obtain ⟨rfl, rfl⟩ := List.cons.inj cut
      obtain ⟨m, leads, found⟩ := ih rfl
      exact ⟨m, .stay directory plain leads, found⟩
  | up directory _ ih =>
    cases before with
    | nil => exact ⟨_, .arrive .., directory⟩
    | cons s before =>
      obtain ⟨rfl, rfl⟩ := List.cons.inj cut
      obtain ⟨m, leads, found⟩ := ih rfl
      exact ⟨m, .up directory leads, found⟩
  | down directory _ short entry plain _ ih =>
    cases before with
    | nil => exact ⟨_, .arrive .., directory⟩
    | cons s before =>
      obtain ⟨rfl, rfl⟩ := List.cons.inj cut
      obtain ⟨m, leads, found⟩ := ih rfl
      exact ⟨m, .down directory (by simp) short entry plain leads, found⟩
  | link _ wanted => cases wanted
  | follow directory _ short link _ _ ih =>
    cases before with
    | nil => exact ⟨_, .arrive .., directory⟩
    | cons s before =>
      obtain ⟨rfl, rfl⟩ := List.cons.inj cut
      obtain ⟨m, leads, found⟩ := ih (List.append_assoc ..).symm
      exact ⟨m, .follow directory (by simp) short link (by simp) leads, found⟩

theorem Leads.rewritten {location : Location} {bytes bytes' : Text.Bytes} {modified modified' : Int}
    (h : Leads fs purpose links here todo l)
    (old : fs.entry? location = some (.file bytes modified)) :
    Leads (fs.set location (.file bytes' modified')) purpose links here todo l := by
  have other : ∀ {m : Location} {e : Entry}, fs.entry? m = some e → (∀ b t, e ≠ .file b t) →
      FileSystem.entry? (fs.set location (.file bytes' modified')) m = some e := by
    intro m e found plain
    rw [get_set_other, found]
    rintro rfl
    exact plain _ _ (Option.some.inj (found.symm.trans old))
  have named : location ≠ [] := by
    rintro rfl
    cases old
  induction h with
  | arrive => exact .arrive ..
  | stay directory plain _ ih => exact .stay (other directory (by simp)) plain ih
  | up directory _ ih => exact .up (other directory (by simp)) ih
  | @down _ here _ _ name _ directory free short found plain _ ih =>
    by_cases same : here ++ [name] = location
    · have there : FileSystem.entry? (fs.set location (.file bytes' modified')) location = _ :=
        get_set_same named _
      subst same
      exact .down (other directory (by simp)) free short there (by simp) ih
    · exact .down (other directory (by simp)) free short
        ((get_set_other same _).trans found) plain ih
  | link directory wanted short found =>
    exact .link (other directory (by simp)) wanted short (other found (by simp))
  | follow directory free short found onward _ ih =>
    exact .follow (other directory (by simp)) free short (other found (by simp)) onward ih

/-- Where a file takes the place of the entry that a path names, the path leads nowhere else, and
the entry is still the one that it names. -/
theorem Leads.replaced {location : Location} {place : Place} {bytes : Text.Bytes} {modified : Int}
    (place_eq : place = .found location ∨ place = .free location)
    (free : fs.entry? location ≠ some .directory)
    (named : fs.walk .entry links here todo = .ok place)
    (h : Leads (fs.set location (.file bytes modified)) .content links here todo l) :
    l = location ∧
      Leads (fs.set location (.file bytes modified)) .entry links here todo location := by
  have root : location ≠ [] := by
    rintro rfl
    exact free rfl
  have inside : ∀ {m : Location}, FileSystem.entry? (fs.set location (.file bytes modified)) m =
      some .directory → m ≠ location ∧ fs.entry? m = some .directory := by
    intro m found
    by_cases same : m = location
    · rw [same, get_set_same root] at found
      cases found
    · exact ⟨same, (get_set_other same _).symm.trans found⟩
  induction h with
  | arrive links here =>
    rw [walk] at named
    rcases place_eq with rfl | rfl
    · cases named
      exact ⟨rfl, .arrive ..⟩
    · cases named
  | stay directory plain _ ih =>
    obtain ⟨-, before⟩ := inside directory
    rcases plain with rfl | rfl <;> simp only [walk, before] at named
    · obtain ⟨rfl, leads⟩ := ih named
      exact ⟨rfl, .stay directory (.inl rfl) leads⟩
    · obtain ⟨rfl, leads⟩ := ih named
      exact ⟨rfl, .stay directory (.inr rfl) leads⟩
  | up directory _ ih =>
    obtain ⟨-, before⟩ := inside directory
    simp only [walk, before] at named
    obtain ⟨rfl, leads⟩ := ih named
    exact ⟨rfl, .up directory leads⟩
  | @down links here l rest name entry directory _ short found plain more ih =>
    obtain ⟨-, before⟩ := inside directory
    by_cases same : here ++ [name] = location
    · -- nothing lies below the new file
      rw [same, get_set_same root] at found
      cases found
      cases rest with
      | nil =>
        have there : FileSystem.entry? (fs.set location (.file bytes modified)) location = _ :=
          get_set_same root _
        cases more
        subst same
        exact ⟨rfl, .down directory (by simp) short there (by simp) (.arrive ..)⟩
      | cons step rest =>
        obtain ⟨m, leads, below⟩ := more.split (List.nil_append _).symm (by simp)
        cases leads
        exact absurd same (inside below).1
    · rw [get_set_other same] at found
      cases entry with
      | link target => exact absurd rfl (plain target)
      | file | directory =>
        rw [walk] at named
        simp only [before, found, Nat.not_lt.2 short, reduceCtorEq, decide_false, Bool.false_and,
          Bool.false_eq_true, ite_false] at named
        obtain ⟨rfl, leads⟩ := ih named
        exact ⟨rfl, .down directory (by simp) short ((get_set_other same _).trans found) plain
          leads⟩
  | link _ wanted => cases wanted
  | @follow links here l rest name target directory _ short found _ _ ih =>
    obtain ⟨-, before⟩ := inside directory
    have same : here ++ [name] ≠ location := by
      intro same
      rw [same, get_set_same root] at found
      cases found
    have link := found
    rw [get_set_other same] at link
    rw [walk] at named
    simp only [before, link, Nat.not_lt.2 short, reduceCtorEq, decide_false, Bool.false_and,
      decide_true, Bool.and_true, Bool.false_eq_true, ite_false] at named
    cases rest with
    | nil =>
      simp only [List.isEmpty_nil, ite_true] at named
      rcases place_eq with rfl | rfl <;> cases named
      exact absurd rfl same
    | cons step rest =>
      simp only [List.isEmpty_cons, Bool.false_eq_true, ite_false] at named
      obtain ⟨rfl, leads⟩ := ih named
      exact ⟨rfl, .follow directory (by simp) short found (by simp) leads⟩

theorem walk_missing {more : List Step} (some : more ≠ [])
    (h : fs.walk .entry links here todo = .error .notFound ∨
      ∃ m, fs.walk .entry links here todo = .ok (.free m)) :
    fs.walk .entry links here (todo ++ more) = .error .notFound := by
  fun_induction walk fs .entry links here todo with
  | case2 _ _ _ directory ih | case3 _ _ _ directory ih | case4 _ _ _ directory ih =>
    simpa [walk, directory] using ih h
  | case7 links here rest directory name free short none last =>
    rw [List.isEmpty_iff] at last
    subst last
    rw [List.cons_append, walk]
    simp [directory, Nat.not_lt.2 (Nat.not_lt.1 short), none, some]
  | case8 links here rest directory name free short none last =>
    rw [List.cons_append, walk]
    simp [directory, Nat.not_lt.2 (Nat.not_lt.1 short), none, some]
  | case11 here rest directory name free short target found onward links ih =>
    have onward' : (rest ++ more).isEmpty = false := by simp [some]
    have below := ih h
    rw [List.append_assoc] at below
    rw [List.cons_append, walk]
    simp only [directory, found, onward', Nat.not_lt.2 (Nat.not_lt.1 short), reduceCtorEq,
      decide_false, Bool.false_and, Bool.false_eq_true, ite_false]
    exact below
  | case12 links here rest directory name free short entry plain found ih =>
    have below := ih h
    rw [List.cons_append, walk]
    cases entry with
    | link target => exact absurd rfl (plain target)
    | file | directory =>
      simpa [directory, Nat.not_lt.2 (Nat.not_lt.1 short), found] using below
  | _ => rcases h with h | ⟨m, h⟩ <;> cases h

end

end ParallelLint.FileSystem
