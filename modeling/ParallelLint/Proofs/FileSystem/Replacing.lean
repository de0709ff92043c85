import ParallelLint.Proofs.FileSystem.Paths

set_option autoImplicit false

namespace ParallelLint.FileSystem
variable {fs fs' : FileSystem} {p q : Path}

theorem walk_kind {purpose : Purpose} {links : Nat} {here : Location} {todo : List Step}
    {e : FileError} (h : fs.walk purpose links here todo = .error e) (kind : e.kind = .notFound) :
    e = .notFound := by
  fun_induction walk fs purpose links here todo with
  | case2 _ _ _ _ ih | case3 _ _ _ _ ih | case4 _ _ _ _ ih => exact ih h
  | case11 _ _ _ _ _ _ _ _ _ _ ih => exact ih h
  | case12 _ _ _ _ _ _ _ _ _ _ ih => exact ih h
  | case8 => cases h; rfl
  | _ => cases h <;> cases kind

theorem ensureDirectory_failed {e : FileError} (h : fs.ensureDirectory p = (.error e, fs')) :
    fs' = fs ∧ fs.createDirectory p = .error e := by
  unfold ensureDirectory at h
  split at h
  · cases h
  · rename_i failed
    split at h <;> cases h
    exact ⟨rfl, failed⟩

theorem ensureDirectory_made (h : fs.ensureDirectory p = (.ok (), fs')) :
    fs' = fs ∨ ∃ l, fs.placeOfEntry p = .ok (.free l) := by
  unfold ensureDirectory at h
  split at h
  · rename_i made
    unfold createDirectory at made
    split at made
    · cases made
    · cases made
    · rename_i l free
      exact .inr ⟨l, free⟩
  · split at h <;> cases h
    exact .inl rfl

theorem placeOfEntry_kind {e : FileError} (h : fs.placeOfEntry p = .error e)
    (kind : e.kind = .notFound) : e = .notFound := by
  unfold placeOfEntry follow at h
  split at h
  · rename_i refused
    unfold refused? at refused
    split at refused
    · cases refused
      cases h
      cases kind
    split at refused
    · cases refused
      cases h
      rfl
    split at refused
    · cases refused
      cases h
      cases kind
    · cases refused
  · exact walk_kind h kind

theorem createDirectories_made {depth : Nat} (named : p.text ≠ "")
    (h : fs.createDirectoriesWithin p (depth + 1) = (.ok (), fs')) :
    fs' = fs ∨ fs.placeOfEntry p = .error .notFound ∨ ∃ l, fs.placeOfEntry p = .ok (.free l) := by
  rw [createDirectoriesWithin, if_neg named] at h
  split at h
  · rename_i e before failed
    obtain ⟨rfl, absent⟩ := ensureDirectory_failed failed
    split at h
    · cases h
    · rename_i kind
      right
      left
      unfold createDirectory at absent
      split at absent
      · rename_i found
        cases absent
        rw [found, placeOfEntry_kind found (by simpa using kind)]
      · cases absent
        exact absurd (by decide) kind
      · cases absent
  · exact (ensureDirectory_made h).imp_right .inr

theorem createDirectories_dot (fs : FileSystem) :
    ∃ e, fs.createDirectories ⟨"."⟩ =
      (if fs.isDirectory ⟨"."⟩ then .ok () else .error e, fs) := by
  have refused : ∃ e, fs.createDirectory ⟨"."⟩ = .error e ∧ e.kind ≠ .notFound := by
    have steps : stepsToEntry ⟨"."⟩ = [.here] := by decide
    have accepted : refused? ⟨"."⟩ = none := by decide
    simp only [createDirectory, placeOfEntry, follow, steps, accepted, walk]
    split
    · rename_i place
      split at place
      · cases place
      · cases place
        exact ⟨_, rfl, by decide⟩
    · exact ⟨_, rfl, by decide⟩
    · rename_i place
      split at place <;> cases place
  obtain ⟨e, refused, kind⟩ := refused
  refine ⟨e, ?_⟩
  have ensured : fs.ensureDirectory ⟨"."⟩ =
      (if fs.isDirectory ⟨"."⟩ then .ok () else .error e, fs) := by
    rw [ensureDirectory, refused]
  have depth : (⟨"."⟩ : Path).parts.length + 1 = 2 := by decide
  rw [createDirectories, depth, createDirectoriesWithin, if_neg (by decide), ensured]
  by_cases directory : fs.isDirectory ⟨"."⟩ = true
  · simp only [directory, ite_true]
  · simp only [directory, ite_false, Bool.false_eq_true]
    rw [if_pos kind]

theorem isDirectory_dot : fs.isDirectory ⟨"."⟩ = true ↔
    fs.entry? fs.workingDirectory = some .directory := by
  have steps : FileSystem.steps ⟨"."⟩ = [.here] := by decide
  have origin : fs.origin ⟨"."⟩ = fs.workingDirectory := by
    have relative : (⟨"."⟩ : Path).isAbsolute = false := by decide
    simp [FileSystem.origin, relative]
  rw [isDirectory_iff, steps, origin]
  constructor
  · rintro ⟨-, l, leads, -⟩
    cases leads with
    | stay directory => exact directory
  · intro directory
    exact ⟨by decide, _, .stay directory (.inl rfl) (.arrive ..), directory⟩

theorem Leads.not_free {links : Nat} {here l : Location} {todo before after : List Step}
    (h : Leads fs .content links here todo l) (cut : todo = before ++ after) (m : Location) :
    fs.walk .entry links here before ≠ .ok (.free m) := by
  cases before with
  | nil => simp [walk]
  | cons s before =>
    induction h generalizing s before with
    | arrive => simp at cut
    | stay directory plain _ ih =>
      obtain ⟨rfl, rfl⟩ := List.cons.inj cut
      cases before with
      | nil => rcases plain with rfl | rfl <;> simp [walk, directory]
      | cons t before =>
        have more := ih t before rfl
        rcases plain with rfl | rfl <;> rw [walk] <;> simpa [directory] using more
    | up directory _ ih =>
      obtain ⟨rfl, rfl⟩ := List.cons.inj cut
      rw [walk]
      cases before with
      | nil => simp [walk, directory]
      | cons t before => simpa [directory] using ih t before rfl
    | @down _ _ _ _ _ entry directory _ short found plain _ ih =>
      obtain ⟨rfl, rfl⟩ := List.cons.inj cut
      rw [walk]
      cases entry with
      | link target => exact absurd rfl (plain target)
      | file | directory =>
        cases before with
        | nil => simp [walk, directory, Nat.not_lt.2 short, found]
        | cons t before =>
          simpa [directory, Nat.not_lt.2 short, found] using ih t before rfl
    | link _ wanted => cases wanted
    | @follow n here _ _ _ target directory _ short found _ _ ih =>
      obtain ⟨rfl, rfl⟩ := List.cons.inj cut
      rw [walk]
      cases before with
      | nil => simp [directory, Nat.not_lt.2 short, found]
      | cons t before =>
        have more : fs.walk .entry n (linkOrigin target here) (steps ⟨target⟩ ++ t :: before) ≠
            .ok (.free m) := by
          cases first : steps ⟨target⟩ ++ t :: before with
          | nil => simp at first
          | cons u rest =>
            refine ih u rest ?_
            rw [← first, List.append_assoc]
            rfl
        simpa [directory, Nat.not_lt.2 short, found] using more

theorem stepsToEntry_prefix (p : Path) : ∃ after, steps p = stepsToEntry p ++ after := by
  unfold stepsToEntry
  split
  · rename_i name before reversed
    rw [List.reverse_eq_iff] at reversed
    exact ⟨[.slash], by rw [reversed]; simp⟩
  · exact ⟨[], (List.append_nil _).symm⟩

theorem ensureDirectory_there (h : fs.isDirectory p = true) :
    fs.ensureDirectory p = (.ok (), fs) := by
  obtain ⟨accepted, l, leads, -⟩ := isDirectory_iff.1 h
  obtain ⟨after, cut⟩ := stepsToEntry_prefix p
  unfold ensureDirectory createDirectory
  split
  · rename_i made
    split at made
    · cases made
    · cases made
    · rename_i m free
      rw [placeOfEntry, follow, accepted] at free
      exact absurd free (leads.not_free cut m)
  · rw [if_pos h]

theorem createDirectories_there (named : p.text ≠ "") (h : fs.isDirectory p = true) :
    fs.createDirectories p = (.ok (), fs) := by
  rw [createDirectories, createDirectoriesWithin, if_neg named, ensureDirectory_there h]

theorem createDirectoriesWithin_missing {depth : Nat} (named : p.text ≠ "")
    (missing : fs.ensureDirectory p = (.error .notFound, fs)) (around : p.parent? = some q)
    (outer : fs.createDirectoriesWithin q depth = (.ok (), fs')) :
    fs.createDirectoriesWithin p (depth + 1) = fs'.ensureDirectory p := by
  rw [createDirectoriesWithin, if_neg named]
  simp only [missing, around, outer]
  exact if_neg (not_not.2 rfl)

theorem stepsToEntry_eq (h : endsInSlash p = false) : stepsToEntry p = steps p := by
  unfold stepsToEntry
  split
  · rename_i name before reversed
    rw [List.reverse_eq_iff] at reversed
    simp [endsInSlash, reversed] at h
  · rfl

theorem last_name (named : endsInName p = true) (noSlash : endsInSlash p = false) :
    ∃ before name, steps p = before ++ [.name name] := by
  rw [endsInName, stepsToEntry_eq noSlash] at named
  split at named
  · rename_i name last
    obtain ⟨before, cut⟩ := List.getLast?_eq_some_iff.1 last
    exact ⟨before, name, cut⟩
  · cases named

theorem placeOfEntry_missing (around : p.parent? = some q) (named : q.text ≠ "")
    (accepted : refused? p = none) (noSlash : endsInSlash p = false)
    (missing : fs.placeOfEntry q = .error .notFound ∨ ∃ l, fs.placeOfEntry q = .ok (.free l)) :
    fs.placeOfEntry p = .error .notFound := by
  by_cases slash : q.text.toList.getLast? = some '/'
  · have root : q = ⟨"/"⟩ := by rw [← Path.parent_slash around named slash]
    have steps : stepsToEntry ⟨"/"⟩ = [.slash] := by decide
    have accepted' : refused? ⟨"/"⟩ = none := by decide
    have origin : fs.origin ⟨"/"⟩ = [] := if_pos (by decide)
    rw [root] at missing
    simp [placeOfEntry, follow, steps, accepted', origin, walk] at missing
  · have before := steps_noSlash slash
    have entry : stepsToEntry q = walked q.text := by
      rw [stepsToEntry_eq, before]
      rw [endsInSlash, before, decide_eq_false_iff_not]
      intro last
      exact walked_plain _ (List.mem_of_getLast? last) rfl
    obtain ⟨rest, text | ⟨root, -⟩⟩ := Path.parent_text around named
    · have whole : p = ⟨q.text ++ "/" ++ rest⟩ := by rw [← text]
      have accepted' : refused? q = none :=
        refused_append (by rwa [← String.append_assoc, ← whole]) named
      rw [placeOfEntry, follow, accepted, stepsToEntry_eq noSlash, whole,
        origin_append fs rest named, steps_append]
      refine walk_missing (steps_slash rest) ?_
      simpa only [placeOfEntry, follow, accepted', entry] using missing
    · exact absurd (by rw [root]; decide) slash

/-- The path can be replaced: it names an entry at a location, or a free one, and no directory. -/
structure Replaceable (fs : FileSystem) (p : Path) (place : Place) (l : Location) : Prop where
  named : endsInName p = true
  noSlash : endsInSlash p = false
  here : fs.placeOfEntry p = .ok place
  at_ : place = .found l ∨ place = .free l
  plain : fs.entry? l ≠ some .directory

theorem Replaceable.root {place : Place} {l : Location} (h : Replaceable fs p place l) : l ≠ [] := by
  rintro rfl
  exact h.plain rfl

theorem Replaceable.accepted {place : Place} {l : Location} (h : Replaceable fs p place l) :
    refused? p = none := by
  have here := h.here
  rw [placeOfEntry, follow] at here
  split at here
  · cases here
  · assumption

theorem Replaceable.replace_eq {place : Place} {l : Location} (h : Replaceable fs p place l)
    (bytes : Text.Bytes) : fs.replace p bytes = .ok (fs.set l (.file bytes fs.clock)) := by
  unfold replace
  rw [h.here]
  rcases h.at_ with rfl | rfl
  · simp [h.named, h.noSlash, h.plain]
  · simp [h.named, h.noSlash]

theorem placeOfEntry_free {l : Location} (h : fs.placeOfEntry p = .ok (.free l)) :
    fs.entry? l = none := by
  unfold placeOfEntry follow at h
  split at h
  · cases h
  · exact walk_free h

theorem replace_cases {bytes : Text.Bytes} (h : fs.replace p bytes = .ok fs') :
    ∃ place l, Replaceable fs p place l ∧ fs' = fs.set l (.file bytes fs.clock) := by
  unfold replace at h
  split at h
  · cases h
  rename_i place here
  split at h
  · cases h
  rename_i named
  split at h
  · cases h
  rename_i noSlash
  have named : endsInName p = true := by simpa using named
  have noSlash : endsInSlash p = false := by simpa using noSlash
  split at h
  · rename_i l
    cases h
    have free := placeOfEntry_free here
    exact ⟨_, l, ⟨named, noSlash, here, .inr rfl, by simp [free]⟩, rfl⟩
  · rename_i l
    split at h
    · cases h
    rename_i plain
    cases h
    exact ⟨_, l, ⟨named, noSlash, here, .inl rfl, plain⟩, rfl⟩

/-- If the path leads anywhere after it was replaced, it leads to the new file. -/
theorem Replaceable.arrives {place : Place} {l : Location} (h : Replaceable fs p place l)
    {bytes : Text.Bytes} {modified : Int} {s : Status}
    (status : (fs.set l (.file bytes modified)).status p = .ok s) :
    s = .file bytes modified ∧ refused? p = none ∧
      Leads (fs.set l (.file bytes modified)) .content linkLimit (fs.origin p) (steps p) l ∧
      Leads (fs.set l (.file bytes modified)) .entry linkLimit (fs.origin p) (steps p) l := by
  obtain ⟨accepted, m, leads, found⟩ := status_iff.1 status
  have here := h.here
  rw [placeOfEntry, follow, accepted, stepsToEntry_eq h.noSlash] at here
  obtain ⟨rfl, again⟩ := Leads.replaced h.at_ h.plain here leads
  rw [statusAt_set h.root] at found
  cases found
  exact ⟨rfl, accepted, leads, again⟩

theorem Replaceable.leads {place : Place} {l : Location} (h : Replaceable fs p place l)
    {bytes b : Text.Bytes} {modified : Int}
    (read : (fs.set l (.file bytes modified)).read p = .ok b) :
    b = bytes ∧ refused? p = none ∧
      Leads (fs.set l (.file bytes modified)) .content linkLimit (fs.origin p) (steps p) l ∧
      Leads (fs.set l (.file bytes modified)) .entry linkLimit (fs.origin p) (steps p) l := by
  obtain ⟨time, status⟩ := read_iff.1 read
  obtain ⟨same, rest⟩ := h.arrives status
  cases same
  exact ⟨rfl, rest⟩

theorem Replaceable.no_directory {place : Place} {l : Location} (h : Replaceable fs p place l)
    (bytes : Text.Bytes) (modified : Int) :
    (fs.set l (.file bytes modified)).isDirectory p = false := by
  rw [Bool.eq_false_iff]
  intro directory
  obtain ⟨listing, status⟩ := isDirectory_status.1 directory
  cases (h.arrives status).1

theorem replace_read {bytes b : Text.Bytes} (h : fs.replace p bytes = .ok fs')
    (read : fs'.read p = .ok b) : b = bytes := by
  obtain ⟨place, l, can, rfl⟩ := replace_cases h
  exact (can.leads read).1

theorem Replaceable.again {place : Place} {l : Location} (h : Replaceable fs p place l)
    {bytes b : Text.Bytes} {modified : Int}
    (read : (fs.set l (.file bytes modified)).read p = .ok b) :
    Replaceable (fs.set l (.file bytes modified)) p (.found l) l := by
  obtain ⟨-, accepted, -, again⟩ := h.leads read
  refine ⟨h.named, h.noSlash, ?_, .inl rfl, by simp [get_set_same h.root]⟩
  rw [placeOfEntry, follow, accepted, stepsToEntry_eq h.noSlash]
  exact again.walk_eq

theorem replace_again {bytes b : Text.Bytes} (h : fs.replace p bytes = .ok fs')
    (read : fs'.read p = .ok b) (more : Text.Bytes) :
    ∃ fs'', fs'.replace p more = .ok fs'' ∧ fs''.read p = .ok more := by
  obtain ⟨place, l, can, rfl⟩ := replace_cases h
  obtain ⟨-, accepted, leads, -⟩ := can.leads read
  have there : FileSystem.entry? (fs.set l (.file bytes fs.clock)) l = _ := get_set_same can.root _
  refine ⟨_, (can.again read).replace_eq more, read_iff.2 ⟨fs.clock, ?_⟩⟩
  refine status_iff.2 ⟨accepted, l, ?_, ?_⟩
  · exact leads.rewritten there
  · exact statusAt_set can.root _ _

theorem Replaceable.remove {place : Place} {l : Location} (h : Replaceable fs p place l) :
    fs.remove p = .error .notFound ∨ fs.remove p = .ok (fs.erase l) := by
  unfold FileSystem.remove
  rw [h.here]
  rcases h.at_ with rfl | rfl
  · right
    simp [h.named, h.noSlash, h.plain]
  · exact .inl rfl

end ParallelLint.FileSystem
