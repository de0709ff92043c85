import ParallelLint.Proofs.FileSystem.Walks
import ParallelLint.Proofs.Path.Parents

set_option autoImplicit false

namespace ParallelLint

def Step.isIdle (s : Step) : Bool := s = .here || s = .slash

namespace FileSystem
variable {fs fs' : FileSystem} {p q : Path} {e : Entry}

theorem statusAt_file {l : Location} {bytes : Text.Bytes} {modified : Int} :
    fs.statusAt? l = some (.file bytes modified) ↔
      fs.entry? l = some (.file bytes modified) ∧ fs.attributes.unreadable l = none := by
  unfold statusAt?
  split
  · split <;> simp [*]
  · simp [*]
  · rename_i other _
    simpa using fun found _ => absurd found (other bytes modified)

theorem statusAt_closed {l : Location} {bytes : Text.Bytes} {modified : Int} {error : FileError} :
    fs.statusAt? l = some (.closed bytes modified error) ↔
      fs.entry? l = some (.file bytes modified) ∧ fs.attributes.unreadable l = some error := by
  unfold statusAt?
  split
  · split <;> simp [*, and_assoc]
  · simp [*]
  · rename_i other _
    simpa using fun found _ => absurd found (other bytes modified)

theorem statusAt_directory {l : Location} {listing : Listing} :
    fs.statusAt? l = some (.directory listing) ↔
      fs.entry? l = some .directory ∧ fs.attributes.listing l = listing := by
  unfold statusAt?
  split
  · split <;> simp [*]
  · simp [*]
  · rename_i other
    simpa using fun found _ => absurd found other

theorem statusAt_plain {l : Location} {s : Status} (told : fs.statusAt? l = some s) :
    ∃ e, fs.entry? l = some e ∧ ∀ target, e ≠ .link target := by
  cases s with
  | file bytes modified => exact ⟨_, (statusAt_file.1 told).1, by rintro _ ⟨⟩⟩
  | closed bytes modified error => exact ⟨_, (statusAt_closed.1 told).1, by rintro _ ⟨⟩⟩
  | directory listing => exact ⟨_, (statusAt_directory.1 told).1, by rintro _ ⟨⟩⟩

theorem status_iff {s : Status} :
    fs.status p = .ok s ↔ refused? p = none ∧
      ∃ l, Leads fs .content linkLimit (fs.origin p) (steps p) l ∧ fs.statusAt? l = some s := by
  unfold status locate place follow
  cases refused : refused? p with
  | some error => simp
  | none =>
    simp only [true_and, ← walk_found]
    cases fs.walk .content linkLimit (fs.origin p) (steps p) with
    | error error => simp
    | ok place =>
      cases place with
      | free l => simp
      | found l =>
        simp only [Except.ok.injEq, Place.found.injEq, exists_eq_left']
        cases fs.statusAt? l <;> simp

theorem statusAt_set {l : Location} (named : l ≠ []) (bytes : Text.Bytes) (modified : Int) :
    (fs.set l (.file bytes modified)).statusAt? l = some (.file bytes modified) :=
  statusAt_file.2 ⟨get_set_same named _, if_pos rfl⟩

section
variable {l m : Location} {bytes : Text.Bytes} {modified : Int}
  (told : fs.statusAt? m = some (.file bytes modified))
include told

theorem statusAt_set_other (other : m ≠ l) (e : Entry) :
    (fs.set l e).statusAt? m = some (.file bytes modified) := by
  obtain ⟨found, readable⟩ := statusAt_file.1 told
  exact statusAt_file.2 ⟨(get_set_other other e).trans found, (if_neg other).trans readable⟩

theorem statusAt_erase_other (apart : ¬l.isPrefixOf m = true) :
    (fs.erase l).statusAt? m = some (.file bytes modified) := by
  obtain ⟨found, readable⟩ := statusAt_file.1 told
  refine statusAt_file.2 ⟨?_, readable⟩
  rw [entry_erase, if_neg fun h => apart h.2, found]

end

theorem status_file {bytes : Text.Bytes} {modified : Int} :
    fs.status p = .ok (.file bytes modified) ↔ refused? p = none ∧
      ∃ l, Leads fs .content linkLimit (fs.origin p) (steps p) l ∧
        fs.entry? l = some (.file bytes modified) ∧ fs.attributes.unreadable l = none := by
  simp only [status_iff, statusAt_file]

theorem read_iff {bytes : Text.Bytes} :
    fs.read p = .ok bytes ↔ ∃ modified, fs.status p = .ok (.file bytes modified) := by
  unfold read
  cases fs.status p with
  | error error => simp
  | ok status => cases status <;> simp

theorem isFile_status : fs.isFile p = true ↔ ∃ s, fs.status p = .ok s ∧ s.isFile = true := by
  unfold isFile
  cases fs.status p with
  | error error => simp
  | ok status => simp

theorem isFile_of_read {bytes : Text.Bytes} (h : fs.read p = .ok bytes) : fs.isFile p = true := by
  obtain ⟨modified, status⟩ := read_iff.1 h
  exact isFile_status.2 ⟨_, status, rfl⟩

theorem isFile_iff : fs.isFile p = true ↔ refused? p = none ∧
    ∃ l, Leads fs .content linkLimit (fs.origin p) (steps p) l ∧
      ∃ bytes modified, fs.entry? l = some (.file bytes modified) := by
  rw [isFile_status]
  constructor
  · rintro ⟨s, status, file⟩
    obtain ⟨accepted, l, leads, told⟩ := status_iff.1 status
    refine ⟨accepted, l, leads, ?_⟩
    cases s with
    | file bytes modified => exact ⟨bytes, modified, (statusAt_file.1 told).1⟩
    | closed bytes modified error => exact ⟨bytes, modified, (statusAt_closed.1 told).1⟩
    | directory listing => cases file
  · rintro ⟨accepted, l, leads, bytes, modified, found⟩
    cases closed : fs.attributes.unreadable l with
    | none => exact ⟨_, status_iff.2 ⟨accepted, l, leads, statusAt_file.2 ⟨found, closed⟩⟩, rfl⟩
    | some e => exact ⟨_, status_iff.2 ⟨accepted, l, leads, statusAt_closed.2 ⟨found, closed⟩⟩, rfl⟩

theorem isDirectory_status :
    fs.isDirectory p = true ↔ ∃ listing, fs.status p = .ok (.directory listing) := by
  unfold isDirectory
  cases fs.status p with
  | error error => simp
  | ok status => cases status <;> simp

theorem isDirectory_iff : fs.isDirectory p = true ↔ refused? p = none ∧
    ∃ l, Leads fs .content linkLimit (fs.origin p) (steps p) l ∧ fs.entry? l = some .directory := by
  simp only [isDirectory_status, status_iff, statusAt_directory]
  constructor
  · rintro ⟨listing, accepted, l, leads, found, -⟩
    exact ⟨accepted, l, leads, found⟩
  · rintro ⟨accepted, l, leads, found⟩
    exact ⟨_, accepted, l, leads, found, rfl⟩

theorem noDirectory_of_isFile (h : fs.isFile p = true) : fs.isDirectory p = false := by
  obtain ⟨s, status, file⟩ := isFile_status.1 h
  rw [isDirectory, status]
  cases s <;> first | rfl | cases file

theorem contains_iff : fs.contains p = true ↔ ∃ s, fs.status p = .ok s := by
  unfold contains
  cases fs.status p <;> simp [Except.isOk, Except.toBool]

theorem contains_cases :
    fs.contains p = true ↔ fs.isFile p = true ∨ fs.isDirectory p = true := by
  rw [contains_iff, isFile_status, isDirectory_status]
  constructor
  · rintro ⟨s, status⟩
    cases s with
    | file => exact .inl ⟨_, status, rfl⟩
    | closed => exact .inl ⟨_, status, rfl⟩
    | directory listing => exact .inr ⟨listing, status⟩
  · rintro (⟨s, status, -⟩ | ⟨listing, status⟩)
    · exact ⟨s, status⟩
    · exact ⟨_, status⟩

theorem refused_long (long : 4096 ≤ p.text.utf8ByteSize) : ∃ e, refused? p = some e := by
  rw [refused?, if_pos long]
  split
  · exact ⟨_, rfl⟩
  · split <;> exact ⟨_, rfl⟩

theorem status_refused {error : FileError} (refused : refused? p = some error)
    (fs : FileSystem) : fs.status p = .error error := by
  rw [status, locate, place, follow, refused]

theorem origin_within (within : fs.Within fs') : fs.origin p = fs'.origin p := by
  rw [origin, origin, within.1]

theorem isFile_within (within : fs.Within fs') (h : fs.isFile p = true) : fs'.isFile p = true := by
  obtain ⟨accepted, l, leads, bytes, modified, found⟩ := isFile_iff.1 h
  exact isFile_iff.2 ⟨accepted, l, origin_within within ▸ leads.within within, bytes, modified,
    within.2 l _ found⟩

theorem isDirectory_within (within : fs.Within fs') (h : fs.isDirectory p = true) :
    fs'.isDirectory p = true := by
  obtain ⟨accepted, l, leads, found⟩ := isDirectory_iff.1 h
  exact isDirectory_iff.2 ⟨accepted, l, origin_within within ▸ leads.within within,
    within.2 l _ found⟩

theorem contains_within (within : fs.Within fs') (h : fs.contains p = true) :
    fs'.contains p = true :=
  contains_cases.2 ((contains_cases.1 h).imp (isFile_within within) (isDirectory_within within))

def walked (text : String) : List Step :=
  ((⟨text⟩ : Path).segments.filter (· ≠ "")).map stepOf

theorem steps_cases (p : Path) : steps p = walked p.text ∨ steps p = walked p.text ++ [.slash] := by
  unfold steps walked
  split
  · exact .inr rfl
  · exact .inl rfl

theorem steps_noSlash (h : p.text.toList.getLast? ≠ some '/') : steps p = walked p.text :=
  if_neg h

theorem walked_plain {text : String} (s : Step) (h : s ∈ walked text) : s ≠ .slash := by
  obtain ⟨segment, -, rfl⟩ := List.mem_map.1 h
  unfold stepOf
  split
  · simp
  · split <;> simp

theorem walked_append (a b : String) : walked (a ++ "/" ++ b) = walked a ++ walked b := by
  rw [walked, Path.segments_append, List.filter_append, List.map_append]
  rfl

theorem steps_append (a b : String) :
    steps ⟨a ++ "/" ++ b⟩ = walked a ++ steps ⟨"" ++ "/" ++ b⟩ := by
  have inside := walked_append a b
  have inside' := walked_append "" b
  have none : walked "" = [] := rfl
  rw [none, List.nil_append] at inside'
  have last : (a ++ "/" ++ b).toList.getLast? = ("" ++ "/" ++ b).toList.getLast? := by
    rw [String.toList_append, String.toList_append, List.append_assoc, String.toList_append,
      String.toList_append, List.append_assoc, List.getLast?_append, String.toList_empty,
      List.nil_append]
    exact Option.or_of_isSome (by simp)
  simp only [steps]
  simp only [walked] at inside inside' ⊢
  simp only [inside, inside', last]
  split <;> simp

theorem slashes_of_empty {text : List Char} (h : ∀ part ∈ Path.splitSlash text, part = []) :
    ∀ c ∈ text, c = '/' := by
  induction text with
  | nil => simp
  | cons c rest ih =>
    rw [Path.splitSlash] at h
    split at h
    · rename_i slash
      intro d hd
      rcases List.mem_cons.1 hd with rfl | hd
      · exact slash
      · exact ih (fun part hp => h part (List.mem_cons_of_mem _ hp)) d hd
    · split at h
      · exact absurd (h _ (List.mem_singleton_self _)) (List.cons_ne_nil _ _)
      · exact absurd (h _ (List.mem_cons_self ..)) (List.cons_ne_nil _ _)

theorem steps_slash (b : String) : steps ⟨"" ++ "/" ++ b⟩ ≠ [] := by
  unfold steps
  split
  · simp
  · rename_i last
    intro none
    rw [List.map_eq_nil_iff, List.filter_eq_nil_iff] at none
    have empty : ∀ part ∈ Path.splitSlash ("" ++ "/" ++ b).toList, part = [] := by
      intro part hp
      have void := none (String.ofList part) (List.mem_map_of_mem hp)
      simpa using void
    have all := slashes_of_empty empty
    refine last ?_
    cases found : ("" ++ "/" ++ b).toList.getLast? with
    | none => simp at found
    | some c => rw [all c (List.mem_of_getLast? found)]

theorem refused_append {a b : String} (h : refused? ⟨a ++ b⟩ = none) (named : a ≠ "") :
    refused? ⟨a⟩ = none := by
  unfold refused? at h ⊢
  split at h
  · cases h
  rename_i clean
  split at h
  · cases h
  split at h
  · cases h
  rename_i short
  have clean' : hasZero ⟨a⟩ = false := by
    simp only [hasZero, List.contains_eq_mem, String.toList_append, List.mem_append,
      decide_eq_true_eq, not_or] at clean ⊢
    exact decide_eq_false clean.1
  have short' : ¬ 4096 ≤ a.utf8ByteSize := by
    simp only [String.utf8ByteSize_append] at short
    omega
  rw [if_neg (by simp [clean']), if_neg named, if_neg short']

theorem origin_begins (fs : FileSystem) {a : String} (b : String) (named : a ≠ "") :
    fs.origin ⟨a ++ b⟩ = fs.origin ⟨a⟩ := by
  have some : a.toList ≠ [] := by simpa using named
  have first : (a ++ b).toList.head? = a.toList.head? := by
    rw [String.toList_append, List.head?_append_of_ne_nil _ some]
  unfold origin Path.isAbsolute
  simp only
  rw [first]

theorem origin_append (fs : FileSystem) {a : String} (b : String) (named : a ≠ "") :
    fs.origin ⟨a ++ "/" ++ b⟩ = fs.origin ⟨a⟩ := by
  rw [String.append_assoc, origin_begins fs _ named]

theorem Leads.trailing {purpose : Purpose} {links : Nat} {here l : Location} {todo : List Step}
    (h : Leads fs purpose links here todo l) (content : purpose = .content)
    (directory : fs.entry? l = some .directory) :
    Leads fs purpose links here (todo ++ [.slash]) l := by
  induction h with
  | arrive => exact .stay directory (.inr rfl) (.arrive ..)
  | stay here plain _ ih => exact .stay here plain (ih directory)
  | up here _ ih => exact .up here (ih directory)
  | down here _ short found plain _ ih =>
    exact .down here (by simp [content]) short found plain (ih directory)
  | link _ wanted => rw [content] at wanted; cases wanted
  | follow here _ short found _ _ ih =>
    have more := ih directory
    rw [List.append_assoc] at more
    exact .follow here (by simp [content]) short found (by simp) more

/-- The path `q` is where `p` begins, up to a slash or with it. -/
def Begins (q p : Path) : Prop :=
  q.text ≠ "" ∧ ∃ before rest, p.text = before ++ "/" ++ rest ∧
    (q.text = before ∨ q.text = before ++ "/")

theorem root_isDirectory (fs : FileSystem) : fs.isDirectory ⟨"/"⟩ = true := by
  refine isDirectory_iff.2 ⟨by decide, [], ?_, rfl⟩
  exact .stay rfl (.inr rfl) (.arrive ..)

theorem Begins.directory (h : Begins q p) (accepted : refused? p = none)
    (inside : ∀ front after, steps p = front ++ after → after ≠ [] →
      ∃ m, Leads fs .content linkLimit (fs.origin p) front m ∧ fs.entry? m = some .directory) :
    fs.isDirectory q = true := by
  obtain ⟨named, before, rest, text, same⟩ := h
  have whole : p = ⟨before ++ "/" ++ rest⟩ := by cases p; exact congrArg Path.mk text
  by_cases some : before = ""
  · have root : q = ⟨"/"⟩ := by
      subst some
      rcases same with same | same
      · exact absurd same named
      · cases q; exact congrArg Path.mk same
    rw [root]
    exact root_isDirectory fs
  subst whole
  obtain ⟨m, leads, directory⟩ := inside _ _ (steps_append before rest) (steps_slash rest)
  rw [origin_append fs rest some] at leads
  rcases same with same | same
  · have whole : q = ⟨before⟩ := by cases q; exact congrArg Path.mk same
    subst whole
    refine isDirectory_iff.2 ⟨refused_append (String.append_assoc ▸ accepted) some, m, ?_, directory⟩
    rcases steps_cases ⟨before⟩ with steps | steps
    · exact steps ▸ leads
    · exact steps ▸ leads.trailing rfl directory
  · have whole : q = ⟨before ++ "/" ++ ""⟩ := by
      cases q
      exact congrArg Path.mk (same.trans (String.append_empty).symm)
    have accepted' := refused_append accepted (by simp)
    rw [whole, String.append_empty]
    rw [String.append_empty] at whole
    refine isDirectory_iff.2 ⟨accepted', m, ?_, directory⟩
    rw [← String.append_empty (s := before ++ "/")]
    rw [origin_append fs "" some, steps_append]
    exact leads.trailing rfl directory

theorem Begins.isDirectory (h : Begins q p) {s : Status} (status : fs.status p = .ok s) :
    fs.isDirectory q = true := by
  obtain ⟨accepted, l, leads, -⟩ := status_iff.1 status
  exact h.directory accepted fun front after cut more => leads.split cut more

theorem begins_parent (h : p.parent? = some q) (named : q.text ≠ "") : Begins q p := by
  obtain ⟨rest, text | ⟨root, text⟩⟩ := Path.parent_text h named
  · exact ⟨named, q.text, rest, text, .inl rfl⟩
  · exact ⟨named, "", rest, by rw [text, String.empty_append], .inr (by rw [root]; rfl)⟩

theorem begins_join (named : p.text ≠ "") (relative : q.isAbsolute = false) :
    Begins p (p.join q) := by
  rw [Path.join, relative]
  by_cases slash : p.text.toList.getLast? = some '/'
  · obtain ⟨before, spelled, -⟩ := Path.segments_endSlash slash
    exact ⟨named, before, q.text, by simp [spelled], .inr spelled⟩
  · exact ⟨named, p.text, q.text, by simp [named, slash], .inl rfl⟩

def essential (todo : List Step) : List Step := todo.filter fun s => !s.isIdle

theorem Leads.idle_end {purpose : Purpose} {links : Nat} {here l : Location}
    {todo before : List Step} {s : Step} (h : Leads fs purpose links here todo l)
    (content : purpose = .content) (idle : s.isIdle = true) (cut : todo = before ++ [s]) :
    fs.entry? l = some .directory := by
  induction h generalizing before with
  | arrive => simp at cut
  | stay directory _ more ih =>
    cases before with
    | nil =>
      obtain ⟨rfl, rfl⟩ := List.cons.inj cut
      cases more
      exact directory
    | cons _ before => exact ih (List.cons.inj cut).2
  | up _ _ ih =>
    cases before with
    | nil =>
      obtain ⟨rfl, -⟩ := List.cons.inj cut
      cases idle
    | cons _ before => exact ih (List.cons.inj cut).2
  | down _ _ _ _ _ _ ih =>
    cases before with
    | nil =>
      obtain ⟨rfl, -⟩ := List.cons.inj cut
      cases idle
    | cons _ before => exact ih (List.cons.inj cut).2
  | link _ wanted => rw [content] at wanted; cases wanted
  | follow _ _ _ _ _ _ ih =>
    cases before with
    | nil =>
      obtain ⟨rfl, -⟩ := List.cons.inj cut
      cases idle
    | cons _ before =>
      obtain ⟨-, rfl⟩ := List.cons.inj cut
      exact ih (List.append_assoc ..).symm

/-- No idle step is the last one. -/
def Tight (todo : List Step) : Prop := ∀ s, todo.getLast? = some s → s.isIdle = false

theorem Tight.suffix {before after : List Step} (h : Tight (before ++ after)) : Tight after := by
  intro s last
  refine h s ?_
  rw [List.getLast?_append, last, Option.some_or]

theorem Tight.behind {idle more : List Step} {s : Step} (h : Tight (idle ++ s :: more)) :
    Tight more := by
  rw [← List.singleton_append, ← List.append_assoc] at h
  exact h.suffix

theorem essential_cons {s : Step} {rest todo : List Step} (plain : s.isIdle = false)
    (h : essential todo = essential (s :: rest)) :
    ∃ idle more, todo = idle ++ s :: more ∧ (∀ t ∈ idle, t.isIdle = true) ∧
      essential more = essential rest := by
  have first : essential (s :: rest) = s :: essential rest :=
    List.filter_cons_of_pos (by simp [plain])
  rw [first] at h
  induction todo with
  | nil => cases h
  | cons t todo ih =>
    cases kind : t.isIdle with
    | true =>
      rw [essential, List.filter_cons, if_neg (by simp [kind])] at h
      obtain ⟨idle, more, rfl, all, same⟩ := ih h
      refine ⟨t :: idle, more, rfl, ?_, same⟩
      intro u hu
      rcases List.mem_cons.1 hu with rfl | hu
      · exact kind
      · exact all u hu
    | false =>
      rw [essential, List.filter_cons, if_pos (by simp [kind])] at h
      obtain ⟨rfl, same⟩ := List.cons.inj h
      exact ⟨[], todo, rfl, by simp, same⟩

theorem Leads.idle {purpose : Purpose} {links : Nat} {here l : Location} {idle todo : List Step}
    (directory : fs.entry? here = some .directory) (all : ∀ s ∈ idle, s.isIdle = true)
    (h : Leads fs purpose links here todo l) : Leads fs purpose links here (idle ++ todo) l := by
  induction idle with
  | nil => exact h
  | cons s idle ih =>
    have plain : s = .here ∨ s = .slash := by simpa [Step.isIdle] using all s (by simp)
    exact .stay directory plain (ih fun t ht => all t (List.mem_cons_of_mem _ ht))

/-- Idle steps may be left out or put in, but not at the end. -/
theorem Leads.essential {purpose : Purpose} {links : Nat} {here l : Location}
    {todo first rest rest' : List Step} (h : Leads fs purpose links here todo l)
    (content : purpose = .content) (cut : todo = first ++ rest)
    (same : FileSystem.essential rest' = FileSystem.essential rest) (tight : Tight rest') :
    Leads fs purpose links here (first ++ rest') l := by
  induction h generalizing first rest rest' with
  | arrive =>
    obtain ⟨rfl, rfl⟩ := List.append_eq_nil_iff.1 cut.symm
    rcases List.eq_nil_or_concat' rest' with rfl | ⟨before, s, rfl⟩
    · exact .arrive ..
    · have idle := tight s (by simp)
      simp [FileSystem.essential, idle] at same
  | @stay _ _ _ step _ directory plain _ ih =>
    cases first with
    | nil =>
      subst cut
      have idle : step.isIdle = true := by simpa [Step.isIdle] using plain
      rw [FileSystem.essential, FileSystem.essential, List.filter_cons, if_neg (by simp [idle])]
        at same
      exact ih (List.nil_append _).symm same tight
    | cons t first =>
      obtain ⟨rfl, rfl⟩ := List.cons.inj cut
      exact .stay directory plain (ih rfl same tight)
  | up directory _ ih =>
    cases first with
    | nil =>
      subst cut
      obtain ⟨idle, more, rfl, all, same⟩ := essential_cons rfl same
      rw [List.nil_append]
      refine .idle directory all (.up directory (ih (List.nil_append _).symm same tight.behind))
    | cons t first =>
      obtain ⟨rfl, rfl⟩ := List.cons.inj cut
      exact .up directory (ih rfl same tight)
  | down directory free short found plain _ ih =>
    cases first with
    | nil =>
      subst cut
      obtain ⟨idle, more, rfl, all, same⟩ := essential_cons rfl same
      rw [List.nil_append]
      refine .idle directory all (.down directory (by simp [content]) short found plain
        (ih (List.nil_append _).symm same tight.behind))
    | cons t first =>
      obtain ⟨rfl, rfl⟩ := List.cons.inj cut
      exact .down directory (by simp [content]) short found plain (ih rfl same tight)
  | link _ wanted => rw [content] at wanted; cases wanted
  | follow directory free short found onward _ ih =>
    cases first with
    | nil =>
      subst cut
      obtain ⟨idle, more, rfl, all, same⟩ := essential_cons rfl same
      rw [List.nil_append]
      refine .idle directory all (.follow directory (by simp [content]) short found
        (by simp [content]) (ih rfl same tight.behind))
    | cons t first =>
      obtain ⟨rfl, rfl⟩ := List.cons.inj cut
      have more := ih (List.append_assoc ..).symm same tight
      rw [List.append_assoc] at more
      exact .follow directory (by simp [content]) short found (by simp [content]) more

def stepOfPart : Path.Part → Step
  | .up => .up
  | .name text => .name text
  | .root | .here => .here

theorem essential_append (todo more : List Step) :
    essential (todo ++ more) = essential todo ++ essential more := List.filter_append ..

theorem essential_walked (segs : List String) :
    essential ((segs.filter (· ≠ "")).map stepOf) = (Path.innerParts segs).map stepOfPart := by
  induction segs with
  | nil => rfl
  | cons s rest ih =>
    rw [← List.singleton_append, List.filter_append, List.map_append, essential_append, ih,
      Path.innerParts_append, List.map_append]
    congr 1
    by_cases empty : s = ""
    · subst empty
      rfl
    by_cases dot : s = "."
    · subst dot
      rfl
    by_cases up : s = ".."
    · subst up
      rfl
    · simp [Path.innerParts, Path.isVoid, Path.partOf, stepOf, stepOfPart, essential, Step.isIdle,
        empty, dot, up]

theorem essential_steps (p : Path) : essential (steps p) = essential (p.parts.map stepOfPart) := by
  obtain ⟨lead, text, inner, opens⟩ := p.opens
  have inside : essential (p.parts.map stepOfPart) = (Path.innerParts inner).map stepOfPart := by
    have own : essential ((Path.innerParts inner).map stepOfPart) =
        (Path.innerParts inner).map stepOfPart := by
      rw [← essential_walked, essential, essential, List.filter_filter]
      simp
    rw [opens.parts_eq, List.map_append, essential_append, own]
    cases opens <;> rfl
  have walk : essential (walked p.text) = (Path.innerParts inner).map stepOfPart := by
    rw [walked, essential_walked]
    cases opens with
    | empty text => rw [text]; rfl
    | root segments | here segments =>
      change (Path.innerParts p.segments).map stepOfPart = _
      rw [segments]
      rfl
    | inner segments =>
      change (Path.innerParts p.segments).map stepOfPart = _
      rw [segments]
  rw [inside]
  rcases steps_cases p with same | same
  · rw [same, walk]
  · rw [same, essential_append, walk]
    exact List.append_nil _

theorem isAbsolute_parts (p : Path) : p.isAbsolute = decide (p.parts.head? = some .root) := by
  obtain ⟨lead, text, inner, opens⟩ := p.opens
  have first : p.isAbsolute = true → ∃ rest, p.segments = "" :: rest := by
    intro slash
    obtain ⟨rest, spelled⟩ := List.head?_eq_some_iff.1 (of_decide_eq_true slash)
    exact ⟨_, by rw [Path.segments, spelled, Path.splitSlash, if_pos rfl]; rfl⟩
  rw [opens.parts_eq]
  cases opens with
  | empty text => simp [Path.isAbsolute, text, Path.innerParts]
  | root segments more => simp [(Path.isAbsolute_iff segments).2 more]
  | here segments =>
    have relative : p.isAbsolute = false := by
      rw [Bool.eq_false_iff]
      intro slash
      obtain ⟨rest, other⟩ := first slash
      simp [segments] at other
    simp [relative]
  | @inner s rest segments own =>
    have relative : p.isAbsolute = false := by
      rw [Bool.eq_false_iff]
      intro slash
      obtain ⟨rest, other⟩ := first slash
      rw [segments] at other
      rw [(List.cons.inj other).1] at own
      cases own
    have part : Path.partOf s ≠ .root := by
      unfold Path.partOf
      split <;> simp
    simp [relative, Path.innerParts, own, part]

theorem Leads.tight {links : Nat} {here l : Location} {todo : List Step}
    (h : Leads fs .content links here todo l) (file : fs.entry? l ≠ some .directory) :
    Tight todo := by
  intro s last
  obtain ⟨before, rfl⟩ := List.getLast?_eq_some_iff.1 last
  cases idle : s.isIdle with
  | false => rfl
  | true => exact absurd (h.idle_end rfl idle rfl) file

theorem status_sameParts {fs₀ : FileSystem} {s : Status} (same : p.parts = q.parts)
    (there : fs.status p = .ok s) (before : fs₀.isFile q = true) : fs.status q = .ok s := by
  obtain ⟨-, l, leads, found⟩ := status_iff.1 there
  obtain ⟨accepted, l₀, leads₀, bytes, modified, found₀⟩ := isFile_iff.1 before
  have steps : essential (steps q) = essential (steps p) := by
    rw [essential_steps, essential_steps, same]
  have origin : fs.origin p = fs.origin q := by
    rw [origin, origin, isAbsolute_parts, isAbsolute_parts, same]
  have tight := leads₀.tight (by simp [found₀])
  have leads' := leads.essential rfl (List.nil_append _).symm steps tight
  exact status_iff.2 ⟨accepted, l, origin ▸ leads', found⟩

theorem readText_sameParts (same : p.parts = q.parts) (alike : fs.isFile p = fs.isFile q) :
    (fs.readText p).toOption = (fs.readText q).toOption := by
  cases file : fs.isFile p with
  | true =>
    obtain ⟨s, status, -⟩ := isFile_status.1 file
    rw [readText, readText, read, read, status, status_sameParts same status (alike ▸ file)]
  | false =>
    have none : ∀ {p : Path}, fs.isFile p = false → (fs.readText p).toOption = none := by
      intro p noFile
      rw [readText]
      cases found : fs.read p with
      | error e => rfl
      | ok bytes =>
        rw [isFile_of_read found] at noFile
        cases noFile
    rw [none file, none (alike ▸ file)]

end FileSystem
end ParallelLint
