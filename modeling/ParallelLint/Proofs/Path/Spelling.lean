import ParallelLint.Path

set_option autoImplicit false

namespace ParallelLint.Path

def Slashless (s : String) : Prop := '/' ∉ s.toList

instance (s : String) : Decidable (Slashless s) := inferInstanceAs (Decidable ('/' ∉ s.toList))

theorem splitSlash_ne_nil (text : List Char) : splitSlash text ≠ [] := by
  cases text with
  | nil => simp [splitSlash]
  | cons c rest =>
    simp only [splitSlash]
    split
    · simp
    · split <;> simp

theorem splitSlash_append (text more : List Char) :
    splitSlash (text ++ '/' :: more) = splitSlash text ++ splitSlash more := by
  induction text with
  | nil => simp [splitSlash]
  | cons c rest ih =>
    simp only [List.cons_append, splitSlash]
    split
    · rw [ih, List.cons_append]
    · rw [ih]
      cases h : splitSlash rest with
      | nil => exact absurd h (splitSlash_ne_nil rest)
      | cons first others => rfl

theorem splitSlash_single {text : List Char} (h : '/' ∉ text) : splitSlash text = [text] := by
  induction text with
  | nil => rfl
  | cons c rest ih =>
    simp only [List.mem_cons, not_or] at h
    rw [splitSlash, if_neg (Ne.symm h.1), ih h.2]

theorem slashless_of_mem {text part : List Char} (h : part ∈ splitSlash text) : '/' ∉ part := by
  induction text generalizing part with
  | nil => simp_all [splitSlash]
  | cons c rest ih =>
    simp only [splitSlash] at h
    split at h
    · rcases List.mem_cons.1 h with rfl | h
      · simp
      · exact ih h
    · rename_i other
      cases parts : splitSlash rest with
      | nil => exact absurd parts (splitSlash_ne_nil rest)
      | cons first others =>
        rw [parts] at h ih
        rcases List.mem_cons.1 h with rfl | h
        · have clean := ih (List.mem_cons_self ..)
          simp only [List.mem_cons, not_or]
          exact ⟨Ne.symm other, clean⟩
        · exact ih (List.mem_cons_of_mem _ h)

theorem slashless_segment {p : Path} {s : String} (h : s ∈ p.segments) : Slashless s := by
  obtain ⟨part, hp, rfl⟩ := List.mem_map.1 h
  rw [Slashless, String.toList_ofList]
  exact slashless_of_mem hp

theorem segments_append (a b : String) :
    (⟨a ++ "/" ++ b⟩ : Path).segments = (⟨a⟩ : Path).segments ++ (⟨b⟩ : Path).segments := by
  have text : (a ++ "/" ++ b).toList = a.toList ++ '/' :: b.toList := by simp
  simp only [segments, text, splitSlash_append, List.map_append]

theorem segments_single {s : String} (h : Slashless s) : (⟨s⟩ : Path).segments = [s] := by
  simp only [segments, splitSlash_single h, List.map_cons, List.map_nil, String.ofList_toList]

theorem joinSegments_cons (s : String) {rest : List String} (some : rest ≠ []) :
    joinSegments (s :: rest) = s ++ "/" ++ joinSegments rest :=
  String.intercalate_cons_of_ne_nil some

theorem segments_joinSegments {segs : List String} (some : segs ≠ [])
    (each : ∀ s ∈ segs, Slashless s) : (⟨joinSegments segs⟩ : Path).segments = segs := by
  induction segs with
  | nil => exact absurd rfl some
  | cons s rest ih =>
    have first := segments_single (each s (List.mem_cons_self ..))
    by_cases last : rest = []
    · rw [last, joinSegments, String.intercalate_singleton, first]
    · rw [joinSegments_cons s last, segments_append, first,
        ih last fun t ht => each t (List.mem_cons_of_mem _ ht), List.singleton_append]

theorem joinSegments_segments (p : Path) : joinSegments p.segments = p.text := by
  rw [← String.toList_inj, joinSegments, String.toList_intercalate, segments, List.map_map]
  have each : String.toList ∘ String.ofList = (id : List Char → List Char) := by
    funext text
    simp
  rw [each, List.map_id]
  generalize p.text.toList = text
  induction text with
  | nil => rfl
  | cons c rest ih =>
    cases parts : splitSlash rest with
    | nil => exact absurd parts (splitSlash_ne_nil rest)
    | cons first others =>
      rw [parts] at ih
      simp only [splitSlash, parts]
      split
      · rename_i slash
        rw [List.intercalate_cons_cons, ih, slash]
        rfl
      · cases others with
        | nil => simpa using ih
        | cons second others =>
          rw [List.intercalate_cons_cons] at ih ⊢
          simp only [List.cons_append, List.append_assoc] at ih ⊢
          rw [ih]

/-- How a path can begin, with the segments behind its leading part. -/
inductive Opens (p : Path) : Option Part → String → List String → Prop where
  | empty (text : p.text = "") : Opens p none "" []
  | root {rest : List String} (segments : p.segments = "" :: rest) (more : rest ≠ []) :
      Opens p (some .root) "/" rest
  | here {rest : List String} (segments : p.segments = "." :: rest) : Opens p (some .here) "." rest
  | inner {s : String} {rest : List String} (segments : p.segments = s :: rest)
      (own : isVoid s = false) : Opens p none "" (s :: rest)

theorem isAbsolute_iff {p : Path} {rest : List String} (h : p.segments = "" :: rest) :
    p.isAbsolute = true ↔ rest ≠ [] := by
  have text := joinSegments_segments p
  rw [h] at text
  by_cases last : rest = []
  · rw [last, joinSegments, String.intercalate_singleton] at text
    simp [isAbsolute, ← text, last]
  · rw [joinSegments_cons "" last] at text
    simp [isAbsolute, ← text, last]

theorem Opens.opening {p : Path} {lead : Option Part} {text : String} {inner : List String}
    (h : Opens p lead text inner) : p.opening = (lead, text, inner) := by
  unfold Path.opening
  cases h with
  | empty text =>
    have segments : p.segments = [""] := by simp [Path.segments, text, splitSlash]
    rw [segments]
    simp [isAbsolute, text]
  | root segments more =>
    rw [segments]
    simp only [(isAbsolute_iff segments).2 more, ite_true]
  | here segments =>
    rw [segments]
    simp
  | inner segments own =>
    rw [segments]
    split
    · rename_i found
      simp only [List.cons.injEq] at found
      simp [isVoid, found.1] at own
    · rename_i found
      simp only [List.cons.injEq] at found
      simp [isVoid, found.1] at own
    · rfl

theorem opens (p : Path) : ∃ lead text inner, Opens p lead text inner := by
  cases segments : p.segments with
  | nil => exact absurd (List.map_eq_nil_iff.1 segments) (splitSlash_ne_nil _)
  | cons s rest =>
    by_cases first : s = ""
    · subst first
      by_cases last : rest = []
      · have text := joinSegments_segments p
        rw [segments, last, joinSegments, String.intercalate_singleton] at text
        exact ⟨_, _, _, .empty text.symm⟩
      · exact ⟨_, _, _, .root segments last⟩
    by_cases dot : s = "."
    · subst dot
      exact ⟨_, _, _, .here segments⟩
    · exact ⟨_, _, _, .inner segments (by simp [isVoid, first, dot])⟩

namespace Opens
variable {p : Path} {lead : Option Part} {text : String} {inner : List String}

theorem parts_eq (h : Opens p lead text inner) : p.parts = lead.toList ++ innerParts inner := by
  rw [Path.parts, h.opening]

theorem slashless (h : Opens p lead text inner) : ∀ s ∈ inner, Slashless s := by
  have each : ∀ s ∈ p.segments, Slashless s := fun s => slashless_segment
  cases h with
  | empty => simp
  | root segments | here segments =>
    rw [segments] at each
    exact fun s hs => each s (List.mem_cons_of_mem _ hs)
  | inner segments =>
    rw [segments] at each
    exact each

theorem reopen_eq (h : Opens p lead text inner) : reopen lead text inner = p := by
  have whole := joinSegments_segments p
  have spelled : (reopen lead text inner).text = p.text := by
    cases h with
    | empty none => rw [none]; rfl
    | root segments more =>
      rw [segments, joinSegments_cons "" more] at whole
      rw [← whole]
      rfl
    | here segments =>
      cases inner with
      | nil => rw [← whole, segments]; rfl
      | cons s rest =>
        rw [segments, joinSegments_cons "." (List.cons_ne_nil s rest)] at whole
        rw [← whole]
        rfl
    | inner segments =>
      rw [segments] at whole
      rw [← whole]
      exact String.empty_append
  cases p
  cases h' : reopen lead text inner
  rw [h'] at spelled
  exact congrArg Path.mk spelled

/-- What is spelled by the same opening and other segments. Of the root alone an empty segment
stays. -/
theorem reopen (h : Opens p lead text inner) {front : List String}
    (each : ∀ s ∈ front, Slashless s)
    (named : lead = none → ∃ s rest, front = s :: rest ∧ isVoid s = false) :
    ∃ spelled, Opens (Path.reopen lead text front) lead text spelled ∧
      (spelled = front ∨ front = [] ∧ spelled = [""]) := by
  have joined : front ≠ [] → (⟨joinSegments front⟩ : Path).segments = front :=
    fun some => segments_joinSegments some each
  cases h with
  | empty | inner =>
    obtain ⟨s, rest, rfl, own⟩ := named rfl
    refine ⟨s :: rest, .inner ?_ own, .inl rfl⟩
    change (⟨"" ++ joinSegments (s :: rest)⟩ : Path).segments = _
    rw [String.empty_append, joined (List.cons_ne_nil s rest)]
  | root segments more =>
    cases front with
    | nil => exact ⟨[""], .root (by decide) (by simp), .inr ⟨rfl, rfl⟩⟩
    | cons s rest =>
      have spelled := segments_append "" (joinSegments (s :: rest))
      rw [joined (List.cons_ne_nil s rest)] at spelled
      exact ⟨s :: rest, .root spelled (List.cons_ne_nil s rest), .inl rfl⟩
  | here segments =>
    cases front with
    | nil => exact ⟨[], .here (by decide), .inl rfl⟩
    | cons s rest =>
      have spelled := segments_append "." (joinSegments (s :: rest))
      rw [joined (List.cons_ne_nil s rest)] at spelled
      exact ⟨s :: rest, .here spelled, .inl rfl⟩

theorem named_prefix (h : Opens p lead text inner) {front : List String} (less : front <+: inner)
    (named : lead = none → front ≠ []) :
    lead = none → ∃ s rest, front = s :: rest ∧ isVoid s = false := by
  intro plain
  obtain ⟨s, rest, rfl⟩ := List.exists_cons_of_ne_nil (named plain)
  cases h with
  | empty => simp at less
  | root | here => cases plain
  | inner segments own =>
    obtain ⟨rfl, -⟩ := List.cons_prefix_cons.1 less
    exact ⟨s, rest, rfl, own⟩

theorem unique (h : Opens p lead text inner) {other : List String}
    (h' : Opens p lead text other) : inner = other := by
  have same := h.opening.symm.trans h'.opening
  simpa using same

end Opens

end ParallelLint.Path
