import Mathlib.Data.List.DropRight
import ParallelLint.Proofs.Path.Spelling

set_option autoImplicit false

namespace ParallelLint.Path

theorem innerParts_append (segs more : List String) :
    innerParts (segs ++ more) = innerParts segs ++ innerParts more := by
  simp only [innerParts, List.filter_append, List.map_append]

theorem innerParts_void {segs : List String} (void : ∀ s ∈ segs, isVoid s = true) :
    innerParts segs = [] := by
  rw [innerParts, List.filter_eq_nil_iff.2 (by simpa using void), List.map_nil]

theorem mem_innerParts {segs : List String} {part : Part} (h : part ∈ innerParts segs) :
    part = .up ∧ ".." ∈ segs ∨ ∃ name, part = .name name := by
  obtain ⟨s, hs, rfl⟩ := List.mem_map.1 h
  unfold partOf
  split
  · rename_i up
    exact .inl ⟨rfl, up ▸ (List.mem_filter.1 hs).1⟩
  · exact .inr ⟨s, rfl⟩

theorem innerParts_dropVoidEnd (segs : List String) :
    innerParts (dropVoidEnd segs) = innerParts segs := by
  have whole := List.rdropWhile_append_rtakeWhile (p := isVoid) (l := segs)
  have tail : innerParts (segs.rtakeWhile isVoid) = [] :=
    innerParts_void fun s hs => List.mem_rtakeWhile_imp hs
  calc
    innerParts (dropVoidEnd segs) =
        innerParts (dropVoidEnd segs) ++ innerParts (segs.rtakeWhile isVoid) := by
      rw [tail, List.append_nil]
    _ = innerParts segs := by
      rw [← innerParts_append]
      exact congrArg innerParts whole

theorem dropVoidEnd_prefix (segs : List String) : dropVoidEnd segs <+: segs :=
  List.rdropWhile_prefix isVoid segs

theorem dropVoidEnd_last {segs : List String} {last : String}
    (h : (dropVoidEnd segs).getLast? = some last) : isVoid last = false := by
  have some : segs.rdropWhile isVoid ≠ [] := by
    change dropVoidEnd segs ≠ []
    rintro none
    simp [none] at h
  have own := List.rdropWhile_last_not isVoid segs some
  have same : (segs.rdropWhile isVoid).getLast some = last :=
    Option.some.inj ((List.getLast?_eq_some_getLast some).symm.trans h)
  simpa [same] using own

theorem dropVoidEnd_full {segs : List String} (full : ∀ s ∈ segs, isVoid s = false) :
    dropVoidEnd segs = segs :=
  List.rdropWhile_eq_self_iff.2 fun some => by simp [full _ (List.getLast_mem some)]

theorem parent_spelled {p q : Path} (h : p.parent? = some q) (named : q.text ≠ "") :
    ∃ lead text inner front back last, Opens p lead text inner ∧ inner = front ++ back ∧
      back ≠ [] ∧ q = reopen lead text front ∧ (lead = none → front ≠ []) ∧
      innerParts inner = innerParts front ++ [partOf last] ∧
      (∀ s, front.getLast? = some s → isVoid s = false) ∧
      ((∀ s ∈ inner, isVoid s = false) → inner = front ++ [last]) := by
  obtain ⟨lead, text, inner, opens⟩ := p.opens
  rw [parent?, opens.opening] at h
  rcases List.eq_nil_or_concat (dropVoidEnd inner) with none | ⟨before, last, kept⟩
  · simp only [none] at h
    split at h
    · cases h
      exact absurd rfl named
    · cases h
  rw [List.concat_eq_append] at kept
  have some : q = reopen lead text (dropVoidEnd before) := by
    simp only [kept] at h
    split at h
    · simp_all
    · rw [List.dropLast_concat] at h
      exact (Option.some.inj h).symm
  obtain ⟨more, hmore⟩ := dropVoidEnd_prefix before
  obtain ⟨rest, hrest⟩ := dropVoidEnd_prefix inner
  have ends : (dropVoidEnd inner).getLast? = Option.some last := by simp [kept]
  have void := dropVoidEnd_last ends
  refine ⟨lead, text, inner, dropVoidEnd before, more ++ last :: rest, last, opens, ?_, by simp,
    some, ?_, ?_, fun s => dropVoidEnd_last, ?_⟩
  · rw [← List.append_assoc, hmore, ← hrest, kept, List.append_assoc, List.singleton_append]
  · rintro rfl none
    rw [some, none] at named
    refine named ?_
    cases opens <;> rfl
  · rw [← innerParts_dropVoidEnd inner, kept, innerParts_append, innerParts_dropVoidEnd before]
    simp [innerParts, void]
  · intro full
    rw [dropVoidEnd_full full] at kept
    have full' : ∀ s ∈ before, isVoid s = false := fun s hs => full s (by simp [kept, hs])
    rw [dropVoidEnd_full full', kept]

theorem reopen_append {p : Path} {lead : Option Part} {text : String} {inner front back : List String}
    (h : Opens p lead text inner) (split : inner = front ++ back) (more : back ≠ [])
    (named : lead = none → front ≠ []) :
    p.text = (reopen lead text front).text ++ "/" ++ joinSegments back ∨
      (reopen lead text front).text = "/" ∧ p.text = "/" ++ joinSegments back := by
  have whole := h.reopen_eq
  rw [split] at whole
  cases front with
  | nil =>
    rw [← whole]
    cases h with
    | empty => exact absurd rfl (named rfl)
    | root => exact .inr ⟨rfl, rfl⟩
    | here =>
      cases back with
      | nil => exact absurd rfl more
      | cons s rest => exact .inl rfl
    | inner => exact absurd rfl (named rfl)
  | cons s rest =>
    have joined : joinSegments (s :: rest ++ back) =
        joinSegments (s :: rest) ++ "/" ++ joinSegments back :=
      String.intercalate_append_of_ne_nil (List.cons_ne_nil s rest) more
    left
    rw [← whole]
    cases h <;>
      simp only [reopen, List.cons_append] at joined ⊢ <;>
      simp only [joined, ← String.append_assoc]

theorem parent_text {p q : Path} (h : p.parent? = some q) (named : q.text ≠ "") :
    ∃ rest, p.text = q.text ++ "/" ++ rest ∨ q.text = "/" ∧ p.text = "/" ++ rest := by
  obtain ⟨lead, text, inner, front, back, last, opens, split, more, rfl, some, -⟩ :=
    parent_spelled h named
  exact ⟨_, reopen_append opens split more some⟩

theorem parent_parts {p q : Path} (h : p.parent? = some q) (named : q.text ≠ "") :
    ∃ last, p.parts = q.parts ++ [last] := by
  obtain ⟨lead, text, inner, front, back, last, opens, split, -, rfl, some, parts, -⟩ :=
    parent_spelled h named
  have less : front <+: inner := ⟨back, split.symm⟩
  obtain ⟨spelled, opens', same⟩ := opens.reopen
    (fun s hs => opens.slashless s (less.subset hs)) (opens.named_prefix less some)
  have inside : innerParts spelled = innerParts front := by
    rcases same with rfl | ⟨rfl, rfl⟩ <;> rfl
  refine ⟨partOf last, ?_⟩
  calc p.parts = lead.toList ++ (innerParts front ++ [partOf last]) := by
        rw [opens.parts_eq, parts]
    _ = (reopen lead text front).parts ++ [partOf last] := by
        rw [opens'.parts_eq, inside, List.append_assoc]

theorem parts_named {p : Path} (named : p.text ≠ "") : p.parts ≠ [] := by
  obtain ⟨lead, text, inner, opens⟩ := p.opens
  rw [opens.parts_eq]
  cases opens with
  | empty text => exact absurd text named
  | root | here => simp
  | inner segments own => simp [innerParts, own]

theorem parent_long {p q : Path} (h : p.parent? = some q) (named : q.text ≠ "") :
    2 ≤ p.parts.length := by
  obtain ⟨last, parts⟩ := parent_parts h named
  have some := List.length_pos_of_ne_nil (parts_named named)
  rw [parts, List.length_append, List.length_singleton]
  omega

theorem named_parent {p : Path} (long : 2 ≤ p.parts.length) :
    ∃ q, p.parent? = some q ∧ q.text ≠ "" := by
  obtain ⟨lead, text, inner, opens⟩ := p.opens
  have same := innerParts_dropVoidEnd inner
  have front := dropVoidEnd_prefix inner
  rw [opens.parts_eq, ← same] at long
  simp only [Path.parent?, opens.opening]
  cases kept : dropVoidEnd inner with
  | nil =>
    rw [kept] at long
    cases opens <;> simp [innerParts] at long
  | cons s rest =>
    refine ⟨_, rfl, ?_⟩
    rw [kept] at long front
    cases opens with
    | empty => simp at front
    | root => simp [Path.reopen, String.append_eq_empty_iff]
    | here =>
      unfold Path.reopen
      split <;> simp [String.append_eq_empty_iff]
    | inner segments own =>
      obtain ⟨rfl, -⟩ := List.cons_prefix_cons.1 front
      have more : rest ≠ [] := by
        rintro rfl
        simp [innerParts, own] at long
      have before : dropVoidEnd (s :: rest.dropLast) ≠ [] := by
        intro none
        have inside := innerParts_dropVoidEnd (s :: rest.dropLast)
        simp [none, innerParts, own] at inside
      obtain ⟨first, middle, cut⟩ := List.exists_cons_of_ne_nil before
      have first : first = s := (List.cons_prefix_cons.1 (cut ▸ dropVoidEnd_prefix _)).1
      subst first
      rw [List.dropLast_cons_of_ne_nil more, cut]
      intro unnamed
      have void : first = "" := by
        rcases List.eq_nil_or_concat middle with rfl | ⟨_, _, rfl⟩
        · simpa [Path.reopen, joinSegments] using unnamed
        · simp [Path.reopen, joinSegments_cons, String.append_eq_empty_iff] at unnamed
      simp [void, isVoid] at own

theorem segments_endSlash {text : String} (slash : text.toList.getLast? = some '/') :
    ∃ before, text = before ++ "/" ∧
      (⟨text⟩ : Path).segments = (⟨before⟩ : Path).segments ++ [""] := by
  obtain ⟨chars, same⟩ := List.getLast?_eq_some_iff.1 slash
  have spelled : text = String.ofList chars ++ "/" := by
    rw [← String.toList_inj, same]
    simp
  have cut := segments_append (String.ofList chars) ""
  rw [String.append_empty, ← spelled] at cut
  exact ⟨_, spelled, cut⟩

theorem Opens.last {p : Path} {lead : Option Part} {text : String} {inner : List String}
    (h : Opens p lead text inner) (named : p.text ≠ "") :
    p.segments.getLast? = some (inner.getLast?.getD ".") := by
  cases h with
  | empty text => exact absurd text named
  | root segments more =>
    rw [segments, List.getLast?_cons_of_ne_nil more, List.getLast?_eq_some_getLast more]
    rfl
  | here segments =>
    rw [segments, List.getLast?_cons]
  | inner segments => rw [segments, List.getLast?_cons, Option.getD_some]

theorem parent_slash {p q : Path} (h : p.parent? = some q) (named : q.text ≠ "")
    (slash : q.text.toList.getLast? = some '/') : q.text = "/" := by
  obtain ⟨lead, text, inner, front, back, last, opens, split, -, rfl, some, -, own, -⟩ :=
    parent_spelled h named
  have less : front <+: inner := ⟨back, split.symm⟩
  obtain ⟨spelled, opens', same⟩ := opens.reopen
    (fun s hs => opens.slashless s (less.subset hs)) (opens.named_prefix less some)
  obtain ⟨before, -, cut⟩ := segments_endSlash slash
  have ends := opens'.last named
  rw [cut, List.getLast?_concat, Option.some.injEq] at ends
  rcases same with rfl | ⟨rfl, rfl⟩
  · cases found : spelled.getLast? with
    | none => simp [found] at ends
    | some s =>
      have void := own s found
      rw [found, Option.getD_some] at ends
      simp [← ends, isVoid] at void
  · cases opens' with
    | root => rfl
    | here => exact absurd slash (by decide)
    | inner segments own' => simp [isVoid] at own'

theorem upward_eq (p : Path) :
    p.upward = match p.parent? with
      | some q => if q.text = "" then [p] else p :: q.upward
      | none => [p] := by
  cases parent : p.parent? with
  | none =>
    rw [upward]
    cases p.parts.length with
    | zero => rfl
    | succ n => rw [upwardWithin, parent]
  | some q =>
    by_cases named : q.text = ""
    · simp only [named, ite_true]
      rw [upward]
      cases p.parts.length with
      | zero => rfl
      | succ n => simp only [upwardWithin, parent, named, ite_true]
    · obtain ⟨last, parts⟩ := parent_parts parent named
      simp only [named, ite_false]
      simp only [upward, parts, List.length_append, List.length_singleton, upwardWithin, parent,
        named, ite_false]

theorem mem_upward_self (p : Path) : p ∈ p.upward := by
  rw [upward_eq]
  split
  · split <;> exact List.mem_cons_self ..
  · exact List.mem_cons_self ..

/-- What holds of a path and of every parent of one of which it holds, holds upward. -/
theorem upward_all {holds : Path → Prop} {p : Path} (h : holds p)
    (parent : ∀ d q : Path, holds d → d.parent? = some q → q.text ≠ "" → holds q) :
    ∀ d ∈ p.upward, holds d := by
  induction size : p.parts.length using Nat.strong_induction_on generalizing p with
  | _ n ih =>
    rw [upward_eq]
    have alone : ∀ d ∈ [p], holds d := by simpa using h
    split
    · rename_i q around
      split
      · exact alone
      · rename_i named
        obtain ⟨last, parts⟩ := parent_parts around named
        have less : q.parts.length < n := by
          rw [← size, parts, List.length_append, List.length_singleton]
          omega
        exact List.forall_mem_cons.2 ⟨h, ih _ less (parent p q h around named) rfl⟩
    · exact alone

theorem upward_parent {p d q : Path} (h : d ∈ p.upward) (around : d.parent? = some q)
    (named : q.text ≠ "") : q ∈ p.upward := by
  have closed : ∀ d ∈ p.upward, ∀ e ∈ d.upward, e ∈ p.upward := by
    refine upward_all (fun e he => he) fun d q inside around named e he => inside e ?_
    rw [upward_eq, around]
    simp only [named, if_false]
    exact List.mem_cons_of_mem _ he
  refine closed d h q ?_
  rw [upward_eq, around]
  simp only [named, if_false]
  exact List.mem_cons_of_mem _ (mem_upward_self q)

theorem upward_long {p : Path} (long : 2 ≤ p.parts.length) :
    ∃ q last, p.parent? = some q ∧ q.text ≠ "" ∧ p.parts = q.parts ++ [last] ∧
      p.upward = p :: q.upward := by
  obtain ⟨q, around, named⟩ := named_parent long
  obtain ⟨last, parts⟩ := parent_parts around named
  refine ⟨q, last, around, named, parts, ?_⟩
  rw [upward_eq, around]
  simp only [named, if_false]

theorem upward_short {p : Path} (short : p.parts.length < 2) : p.upward = [p] := by
  rw [upward_eq]
  split
  · rename_i q around
    split
    · rfl
    · rename_i named
      exact absurd (parent_long around named) (Nat.not_le.2 short)
  · rfl

def Normal (p : Path) : Prop := p.normalize = p

theorem Normal.eq {p q : Path} (hp : p.Normal) (hq : q.Normal) (same : p.parts = q.parts) :
    p = q := by
  rw [← hp, ← hq, normalize, normalize, same]

theorem text_partOf (s : String) : (partOf s).text = s := by
  unfold partOf
  split
  · rename_i up
    rw [up]
    rfl
  · rfl

theorem texts_innerParts (segs : List String) :
    (innerParts segs).map Part.text = segs.filter fun s => !isVoid s := by
  rw [innerParts, List.map_map]
  exact (List.map_congr_left fun s _ => text_partOf s).trans (List.map_id _)

theorem ofParts_innerParts (segs : List String) :
    ofParts (innerParts segs) = ⟨joinSegments (segs.filter fun s => !isVoid s)⟩ := by
  rw [← texts_innerParts]
  unfold ofParts
  split
  · rename_i rest parts
    have mem : Part.root ∈ innerParts segs := by simp [parts]
    rcases mem_innerParts mem with ⟨⟨⟩, -⟩ | ⟨name, ⟨⟩⟩
  · rfl

theorem Opens.normalize_eq {p : Path} {lead : Option Part} {text : String} {inner : List String}
    (h : Opens p lead text inner) :
    p.normalize = Path.reopen lead text (inner.filter fun s => !isVoid s) := by
  rw [normalize, h.parts_eq]
  cases h with
  | empty => rfl
  | root =>
    rw [← texts_innerParts]
    rfl
  | here =>
    rw [← texts_innerParts]
    cases innerParts inner with
    | nil => rfl
    | cons part rest =>
      simp only [Option.toList_some, List.singleton_append, ofParts, List.map_cons, Path.reopen]
      rw [joinSegments_cons _ (List.cons_ne_nil _ _)]
      rfl
  | inner =>
    rw [Option.toList_none, List.nil_append, ofParts_innerParts]
    simp [Path.reopen]

theorem Opens.normal {p : Path} {lead : Option Part} {text : String} {inner : List String}
    (h : Opens p lead text inner) (full : ∀ s ∈ inner, isVoid s = false) : p.Normal := by
  rw [Normal, h.normalize_eq, List.filter_eq_self.2 (by simpa using full), h.reopen_eq]

/-- The normal form opens as the path does. Of the root alone an empty segment stays. -/
theorem Opens.normalized {p : Path} {lead : Option Part} {text : String} {inner : List String}
    (h : Opens p lead text inner) (named : p.text ≠ "") :
    ∃ spelled, Opens p.normalize lead text spelled ∧
      (spelled = (inner.filter fun s => !isVoid s) ∨
        (inner.filter fun s => !isVoid s) = [] ∧ spelled = [""]) := by
  have each : ∀ s ∈ inner.filter fun s => !isVoid s, Slashless s :=
    fun s hs => h.slashless s (List.mem_filter.1 hs).1
  rw [h.normalize_eq]
  refine h.reopen each ?_
  rintro rfl
  cases h with
  | empty text => exact absurd text named
  | inner segments own => exact ⟨_, _, List.filter_cons_of_pos (by simpa using own), own⟩

theorem normalize_parts (p : Path) : p.normalize.parts = p.parts := by
  by_cases unnamed : p.text = ""
  · have empty : p = ⟨""⟩ := by rw [← unnamed]
    rw [empty]
    decide
  obtain ⟨lead, text, inner, h⟩ := p.opens
  obtain ⟨spelled, opens, same⟩ := h.normalized unnamed
  rw [opens.parts_eq, h.parts_eq]
  rcases same with rfl | ⟨none, rfl⟩
  · simp [innerParts]
  · simp only [innerParts, none]
    rfl

theorem normalize_normal (p : Path) : p.normalize.Normal := by
  rw [Normal, normalize, normalize_parts]
  rfl

theorem Normal.full {p : Path} (normal : p.Normal) {lead : Option Part} {text : String}
    {inner : List String} (h : Opens p lead text inner) :
    (∀ s ∈ inner, isVoid s = false) ∨ lead = some .root ∧ text = "/" ∧ inner = [""] := by
  by_cases none : p.text = ""
  · have segments : p.segments = [""] := by simp [Path.segments, none, splitSlash]
    cases h with
    | empty => simp
    | root found more =>
      rw [segments] at found
      simp_all
    | here found => simp [segments] at found
    | inner found own =>
      rw [segments] at found
      simp only [List.cons.injEq] at found
      simp [← found.1, isVoid] at own
  obtain ⟨spelled, opens, same⟩ := h.normalized none
  rw [normal] at opens
  have inside := h.unique opens
  rcases same with rfl | ⟨-, rfl⟩
  · left
    intro s hs
    rw [inside] at hs
    simpa using (List.mem_filter.1 hs).2
  · right
    subst inside
    cases h with
    | root => exact ⟨rfl, rfl, rfl⟩
    | here segments =>
      have text := joinSegments_segments p
      rw [segments] at text
      have normal' := normal
      rw [Normal, (Opens.here segments).normalize_eq] at normal'
      rw [← normal'] at text
      exact absurd text (by decide)
    | inner segments own => simp [isVoid] at own

theorem Normal.parent {p q : Path} (normal : p.Normal) (h : p.parent? = some q)
    (named : q.text ≠ "") : q.Normal := by
  obtain ⟨lead, text, inner, front, back, last, opens, split, -, rfl, some, parts, -, whole⟩ :=
    parent_spelled h named
  rcases normal.full opens with full | ⟨-, -, rfl⟩
  · have full' : ∀ s ∈ front, isVoid s = false := fun s hs => full s (by simp [split, hs])
    have less : front <+: inner := ⟨back, split.symm⟩
    obtain ⟨spelled, opens', same⟩ := opens.reopen
      (fun s hs => opens.slashless s (less.subset hs)) (opens.named_prefix less some)
    rcases same with rfl | ⟨rfl, rfl⟩
    · exact opens'.normal full'
    · rw [Normal, opens'.normalize_eq]
      rfl
  · have none : innerParts [""] = [] := rfl
    simp [none] at parts

theorem join_relative {p q : Path} (named : p.text ≠ "") (relative : q.isAbsolute = false) :
    (∃ before, p.text = before ++ "/" ∧ p.join q = ⟨before ++ "/" ++ q.text⟩ ∧
      p.segments = (⟨before⟩ : Path).segments ++ [""]) ∨
    p.text.toList.getLast? ≠ some '/' ∧ p.join q = ⟨p.text ++ "/" ++ q.text⟩ ∧
      (p.join q).segments = p.segments ++ q.segments := by
  by_cases slash : p.text.toList.getLast? = some '/'
  · obtain ⟨before, spelled, cut⟩ := segments_endSlash slash
    exact .inl ⟨before, spelled, by simp [join, relative, spelled], cut⟩
  · have joined : p.join q = ⟨p.text ++ "/" ++ q.text⟩ := by
      simp [join, relative, slash, named]
    exact .inr ⟨slash, joined, by rw [joined, segments_append]⟩

theorem slashless_relative {name : String} (clean : Slashless name) :
    (⟨name⟩ : Path).isAbsolute = false := by
  unfold isAbsolute
  simp only [decide_eq_false_iff_not]
  intro slash
  exact clean (List.mem_of_mem_head? slash)

theorem join_name {p : Path} (named : p.text ≠ "") {name : String} (clean : Slashless name) :
    (∃ before, p.text = before ++ "/" ∧ p.join ⟨name⟩ = ⟨before ++ "/" ++ name⟩ ∧
      p.segments = (⟨before⟩ : Path).segments ++ [""]) ∨
    p.text.toList.getLast? ≠ some '/' ∧ p.join ⟨name⟩ = ⟨p.text ++ "/" ++ name⟩ ∧
      (p.join ⟨name⟩).segments = p.segments ++ [name] := by
  have joined := join_relative named (slashless_relative clean)
  rwa [segments_single clean] at joined

theorem join_size {p : Path} (named : p.text ≠ "") {name : String} (clean : Slashless name) :
    p.text.utf8ByteSize ≤ (p.join ⟨name⟩).text.utf8ByteSize := by
  rcases join_name named clean with ⟨before, text, joined, -⟩ | ⟨-, joined, -⟩
  · rw [joined, text, String.utf8ByteSize_append, String.utf8ByteSize_append,
      String.utf8ByteSize_append]
    omega
  · rw [joined, String.utf8ByteSize_append, String.utf8ByteSize_append]
    omega

theorem join_relative_parts {p q : Path} (named : p.text ≠ "") (relative : q.isAbsolute = false) :
    (p.join q).parts = p.parts ++ innerParts q.segments := by
  obtain ⟨front, joined, whole⟩ : ∃ front, (p.join q).segments = front ++ q.segments ∧
      (p.segments = front ∨ p.segments = front ++ [""]) := by
    rcases join_relative named relative with ⟨before, -, joined, cut⟩ | ⟨-, -, cut⟩
    · exact ⟨_, joined ▸ segments_append before q.text, .inr cut⟩
    · exact ⟨_, cut, .inl rfl⟩
  have below : q.segments ≠ [] := fun none => splitSlash_ne_nil _ (List.map_eq_nil_iff.1 none)
  -- what follows the first segment stays, but for a void end
  have inside : ∀ {s : String} {rest : List String}, p.segments = s :: rest →
      ∃ kept, (p.join q).segments = s :: (kept ++ q.segments) ∧
        innerParts kept = innerParts rest := by
    intro s rest segments
    have text := joinSegments_segments p
    cases front with
    | nil =>
      rcases whole with whole | whole <;> rw [whole] at text <;> exact absurd text.symm named
    | cons first kept =>
      refine ⟨kept, ?_⟩
      rw [segments, List.cons_append, List.cons.injEq, List.cons.injEq] at whole
      rcases whole with ⟨rfl, rfl⟩ | ⟨rfl, rfl⟩
      · exact ⟨joined, rfl⟩
      · exact ⟨joined, by rw [innerParts_append]; exact (List.append_nil _).symm⟩
  obtain ⟨lead, text, inner, opens⟩ := p.opens
  rw [opens.parts_eq]
  cases opens with
  | empty text => exact absurd text named
  | root segments =>
    obtain ⟨kept, joined, same⟩ := inside segments
    rw [(Opens.root joined (by simp [below])).parts_eq, innerParts_append, same,
      List.append_assoc]
  | here segments =>
    obtain ⟨kept, joined, same⟩ := inside segments
    rw [(Opens.here joined).parts_eq, innerParts_append, same, List.append_assoc]
  | @inner s rest segments own =>
    obtain ⟨kept, joined, same⟩ := inside segments
    have first : ∀ more, innerParts (s :: more) = innerParts [s] ++ innerParts more :=
      fun more => innerParts_append [s] more
    rw [(Opens.inner joined own).parts_eq, first, innerParts_append, same, first rest]
    simp only [List.append_assoc]

theorem join_parts {p : Path} (named : p.text ≠ "") {name : String} (clean : Slashless name) :
    (p.join ⟨name⟩).parts = p.parts ++ innerParts [name] := by
  rw [join_relative_parts named (slashless_relative clean), segments_single clean]

theorem Normal.join {p : Path} (normal : p.Normal) (named : p.text ≠ "") {name : String}
    (own : isVoid name = false) (clean : Slashless name) : (p.join ⟨name⟩).Normal := by
  obtain ⟨lead, text, inner, opens⟩ := p.opens
  have full := normal.full opens
  rcases join_name named clean with ⟨before, spelled, joined, cut⟩ | ⟨noSlash, -, cut⟩
  · -- only the root is spelled with a slash at its end
    rcases full with full | ⟨rfl, rfl, rfl⟩
    · have last := opens.last named
      rw [cut, List.getLast?_concat] at last
      cases found : inner.getLast? with
      | none => simp [found] at last
      | some s =>
        have void := full s (List.mem_of_getLast? found)
        simp only [found, Option.getD_some, Option.some.injEq] at last
        simp [← last, isVoid] at void
    · have segments := segments_append before name
      rw [← joined, segments_single clean] at segments
      have whole : p.segments = "" :: [""] := by
        cases opens with
        | root segments => exact segments
      rw [whole] at cut
      have root : [""] = (⟨before⟩ : Path).segments :=
        (@List.append_inj' _ [""] _ _ _ cut rfl).1
      rw [← root] at segments
      have opens' : Opens (p.join ⟨name⟩) (some .root) "/" [name] := .root segments (by simp)
      exact opens'.normal (by simpa using own)
  · rcases full with full | ⟨rfl, rfl, rfl⟩
    · have full' : ∀ s ∈ inner ++ [name], isVoid s = false := by
        intro s hs
        rcases List.mem_append.1 hs with hs | hs
        · exact full s hs
        · rwa [List.mem_singleton.1 hs]
      cases opens with
      | empty text => exact absurd text named
      | root segments more =>
        rw [segments] at cut
        exact (Opens.root cut (by simp)).normal full'
      | here segments =>
        rw [segments] at cut
        exact (Opens.here cut).normal full'
      | inner segments own' =>
        rw [segments] at cut
        exact (Opens.inner cut own').normal full'
    · refine absurd ?_ noSlash
      rw [← opens.reopen_eq]
      decide

/-- Names behind the root, with empty segments before them. -/
def padded (n : Nat) (names : List String) : Path :=
  ⟨joinSegments ("" :: (List.replicate n "" ++ names))⟩

section
variable {n : Nat} {names : List String}

theorem padded_opens (some : names ≠ []) (each : ∀ s ∈ names, Slashless s) :
    Opens (padded n names) (Option.some .root) "/" (List.replicate n "" ++ names) := by
  have clean : Slashless "" := by simp [Slashless]
  refine .root (segments_joinSegments (by simp) ?_) (by simp [some])
  intro s hs
  rcases List.mem_cons.1 hs with rfl | hs
  · exact clean
  rcases List.mem_append.1 hs with hs | hs
  · exact (List.eq_of_mem_replicate hs) ▸ clean
  · exact each s hs

theorem padded_parts (some : names ≠ []) (each : ∀ s ∈ names, Slashless s) :
    (padded n names).parts = .root :: innerParts names := by
  have void : innerParts (List.replicate n "") = [] :=
    innerParts_void fun s hs => by rw [List.eq_of_mem_replicate hs]; decide
  rw [(padded_opens some each).parts_eq, innerParts_append, void]
  rfl

theorem padded_size (n : Nat) (names : List String) :
    n ≤ (padded n names).text.utf8ByteSize := by
  induction n with
  | zero => exact Nat.zero_le _
  | succ n ih =>
    have longer : (padded (n + 1) names).text = "" ++ "/" ++ (padded n names).text := by
      rw [padded, List.replicate_succ, List.cons_append, joinSegments_cons _ (by simp), padded]
    have slash : "/".utf8ByteSize = 1 := rfl
    rw [longer, String.utf8ByteSize_append, String.utf8ByteSize_append]
    omega

theorem dropVoidEnd_own {segs : List String} {last : String} (own : isVoid last = false) :
    dropVoidEnd (segs ++ [last]) = segs ++ [last] :=
  List.rdropWhile_concat_neg isVoid segs last (by simp [own])

theorem padded_parent {s t : String} (clean : Slashless s) (clean' : Slashless t)
    (own : isVoid s = false) (own' : isVoid t = false) :
    (padded n [s, t]).parent? = some (padded n [s]) := by
  have outer : Opens (padded n [s]) _ _ _ := padded_opens (by simp) (by simpa using clean)
  have whole : Opens (padded n [s, t]) _ _ _ :=
    padded_opens (by simp) (by simpa using ⟨clean, clean'⟩)
  have inner : List.replicate n "" ++ [s, t] = List.replicate n "" ++ [s] ++ [t] := by simp
  have some : List.replicate n "" ++ [s] ++ [t] ≠ [] := by simp
  unfold parent?
  rw [whole.opening]
  simp only [inner, dropVoidEnd_own own', List.dropLast_concat, dropVoidEnd_own own,
    outer.reopen_eq]

theorem padded_upward {s : String} (clean : Slashless s) (own : isVoid s = false) :
    (padded n [s]).upward = [padded n [s], ⟨"/"⟩] := by
  have whole : Opens (padded n [s]) _ _ _ := padded_opens (by simp) (by simpa using clean)
  have void : dropVoidEnd (List.replicate n "") = [] := by
    simp [dropVoidEnd, isVoid]
  have parent : (padded n [s]).parent? = some ⟨"/"⟩ := by
    have some : List.replicate n "" ++ [s] ≠ [] := by simp
    unfold parent?
    rw [whole.opening]
    simp only [dropVoidEnd_own own, List.dropLast_concat, void]
    rfl
  rw [upward_eq, parent]
  rfl

end

end ParallelLint.Path
