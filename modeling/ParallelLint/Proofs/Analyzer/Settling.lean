import ParallelLint.Proofs.Analyzer.Selected

set_option autoImplicit false

/-!
Fixing a text that was fixed. Blanks that are taken away can uncover carriage returns, which then
belong to the end of the line, and other blanks before these; only such lines change once more.
-/
namespace ParallelLint.TextRules
open Fixing Text

/-- Blanks before the end of a line, behind carriage returns that are behind another blank. -/
def Covered (raw : List Char) : Prop :=
  ∃ kept blank returns blanks ending,
    raw = kept ++ blank :: (returns ++ (blanks ++ ending)) ∧
    (blank = ' ' ∨ blank = '\t') ∧
    returns ≠ [] ∧ (∀ c ∈ returns, c = '\n' ∨ c = '\r') ∧
    blanks ≠ [] ∧ (∀ c ∈ blanks, c = ' ' ∨ c = '\t') ∧
    ∀ c ∈ ending, c = '\n' ∨ c = '\r'

theorem isTrailing_iff {c : Char} : isTrailing c = true ↔ c = ' ' ∨ c = '\t' := by
  simp [isTrailing]

theorem isLineEnd_iff {c : Char} : isLineEnd c = true ↔ c = '\n' ∨ c = '\r' := by
  simp [isLineEnd]

theorem isLineEnd_blank {c : Char} (blank : c = ' ' ∨ c = '\t') : isLineEnd c = false := by
  rcases blank with rfl | rfl <;> rfl

theorem isTrailing_end {c : Char} (ends : c = '\n' ∨ c = '\r') : isTrailing c = false := by
  rcases ends with rfl | rfl <;> rfl

theorem dropEndWhile_upto {p : Char → Bool} {text kept other dropped : List Char}
    (parts : text = kept ++ other ++ dropped) (some : other ≠ [])
    (none : ∀ c ∈ other, p c = false) (all : ∀ c ∈ dropped, p c = true) :
    dropEndWhile p text = kept ++ other := by
  obtain ⟨inner, last, rfl⟩ := (List.eq_nil_or_concat' other).resolve_left some
  rw [parts, dropEndWhile_append p all, ← List.append_assoc]
  exact List.rdropWhile_concat_neg p _ last (by simp [none last (by simp)])

theorem Covered.unsettled {raw : List Char} (covered : Covered raw) :
    content (body (trimmed raw)) ≠ body (trimmed raw) := by
  obtain ⟨kept, blank, returns, blanks, ending, whole, isBlank, someReturns, areReturns, someBlanks,
    areBlanks, ends⟩ := covered
  have text : body raw = kept ++ blank :: returns ++ blanks :=
    dropEndWhile_upto (by rw [whole]; simp) someBlanks (fun c hc => isLineEnd_blank (areBlanks c hc))
      fun c hc => isLineEnd_iff.2 (ends c hc)
  have first : content (body raw) = kept ++ [blank] ++ returns :=
    dropEndWhile_upto (by rw [text]; simp) someReturns (fun c hc => isTrailing_end (areReturns c hc))
      fun c hc => isTrailing_iff.2 (areBlanks c hc)
  have uncovered : body (trimmed raw) = kept ++ [blank] := by
    rw [body_trimmed, first]
    refine dropEndWhile_upto rfl (List.cons_ne_nil _ _) (fun c hc => ?_)
      fun c hc => isLineEnd_iff.2 (areReturns c hc)
    rw [List.mem_singleton.1 hc]
    exact isLineEnd_blank isBlank
  rw [uncovered]
  intro clean
  have last : (content (kept ++ [blank])).getLast? = some blank := by
    rw [clean, List.getLast?_concat]
  cases (isTrailing_iff.2 isBlank).symm.trans (dropEndWhile_last last)

theorem covered_of_unsettled {raw : List Char}
    (unsettled : content (body (trimmed raw)) ≠ body (trimmed raw)) : Covered raw := by
  obtain ⟨blanks, ending, parts, whole, -, blank, ends⟩ := line_parts raw
  obtain ⟨returns, more, returnsEnd⟩ := dropEndWhile_dropped isLineEnd (content (body raw))
  have more : content (body raw) = body (trimmed raw) ++ returns := by rwa [body_trimmed]
  obtain ⟨uncovered, between, blank'⟩ := dropEndWhile_dropped isTrailing (body (trimmed raw))
  have between : body (trimmed raw) = content (body (trimmed raw)) ++ uncovered := between
  have someReturns : returns ≠ [] := by
    rintro rfl
    rw [List.append_nil] at more
    exact unsettled (more ▸ List.rdropWhile_idempotent isTrailing (body raw))
  have someBlanks : blanks ≠ [] := by
    rintro rfl
    rw [List.append_nil] at parts
    have same : body (body raw) = body raw := List.rdropWhile_idempotent isLineEnd raw
    refine unsettled ?_
    rw [body_trimmed, ← parts, same]
    exact parts.symm
  rcases List.eq_nil_or_concat' uncovered with rfl | ⟨inner, last, rfl⟩
  · rw [List.append_nil] at between
    exact absurd between.symm unsettled
  · refine ⟨content (body (trimmed raw)) ++ inner, last, returns, blanks, ending, ?_,
      isTrailing_iff.1 (blank' last (by simp)), someReturns,
      fun c hc => isLineEnd_iff.1 (returnsEnd c hc), someBlanks,
      fun c hc => isTrailing_iff.1 (blank c hc), fun c hc => isLineEnd_iff.1 (ends c hc)⟩
    calc raw
      _ = content (body raw) ++ (blanks ++ ending) := whole
      _ = body (trimmed raw) ++ returns ++ (blanks ++ ending) := by rw [more]
      _ = content (body (trimmed raw)) ++ (inner ++ [last]) ++ returns ++ (blanks ++ ending) :=
        congrArg (· ++ returns ++ (blanks ++ ending)) between
      _ = _ := by simp only [List.append_assoc, List.cons_append, List.nil_append]

theorem trimmed_settled (raw : List Char) :
    content (body (trimmed raw)) = body (trimmed raw) ↔ ¬Covered raw :=
  ⟨fun clean covered => covered.unsettled clean, fun settled =>
    by_contra fun unsettled => settled (covered_of_unsettled unsettled)⟩

theorem splitLines_trimmed {lines : List (List Char)} (cut : Lines lines) :
    splitLines (lines.map trimmed).flatten = (lines.map trimmed).filter (· ≠ []) := by
  induction cut with
  | none => rfl
  | @last line some plain =>
    rw [List.map_singleton, List.flatten_singleton]
    by_cases empty : trimmed line = []
    · rw [empty]
      rfl
    · rw [splitLines_plain empty fun feed => plain (trimmed_subset line feed)]
      simp [empty]
  | @more line rest plain others ih =>
    have plain' : '\n' ∉ trimmed line := fun feed => plain (trimmed_subset line feed)
    rw [List.map_cons, List.flatten_cons, trimmed_feed, List.append_assoc, List.singleton_append,
      splitLines_feed plain', ih]
    simp

theorem messagesFrom_allowed (on : Enabled) (number start : Nat) (lines : List (List Char)) :
    (∀ m ∈ messagesFrom on number start lines, FixMode.all.allows m = false) ↔
      (on.trailing.isSome = true → ∀ raw ∈ lines, content (body raw) = body raw) := by
  induction lines generalizing number start with
  | nil => simp [messagesFrom]
  | cons raw rest ih =>
    have here : (∀ m ∈ lineMessages on number start (body raw), FixMode.all.allows m = false) ↔
        (on.trailing.isSome = true → content (body raw) = body raw) := by
      rw [← @trailing_none on number start, Option.eq_none_iff_forall_ne_some]
      constructor
      · intro refused m found
        have allowed := trailingMessage_allowed found
        rw [refused m (mem_trailing found)] at allowed
        cases allowed
      · intro none m hm
        by_contra allowed
        exact none m (mem_allowed hm (by simpa using allowed))
    rw [messagesFrom, List.forall_mem_append, here, ih, List.forall_mem_cons, forall_and]

theorem unfixable_blanks {m : Message} (h : unfixable m = true) : aboutBlanks m = false := by
  rw [unfixable, Bool.or_eq_true, decide_eq_true_eq, decide_eq_true_eq] at h
  rcases h with rule | rule <;> rw [aboutBlanks, rule] <;> decide

theorem aboutBlanks_allowed {c : Config} {source : String} {m : Message}
    (h : m ∈ messages c source) : aboutBlanks m = FixMode.all.allows m := by
  obtain ⟨_, _, _, -, mem⟩ := mem_messagesFrom h
  rw [lineMessages_parts] at mem
  rcases List.mem_append.1 mem with trailing | other
  · have trailing := Option.mem_toList.1 trailing
    rw [trailingMessage_allowed trailing, trailing_about trailing]
  · obtain ⟨plain, about⟩ := mem_unfixable other
    rw [unfixable_blanks about, FixMode.allows, plain, Option.isSome_none]

theorem trailing_of_fixed {path : Path} {source output : String} {c : Config} {mode : FixMode}
    (fixed : (analyze path source c mode).output = some output) :
    (enabled c).trailing.isSome = true := by
  by_contra off
  have stays : ∀ m ∈ messages c source, mode.allows m = false := by
    intro m hm
    by_contra allowed
    obtain ⟨_, _, _, -, mem⟩ := mem_messagesFrom hm
    have found := mem_allowed mem (by simpa using allowed)
    rw [trailing_none.2 fun on => absurd on off] at found
    cases found
  rw [analyze_stays.2 stays] at fixed
  cases fixed

/-- Fixing a fixed text leaves nothing about blanks. But it changes the text again, and a run without
fixing still finds blanks in it, just when the first run has uncovered some. -/
theorem analyze_again {path : Path} {source output : String} {c : Config}
    (fixed : (analyze path source c .all).output = some output) :
    let again := analyze path output c .all
    (∀ m ∈ again.messages, aboutBlanks m = false) ∧
      (again.output = none ↔ ∀ raw ∈ splitLines source.toList, ¬Covered raw) ∧
      ((∀ m ∈ (analyze path output c .off).messages, aboutBlanks m = false) ↔
        ∀ raw ∈ splitLines source.toList, ¬Covered raw) := by
  intro again
  have refused : (∀ m ∈ messages c output, FixMode.all.allows m = false) ↔
      ∀ raw ∈ splitLines source.toList, ¬Covered raw := by
    rw [messages, messagesFrom_allowed, imp_iff_right (trailing_of_fixed fixed),
      analyze_trimmed fixed, splitLines_trimmed (splitLines_lines source.toList)]
    constructor
    · intro clean raw hraw
      refine (trimmed_settled raw).1 ?_
      by_cases empty : trimmed raw = []
      · rw [empty]
        rfl
      · exact clean _ (List.mem_filter.2 ⟨List.mem_map_of_mem hraw, by simp [empty]⟩)
    · intro settled line hline
      obtain ⟨raw, hraw, rfl⟩ := List.mem_map.1 (List.mem_filter.1 hline).1
      exact (trimmed_settled raw).2 (settled raw hraw)
  refine ⟨fun m hm => ?_, analyze_stays.trans refused, ?_⟩
  · rw [show again.messages = _ from analyze_messages path output c] at hm
    exact unfixable_blanks (messagesFrom_unfixable hm).2
  · rw [← refused]
    exact forall₂_congr fun m hm => by rw [aboutBlanks_allowed hm]

theorem blanks_fixed :
    (analyze ⟨"f"⟩ "a \r \n" defaultConfig .all).output = some "a \r\n" := by
  rw [analyze_output _ _ _ .all rfl]
  decide

theorem blanks_covered : Covered "a \r \n".toList :=
  ⟨['a'], ' ', ['\r'], [' '], ['\n'], rfl, .inl rfl, by simp, by simp, by simp, by simp, by simp⟩

theorem analyze_again_uncovered :
    (analyze ⟨"f"⟩ "a \r \n" defaultConfig .all).output = some "a \r\n" ∧
      (analyze ⟨"f"⟩ "a \r\n" defaultConfig .all).output ≠ none := by
  have line : splitLines "a \r \n".toList = ["a \r \n".toList] := rfl
  refine ⟨blanks_fixed, fun settled => ?_⟩
  have none := (analyze_again blanks_fixed).2.1.1 settled
  rw [line] at none
  exact none _ (List.mem_singleton_self _) blanks_covered

theorem fixed_not_settled :
    ¬∀ (path : Path) (source output : String) (c : Config), (enabled c).trailing.isSome = true →
      (analyze path source c .all).output = some output →
        (analyze path output c .all).output = none ∧
          ∀ m ∈ (analyze path output c .all).messages, aboutBlanks m = false := by
  intro settled
  have again := (settled ⟨"f"⟩ "a \r \n" "a \r\n" defaultConfig (by decide) blanks_fixed).1
  rw [analyze_output _ _ _ .all rfl] at again
  exact absurd again (by decide)

end ParallelLint.TextRules
