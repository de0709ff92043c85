import ParallelLint.Proofs.Analyzer.Fixes

set_option autoImplicit false

/-!
What fixing makes of a text. It goes line by line: a line whose message is fixed loses the blanks
before its end, every other one stays, and no fix is in the way of another.
-/
namespace ParallelLint.TextRules
open Fixing Text

/-- Only the last of the lines of a text can lack its line feed. -/
inductive Lines : List (List Char) → Prop
  | none : Lines []
  | last {line : List Char} (some : line ≠ []) (plain : '\n' ∉ line) : Lines [line]
  | more {line : List Char} {rest : List (List Char)} (plain : '\n' ∉ line) (others : Lines rest) :
      Lines ((line ++ ['\n']) :: rest)

theorem splitLines_plain {line : List Char} (some : line ≠ []) (plain : '\n' ∉ line) :
    splitLines line = [line] := by
  induction line with
  | nil => exact absurd rfl some
  | cons c rest ih =>
    obtain ⟨other, plain⟩ := List.ne_and_not_mem_of_not_mem_cons plain
    rw [splitLines, if_neg (Ne.symm other)]
    cases rest with
    | nil => rfl
    | cons d more => rw [ih (List.cons_ne_nil d more) plain]

theorem splitLines_feed {line : List Char} (plain : '\n' ∉ line) (rest : List Char) :
    splitLines (line ++ '\n' :: rest) = (line ++ ['\n']) :: splitLines rest := by
  induction line with
  | nil => rw [List.nil_append, splitLines, if_pos rfl, List.nil_append]
  | cons c line ih =>
    obtain ⟨other, plain⟩ := List.ne_and_not_mem_of_not_mem_cons plain
    rw [List.cons_append, splitLines, if_neg (Ne.symm other), ih plain, List.cons_append]

theorem splitLines_lines (text : List Char) : Lines (splitLines text) := by
  fun_induction splitLines text with
  | case1 => exact .none
  | case2 rest ih => exact @Lines.more [] _ List.not_mem_nil ih
  | case3 c rest other none ih =>
    exact .last (List.cons_ne_nil c []) (by simpa using Ne.symm other)
  | case4 c rest other line lines found ih =>
    rw [found] at ih
    cases ih with
    | last some plain =>
      exact .last (List.cons_ne_nil c line) (List.not_mem_cons_of_ne_of_not_mem (Ne.symm other) plain)
    | @more line _ plain others =>
      exact @Lines.more (c :: line) _ (List.not_mem_cons_of_ne_of_not_mem (Ne.symm other) plain)
        others

/-- A line without the blanks before its end. -/
def trimmed (raw : List Char) : List Char := content (body raw) ++ raw.drop (body raw).length

theorem dropEndWhile_append (p : Char → Bool) {text dropped : List Char}
    (all : ∀ c ∈ dropped, p c = true) : dropEndWhile p (text ++ dropped) = dropEndWhile p text := by
  induction dropped using List.reverseRecOn with
  | nil => rw [List.append_nil]
  | append_singleton rest c ih =>
    rw [← List.append_assoc, dropEndWhile, List.reverse_append, List.reverse_singleton,
      List.singleton_append, List.dropWhile_cons_of_pos (all c (by simp))]
    exact ih fun d hd => all d (List.mem_append_left _ hd)

theorem dropEndWhile_dropped (p : Char → Bool) (text : List Char) :
    ∃ dropped, text = dropEndWhile p text ++ dropped ∧ ∀ c ∈ dropped, p c = true :=
  ⟨_, (List.rdropWhile_append_rtakeWhile (p := p) (l := text)).symm, fun _ hc =>
    List.mem_rtakeWhile_imp hc⟩

theorem body_feed (line : List Char) : body (line ++ ['\n']) = body line :=
  dropEndWhile_append isLineEnd (by simp [isLineEnd])

theorem line_parts (raw : List Char) :
    ∃ blanks ending, body raw = content (body raw) ++ blanks ∧
      raw = content (body raw) ++ (blanks ++ ending) ∧ trimmed raw = content (body raw) ++ ending ∧
      (∀ c ∈ blanks, isTrailing c = true) ∧ ∀ c ∈ ending, isLineEnd c = true := by
  obtain ⟨ending, whole, ends⟩ := dropEndWhile_dropped isLineEnd raw
  obtain ⟨blanks, parts, blank⟩ := dropEndWhile_dropped isTrailing (body raw)
  have whole : raw = body raw ++ ending := whole
  refine ⟨blanks, ending, parts, ?_, ?_, blank, ends⟩
  · rw [← List.append_assoc]
    conv => lhs; rw [whole, parts]
    rfl
  · have rest : (body raw ++ ending).drop (body raw).length = ending := List.drop_left
    rw [← whole] at rest
    rw [trimmed, rest]

theorem body_trimmed (raw : List Char) : body (trimmed raw) = body (content (body raw)) := by
  obtain ⟨_, ending, -, -, same, -, ends⟩ := line_parts raw
  rw [same]
  exact dropEndWhile_append isLineEnd ends

theorem trimmed_clean {raw : List Char} (clean : content (body raw) = body raw) :
    trimmed raw = raw := by
  obtain ⟨blanks, ending, parts, whole, same, -, -⟩ := line_parts raw
  have none : blanks = [] := by
    rw [clean] at parts
    exact List.self_eq_append_right.1 parts
  calc trimmed raw = content (body raw) ++ ending := same
    _ = content (body raw) ++ (blanks ++ ending) := by rw [none, List.nil_append]
    _ = raw := whole.symm

theorem trimmed_subset (raw : List Char) : trimmed raw ⊆ raw := by
  obtain ⟨blanks, ending, -, whole, same, -, -⟩ := line_parts raw
  rw [same]
  conv => rhs; rw [whole]
  simp

theorem trimmed_feed {line : List Char} : trimmed (line ++ ['\n']) = trimmed line ++ ['\n'] := by
  have short : (body line).length ≤ line.length := by
    obtain ⟨dropped, parts⟩ := dropEndWhile_parts isLineEnd line
    conv => rhs; rw [parts]
    simp [body]
  calc trimmed (line ++ ['\n'])
      = content (body line) ++ (line ++ ['\n']).drop (body line).length := by
        rw [trimmed, body_feed]
    _ = trimmed line ++ ['\n'] := by
        rw [List.drop_append_of_le_length short, ← List.append_assoc, ← trimmed]

/-- A line as a mode fixes it. -/
def fixedLine (on : Enabled) (mode : FixMode) (number start : Nat) (raw : List Char) : List Char :=
  if (on.trailing.bind (trailingMessage number start (body raw))).any mode.allows then trimmed raw
  else raw

def fixedFrom (on : Enabled) (mode : FixMode) (number start : Nat) :
    List (List Char) → List (List Char)
  | [] => []
  | raw :: rest =>
    fixedLine on mode number start raw ::
      fixedFrom on mode (number + 1) (start + byteLength raw) rest

theorem fixable?_plain {mode : FixMode} {m : Message} (plain : m.fix = none) :
    fixable? mode m = none := by
  simp [fixable?, plain]

theorem fixable?_eq_some {mode : FixMode} {m : Message} {f : Fix} (fix : m.fix = some f) :
    fixable? mode m = if mode.allows m then some (m, f) else none := by
  simp [fixable?, fix]

theorem lineMessages_fixable (on : Enabled) (mode : FixMode) (number start : Nat)
    (line : List Char) :
    (lineMessages on number start line).filterMap (fixable? mode) =
      ((on.trailing.bind (trailingMessage number start line)).bind (fixable? mode)).toList := by
  have length : (on.maxLength.bind (lengthMessage number line)).toList.filterMap (fixable? mode) =
      [] := by
    refine List.filterMap_eq_nil_iff.2 fun m hm => fixable?_plain ?_
    obtain ⟨rule, -, found⟩ := Option.bind_eq_some_iff.1 (Option.mem_toList.1 hm)
    exact lengthMessage_fix found
  have tabs : (on.tabs.bind (tabMessage number line)).toList.filterMap (fixable? mode) = [] := by
    refine List.filterMap_eq_nil_iff.2 fun m hm => fixable?_plain ?_
    obtain ⟨severity, -, found⟩ := Option.bind_eq_some_iff.1 (Option.mem_toList.1 hm)
    exact tabMessage_fix found
  rw [lineMessages, List.filterMap_append, List.filterMap_append, length, tabs, List.append_nil,
    List.append_nil]
  cases on.trailing.bind (trailingMessage number start line) with
  | none => rfl
  | some m => cases found : fixable? mode m <;> simp [found]

theorem line_fixes (on : Enabled) (mode : FixMode) (number start : Nat) (raw : List Char) :
    ((lineMessages on number start (body raw)).filterMap (fixable? mode) = [] ∧
      fixedLine on mode number start raw = raw) ∨
    ∃ m kept blanks ending, raw = kept ++ (blanks ++ ending) ∧
      fixedLine on mode number start raw = kept ++ ending ∧
      (lineMessages on number start (body raw)).filterMap (fixable? mode) =
        [(m, ⟨start + byteLength kept, start + byteLength (kept ++ blanks), ""⟩)] := by
  rw [lineMessages_fixable, fixedLine]
  cases found : on.trailing.bind (trailingMessage number start (body raw)) with
  | none => exact .inl ⟨rfl, rfl⟩
  | some m =>
    obtain ⟨rule, -, message⟩ := Option.bind_eq_some_iff.1 found
    obtain ⟨blanks, ending, parts, whole, same, -, -⟩ := line_parts raw
    obtain ⟨-, -, -, fix⟩ := trailingMessage_fix message
    rw [Option.bind_some, fixable?_eq_some fix, Option.any_some]
    by_cases allowed : mode.allows m = true
    · refine .inr ⟨m, content (body raw), blanks, ending, whole, ?_, ?_⟩
      · rw [if_pos allowed, same]
      · rw [if_pos allowed, ← parts, Option.toList_some]
    · rw [if_neg allowed, if_neg allowed]
      exact .inl ⟨rfl, rfl⟩

theorem messagesFrom_fixable (on : Enabled) (mode : FixMode) (number start : Nat)
    (raw : List Char) (rest : List (List Char)) :
    (messagesFrom on number start (raw :: rest)).filterMap (fixable? mode) =
      (lineMessages on number start (body raw)).filterMap (fixable? mode) ++
        (messagesFrom on (number + 1) (start + byteLength raw) rest).filterMap (fixable? mode) :=
  List.filterMap_append

theorem fixable_within {on : Enabled} {mode : FixMode} {number start : Nat}
    {lines : List (List Char)} {f : Fixable}
    (h : f ∈ (messagesFrom on number start lines).filterMap (fixable? mode)) :
    start ≤ f.2.start ∧ f.2.start ≤ f.2.stop := by
  induction lines generalizing number start with
  | nil => exact absurd h List.not_mem_nil
  | cons raw rest ih =>
    rw [messagesFrom_fixable] at h
    rcases List.mem_append.1 h with h | h
    · rcases line_fixes on mode number start raw with ⟨none, -⟩ | ⟨m, kept, blanks, _, -, -, one⟩
      · rw [none] at h
        exact absurd h List.not_mem_nil
      · rw [one] at h
        cases List.mem_singleton.1 h
        simp only [byteLength_append]
        omega
    · have later := ih h
      omega

theorem fixable_sorted (on : Enabled) (mode : FixMode) (number start : Nat)
    (lines : List (List Char)) :
    ((messagesFrom on number start lines).filterMap (fixable? mode)).Pairwise
      fun a b => inOrder a b = true := by
  induction lines generalizing number start with
  | nil => exact .nil
  | cons raw rest ih =>
    rw [messagesFrom_fixable]
    rcases line_fixes on mode number start raw with
      ⟨none, -⟩ | ⟨m, kept, blanks, ending, whole, -, one⟩
    · rw [none]
      exact ih _ _
    · rw [one]
      refine List.pairwise_cons.2 ⟨fun g hg => ?_, ih _ _⟩
      obtain ⟨after, ordered⟩ := fixable_within hg
      have width := congrArg byteLength whole
      simp only [byteLength_append] at width after
      simp only [inOrder, byteLength_append, Bool.or_eq_true, Bool.and_eq_true, decide_eq_true_eq]
      omega

/-- Every fix applies, whatever is pending before the lines. -/
theorem applyFrom_lines {on : Enabled} {mode : FixMode} {length position number start : Nat}
    {pending : List Char} {lines : List (List Char)}
    (here : position + byteLength pending = start)
    (within : start + byteLength lines.flatten ≤ length) :
    applyFrom length position (pending ++ lines.flatten)
        ((messagesFrom on number start lines).filterMap (fixable? mode)) =
      (pending ++ (fixedFrom on mode number start lines).flatten, []) := by
  induction lines generalizing position number start pending with
  | nil => rfl
  | cons raw rest ih =>
    rw [messagesFrom_fixable, fixedFrom, List.flatten_cons, List.flatten_cons]
    rw [List.flatten_cons, byteLength_append] at within
    rcases line_fixes on mode number start raw with
      ⟨none, same⟩ | ⟨m, kept, blanks, ending, whole, fixed, one⟩
    · rw [none, same, List.nil_append, ← List.append_assoc, ih, List.append_assoc]
      · rw [byteLength_append]
        omega
      · omega
    · have width := congrArg byteLength whole
      simp only [byteLength_append] at width
      have before : ¬ (start + byteLength kept < position ∨
          length < start + byteLength (kept ++ blanks)) := by
        rw [byteLength_append]
        omega
      have skip : start + byteLength kept - position = byteLength (pending ++ kept) := by
        rw [byteLength_append]
        omega
      have cut : start + byteLength (kept ++ blanks) - (start + byteLength kept) =
          byteLength blanks := by
        rw [byteLength_append]
        omega
      have text : pending ++ (raw ++ rest.flatten) =
          (pending ++ kept) ++ (blanks ++ (ending ++ rest.flatten)) := by
        conv => lhs; rw [whole]
        simp only [List.append_assoc]
      have later : applyFrom length (start + byteLength (kept ++ blanks)) (ending ++ rest.flatten)
          ((messagesFrom on (number + 1) (start + byteLength raw) rest).filterMap (fixable? mode)) =
          (ending ++ (fixedFrom on mode (number + 1) (start + byteLength raw) rest).flatten, []) :=
        ih (by rw [byteLength_append]; omega) (by omega)
      rw [one, List.singleton_append, applyFrom]
      simp only [Bool.or_eq_true, decide_eq_true_eq, if_neg before, skip, cut]
      rw [text, splitAtByte_append, splitAtByte_append, later, fixed]
      simp only [String.toList_empty, List.append_nil, List.append_assoc]

/-- The text as a mode fixes it, and all the messages that it leaves. -/
theorem run_fixed {mode : FixMode} (requested : mode.isRequested = true) (c : Config)
    (source : String) :
    Fixing.run mode source (messages c source) =
      let output := String.ofList
        (fixedFrom (enabled c) mode 1 0 (splitLines source.toList)).flatten
      (if output = source then none else some output,
        ((messages c source).filter fun m => !mode.allows m).mergeSort earlier) := by
  have sorted := List.mergeSort_of_pairwise
    (fixable_sorted (enabled c) mode 1 0 (splitLines source.toList))
  have applied : applyFrom (byteLength source.toList) 0 ([] ++ (splitLines source.toList).flatten)
      ((messagesFrom (enabled c) 1 0 (splitLines source.toList)).filterMap (fixable? mode)) =
      ([] ++ (fixedFrom (enabled c) mode 1 0 (splitLines source.toList)).flatten, []) :=
    applyFrom_lines rfl (by rw [splitLines_flatten, Nat.zero_add])
  rw [List.nil_append, List.nil_append, splitLines_flatten] at applied
  simp only [Fixing.run, requested, messages, sorted, applied, Bool.not_true, Bool.false_eq_true,
    ite_false, List.append_nil]

end ParallelLint.TextRules
