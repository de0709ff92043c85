import Mathlib.Data.List.DropRight
import ParallelLint.Analyzer.TextRules
import ParallelLint.Proofs.Dispatch.Steady

set_option autoImplicit false

namespace ParallelLint

theorem textRules_quiet : textRules.Quiet := fun _ _ => rfl

theorem textRules_total : textRules.Total := fun _ _ => ⟨_, rfl⟩

theorem FixMode.allows_fix {mode : FixMode} {m : Message} (h : mode.allows m = true) :
    m.fix.isSome = true := by
  cases mode with
  | off => cases h
  | all => exact h
  | only wanted => exact (Bool.and_eq_true_iff.1 h).1

namespace TextRules
open Fixing Text

theorem byteLength_append (a b : List Char) : byteLength (a ++ b) = byteLength a + byteLength b := by
  induction a with
  | nil => simp [byteLength]
  | cons c rest ih => simp only [List.cons_append, byteLength, ih, Nat.add_assoc]

theorem byteLength_pos {a : List Char} (some : a ≠ []) : 0 < byteLength a := by
  cases a with
  | nil => exact absurd rfl some
  | cons c rest =>
    have := c.utf8Size_pos
    simp only [byteLength]
    omega

theorem splitAtByte_parts (n : Nat) (chars : List Char) :
    (splitAtByte n chars).1 ++ (splitAtByte n chars).2 = chars := by
  fun_induction splitAtByte n chars with
  | case1 => rfl
  | case2 => rfl
  | case3 n c rest _ _ ih => exact congrArg (c :: ·) ih

theorem splitAtByte_append (a b : List Char) : splitAtByte (byteLength a) (a ++ b) = (a, b) := by
  induction a with
  | nil => cases b <;> rfl
  | cons c rest ih =>
    have size := c.utf8Size_pos
    have some := byteLength_pos (List.cons_ne_nil c rest)
    obtain ⟨n, hn⟩ := Nat.exists_eq_succ_of_ne_zero (Nat.ne_of_gt some)
    rw [List.cons_append, hn, splitAtByte]
    have left : n.succ - c.utf8Size = byteLength rest := by
      rw [← hn, byteLength]
      omega
    rw [left, ih]
    simp

theorem splitLines_flatten (text : List Char) : (splitLines text).flatten = text := by
  fun_induction splitLines text with
  | case1 => rfl
  | case2 rest ih => rw [List.flatten_cons, ih, List.singleton_append]
  | case3 c rest other none ih =>
    rw [none] at ih
    rw [← ih]
    rfl
  | case4 c rest other line lines found ih =>
    rw [found] at ih
    rw [← ih]
    rfl

theorem dropEndWhile_parts (p : Char → Bool) (text : List Char) :
    ∃ dropped, text = dropEndWhile p text ++ dropped :=
  ⟨_, (List.rdropWhile_append_rtakeWhile (p := p) (l := text)).symm⟩

theorem mem_messagesFrom {on : Enabled} {number start : Nat} {lines : List (List Char)}
    {m : Message} (h : m ∈ messagesFrom on number start lines) :
    ∃ before raw after, lines = before ++ raw :: after ∧
      m ∈ lineMessages on (number + before.length) (start + byteLength before.flatten) (body raw) := by
  induction lines generalizing number start with
  | nil => simp [messagesFrom] at h
  | cons raw rest ih =>
    rcases List.mem_append.1 h with h | h
    · exact ⟨[], raw, rest, rfl, h⟩
    · obtain ⟨before, line, after, rfl, mem⟩ := ih h
      refine ⟨raw :: before, line, after, rfl, ?_⟩
      have count : number + (before.length + 1) = number + 1 + before.length := by omega
      rwa [List.flatten_cons, byteLength_append, List.length_cons, count, ← Nat.add_assoc]

theorem mem_lineMessages {on : Enabled} {number start : Nat} {line : List Char} {m : Message} :
    m ∈ lineMessages on number start line ↔
      (∃ rule, on.trailing = some rule ∧ trailingMessage number start line rule = some m) ∨
      (∃ rule, on.maxLength = some rule ∧ lengthMessage number line rule = some m) ∨
      (∃ severity, on.tabs = some severity ∧ tabMessage number line severity = some m) := by
  simp only [lineMessages, List.mem_append, Option.mem_toList, Option.bind_eq_some_iff, or_assoc]

/-- The fix takes away some text at its place. -/
def Cuts (source : List Char) (f : Fix) : Prop :=
  ∃ before cut after, source = before ++ (cut ++ after) ∧ cut ≠ [] ∧
    f = ⟨byteLength before, byteLength (before ++ cut), ""⟩

theorem trailingMessage_fix {number start : Nat} {line : List Char} {rule : String × Severity}
    {m : Message} (h : trailingMessage number start line rule = some m) :
    ∃ dropped, line = content line ++ dropped ∧ dropped ≠ [] ∧
      m.fix = some ⟨start + byteLength (content line), start + byteLength line, ""⟩ := by
  unfold trailingMessage at h
  simp only at h
  split at h
  · rename_i less
    cases h
    obtain ⟨dropped, parts⟩ := dropEndWhile_parts isTrailing line
    refine ⟨dropped, parts, ?_, rfl⟩
    rintro rfl
    rw [List.append_nil] at parts
    rw [content, ← parts] at less
    exact absurd less (Nat.lt_irrefl _)
  · cases h

theorem lengthMessage_fix {number : Nat} {line : List Char} {rule : Severity × Nat} {m : Message}
    (h : lengthMessage number line rule = some m) : m.fix = none := by
  unfold lengthMessage at h
  split at h <;> cases h
  rfl

theorem tabMessage_fix {number : Nat} {line : List Char} {severity : Severity} {m : Message}
    (h : tabMessage number line severity = some m) : m.fix = none := by
  obtain ⟨column, -, rfl⟩ := Option.map_eq_some_iff.1 h
  rfl

theorem fix_cuts {c : Config} {source : String} {m : Message} (h : m ∈ messages c source) {f : Fix}
    (hf : m.fix = some f) : Cuts source.toList f := by
  obtain ⟨before, raw, after, lines, mem⟩ := mem_messagesFrom h
  rcases mem_lineMessages.1 mem with ⟨rule, -, found⟩ | ⟨rule, -, found⟩ | ⟨severity, -, found⟩
  · obtain ⟨cut, parts, some, fix⟩ := trailingMessage_fix found
    obtain ⟨ending, whole⟩ := dropEndWhile_parts isLineEnd raw
    have whole : raw = content (body raw) ++ (cut ++ ending) := by
      rw [← List.append_assoc, ← parts]
      exact whole
    refine ⟨before.flatten ++ content (body raw), cut, ending ++ after.flatten, ?_, some, ?_⟩
    · rw [← splitLines_flatten source.toList, lines, List.flatten_append, List.flatten_cons]
      conv => lhs; rw [whole]
      simp only [List.append_assoc]
    · rw [fix, Option.some.injEq] at hf
      rw [← hf, List.append_assoc, ← parts]
      simp only [byteLength_append, Nat.zero_add]
  · simp [lengthMessage_fix found] at hf
  · simp [tabMessage_fix found] at hf

theorem splitAtByte_length (n : Nat) (chars : List Char) :
    (splitAtByte n chars).1.length + (splitAtByte n chars).2.length = chars.length := by
  rw [← List.length_append, splitAtByte_parts]

theorem applyFrom_length (length position : Nat) (rest : List Char) (fixes : List Fixable)
    (empty : ∀ f ∈ fixes, f.2.text = "") :
    (applyFrom length position rest fixes).1.length ≤ rest.length := by
  induction fixes generalizing position rest with
  | nil => exact Nat.le_refl _
  | cons f more ih =>
    have empty' : ∀ g ∈ more, g.2.text = "" := fun g hg => empty g (List.mem_cons_of_mem _ hg)
    rw [applyFrom]
    split
    · exact ih position rest empty'
    · have text := empty f (List.mem_cons_self ..)
      have kept := splitAtByte_length (f.2.start - position) rest
      have replaced := splitAtByte_length (f.2.stop - f.2.start)
        (splitAtByte (f.2.start - position) rest).2
      have shorter := ih f.2.stop (splitAtByte (f.2.stop - f.2.start)
        (splitAtByte (f.2.start - position) rest).2).2 empty'
      simp only [text, String.toList_empty, List.append_nil, List.length_append]
      omega

theorem applyFrom_shorter {source : List Char} {fixes : List Fixable} (some : fixes ≠ [])
    (cuts : ∀ f ∈ fixes, Cuts source f.2) :
    (applyFrom (byteLength source) 0 source fixes).1.length < source.length := by
  cases fixes with
  | nil => exact absurd rfl some
  | cons f more =>
    have empty : ∀ g ∈ more, g.2.text = "" := by
      intro g hg
      obtain ⟨_, _, _, -, -, fix⟩ := cuts g (List.mem_cons_of_mem _ hg)
      rw [fix]
    obtain ⟨m, fix⟩ := f
    obtain ⟨before, cut, after, rfl, taken, fix⟩ := cuts _ (List.mem_cons_self ..)
    simp only at fix
    subst fix
    have inside : ¬ byteLength (before ++ (cut ++ after)) < byteLength (before ++ cut) := by
      simp only [byteLength_append]
      omega
    have width : byteLength (before ++ cut) - byteLength before = byteLength cut := by
      simp only [byteLength_append]
      omega
    have shorter := applyFrom_length (byteLength (before ++ (cut ++ after)))
      (byteLength (before ++ cut)) after more empty
    have positive := List.length_pos_iff.2 taken
    rw [applyFrom]
    simp only [Nat.not_lt_zero, inside, decide_false, Bool.or_self, Bool.false_eq_true, ite_false,
      Nat.sub_zero, splitAtByte_append, width, String.toList_empty, List.append_nil,
      List.length_append] at shorter ⊢
    omega

theorem lineMessages_line {on : Enabled} {number start : Nat} {line : List Char} {m : Message}
    (h : m ∈ lineMessages on number start line) : m.line = number := by
  rcases mem_lineMessages.1 h with ⟨rule, -, found⟩ | ⟨rule, -, found⟩ | ⟨severity, -, found⟩
  · unfold trailingMessage at found
    simp only at found
    split at found <;> cases found
    rfl
  · unfold lengthMessage at found
    split at found <;> cases found
    rfl
  · obtain ⟨column, -, rfl⟩ := Option.map_eq_some_iff.1 found
    rfl

theorem messagesFrom_line {on : Enabled} {number start : Nat} {lines : List (List Char)}
    {m : Message} (h : m ∈ messagesFrom on number start lines) : number ≤ m.line := by
  obtain ⟨before, raw, after, -, mem⟩ := mem_messagesFrom h
  rw [lineMessages_line mem]
  omega

theorem lineMessages_sorted {on : Enabled} {number start : Nat} {line : List Char}
    (plain : ∀ m ∈ lineMessages on number start line, m.fix = none) :
    (lineMessages on number start line).Pairwise fun a b => earlier a b = true := by
  have none : on.trailing.bind (trailingMessage number start line) = none := by
    cases found : on.trailing.bind (trailingMessage number start line) with
    | none => rfl
    | some m =>
      obtain ⟨rule, enabled, found⟩ := Option.bind_eq_some_iff.1 found
      obtain ⟨_, -, -, fix⟩ := trailingMessage_fix found
      simp [plain m (mem_lineMessages.2 (.inl ⟨rule, enabled, found⟩))] at fix
  rw [lineMessages, none, Option.toList_none, List.nil_append]
  cases first : on.maxLength.bind (lengthMessage number line) with
  | none => cases on.tabs.bind (tabMessage number line) <;> simp
  | some a =>
    cases second : on.tabs.bind (tabMessage number line) with
    | none => simp
    | some b =>
      obtain ⟨_, -, found⟩ := Option.bind_eq_some_iff.1 first
      obtain ⟨_, -, found'⟩ := Option.bind_eq_some_iff.1 second
      obtain ⟨column, -, rfl⟩ := Option.map_eq_some_iff.1 found'
      unfold lengthMessage at found
      split at found <;> cases found
      simp [earlier, Message.ofRule]

/-- What is about a line comes before what is about the lines below. -/
theorem earlier_below {on : Enabled} {number start start' : Nat} {line : List Char}
    {lines : List (List Char)} {a b : Message} (ha : a ∈ lineMessages on number start line)
    (hb : b ∈ messagesFrom on (number + 1) start' lines) : earlier a b = true := by
  have here := lineMessages_line ha
  have below := messagesFrom_line hb
  simp only [earlier, Bool.or_eq_true, decide_eq_true_eq]
  omega

theorem messagesFrom_sorted {on : Enabled} {number start : Nat} {lines : List (List Char)}
    (plain : ∀ m ∈ messagesFrom on number start lines, m.fix = none) :
    (messagesFrom on number start lines).Pairwise fun a b => earlier a b = true := by
  induction lines generalizing number start with
  | nil => exact .nil
  | cons raw rest ih =>
    rw [messagesFrom] at plain ⊢
    refine List.pairwise_append.2 ⟨?_, ?_, ?_⟩
    · exact lineMessages_sorted fun m hm => plain m (List.mem_append_left _ hm)
    · exact ih fun m hm => plain m (List.mem_append_right _ hm)
    · exact fun a ha b hb => earlier_below ha hb

theorem analyze_plain {path : Path} {source : String} {c : Config}
    (plain : ∀ m ∈ messages c source, m.fix = none) :
    analyze path source c .all = analyze path source c .off := by
  have none : (messages c source).filterMap (fixable? .all) = [] :=
    List.filterMap_eq_nil_iff.2 fun m hm => by simp [fixable?, FixMode.allows, plain m hm]
  have all : (messages c source).filter (fun m => !FixMode.all.allows m) = messages c source :=
    List.filter_eq_self.2 fun m hm => by simp [FixMode.allows, plain m hm]
  have sorted : (messages c source).mergeSort earlier = messages c source :=
    List.mergeSort_of_pairwise (messagesFrom_sorted plain)
  simp only [analyze, Fixing.run, FixMode.isRequested, none, all, List.mergeSort_nil, applyFrom,
    String.ofList_toList, List.append_nil, sorted, Bool.not_true, Bool.not_false,
    Bool.false_eq_true, ite_false, ite_true]

theorem fixes_none {path : Path} {source : String} {c : Config} {fix : FixMode}
    (requested : fix.isRequested = true) (unfixed : (analyze path source c fix).output = none) :
    (messages c source).filterMap (fixable? fix) = [] := by
  by_contra more
  let fixes := ((messages c source).filterMap (fixable? fix)).mergeSort inOrder
  have some : fixes ≠ [] := by
    intro none
    exact more (List.length_eq_zero_iff.1 ((List.length_mergeSort _).symm.trans
      (List.length_eq_zero_iff.2 none)))
  have cuts : ∀ g ∈ fixes, Cuts source.toList g.2 := by
    intro g hg
    obtain ⟨m', hm', found⟩ := List.mem_filterMap.1 (List.mem_mergeSort.1 hg)
    unfold fixable? at found
    split at found
    · obtain ⟨f', fix', rfl⟩ := Option.map_eq_some_iff.1 found
      exact fix_cuts hm' fix'
    · cases found
  have shorter := applyFrom_shorter some cuts
  have other : String.ofList (applyFrom (byteLength source.toList) 0 source.toList fixes).1 ≠
      source := by
    intro same
    have chars := congrArg String.toList same
    rw [String.toList_ofList] at chars
    rw [chars] at shorter
    exact absurd shorter (Nat.lt_irrefl _)
  simp only [analyze, Fixing.run, requested, Bool.not_true, Bool.false_eq_true,
    ite_false] at unfixed
  rw [if_neg other] at unfixed
  cases unfixed

theorem fixable_none {mode : FixMode} {m : Message} (h : fixable? mode m = none) :
    mode.allows m = false := by
  unfold fixable? at h
  split at h
  · rename_i allowed
    have fix := FixMode.allows_fix allowed
    rw [Option.map_eq_none_iff] at h
    rw [h] at fix
    cases fix
  · rename_i refused
    simpa using refused

theorem analyze_remains {path : Path} {source : String} {c : Config} {fix : FixMode}
    (unfixed : (analyze path source c fix).output = none) :
    ∃ found, found.Perm (messages c source) ∧
      analyze path source c fix = LintResult.ofMessages path found := by
  refine ⟨(Fixing.run fix source (messages c source)).2, ?_, ?_⟩
  · cases requested : fix.isRequested with
    | false =>
      simp only [Fixing.run, requested, Bool.not_false, ite_true]
      exact .refl _
    | true =>
      have none := fixes_none requested unfixed
      have all : (messages c source).filter (fun m => !fix.allows m) = messages c source :=
        List.filter_eq_self.2 fun m hm => by
          simp [fixable_none (List.filterMap_eq_nil_iff.1 none m hm)]
      simp only [Fixing.run, requested, none, all, List.mergeSort_nil, applyFrom,
        List.append_nil, Bool.not_true, Bool.false_eq_true, ite_false]
      exact List.mergeSort_perm _ _
  · change (Fixing.run fix source (messages c source)).1 = none at unfixed
    simp only [analyze, unfixed]
    rfl

theorem analyze_unfixed {path : Path} {source : String} {c : Config}
    (unfixed : (analyze path source c .all).output = none) :
    analyze path source c .all = analyze path source c .off := by
  have none := fixes_none rfl unfixed
  refine analyze_plain fun m hm => ?_
  have refused : m.fix.isSome = false :=
    fixable_none (List.filterMap_eq_nil_iff.1 none m hm)
  simpa using refused

theorem analyze_off {path : Path} {source : String} {c : Config} :
    analyze path source c .off = LintResult.ofMessages path (messages c source) := rfl

theorem analyze_enabled {c c' : Config} (same : enabled c = enabled c') (path : Path)
    (source : String) (fix : FixMode) : analyze path source c fix = analyze path source c' fix := by
  rw [analyze, analyze, messages, messages, same]

end TextRules
end ParallelLint
