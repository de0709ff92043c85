import ParallelLint.Proofs.Analyzer.Lines

set_option autoImplicit false

/-!
What is reported next to a fixed text. The messages that remain are those of the text before it was
fixed, and so they are the ones that the fixed text deserves only where no line has lost what they
are about.
-/
namespace ParallelLint.TextRules
open Fixing Text

/-- Without the one rule whose messages can be fixed. -/
def Enabled.unfixable (on : Enabled) : Enabled := { on with trailing := none }

/-- About the length of a line or about a tab. -/
def unfixable (m : Message) : Bool := m.ruleId = some maxLineLength || m.ruleId = some noTabs

theorem lineMessages_unfixable (on : Enabled) (number start : Nat) (line : List Char) :
    lineMessages on.unfixable number start line =
      (on.maxLength.bind (lengthMessage number line)).toList ++
        (on.tabs.bind (tabMessage number line)).toList := rfl

theorem lineMessages_parts (on : Enabled) (number start : Nat) (line : List Char) :
    lineMessages on number start line =
      (on.trailing.bind (trailingMessage number start line)).toList ++
        lineMessages on.unfixable number start line :=
  List.append_assoc ..

theorem lengthMessage_rule {number : Nat} {line : List Char} {rule : Severity × Nat} {m : Message}
    (h : lengthMessage number line rule = some m) : m.ruleId = some maxLineLength := by
  unfold lengthMessage at h
  split at h <;> cases h
  rfl

theorem tabMessage_rule {number : Nat} {line : List Char} {severity : Severity} {m : Message}
    (h : tabMessage number line severity = some m) : m.ruleId = some noTabs := by
  obtain ⟨column, -, rfl⟩ := Option.map_eq_some_iff.1 h
  rfl

theorem trailingMessage_rule {number start : Nat} {line : List Char} {rule : String × Severity}
    {m : Message} (h : trailingMessage number start line rule = some m) :
    m.ruleId = some rule.1 := by
  unfold trailingMessage at h
  simp only at h
  split at h <;> cases h
  rfl

theorem mem_unfixable {on : Enabled} {number start : Nat} {line : List Char} {m : Message}
    (h : m ∈ lineMessages on.unfixable number start line) :
    m.fix = none ∧ unfixable m = true := by
  rcases mem_lineMessages.1 h with ⟨rule, none, -⟩ | ⟨rule, -, found⟩ | ⟨severity, -, found⟩
  · cases none
  · exact ⟨lengthMessage_fix found, by simp [unfixable, lengthMessage_rule found]⟩
  · exact ⟨tabMessage_fix found, by simp [unfixable, tabMessage_rule found]⟩

theorem messagesFrom_filter {on : Enabled} {p : Message → Bool}
    (dropped : ∀ number start line m,
      on.trailing.bind (trailingMessage number start line) = some m → p m = false)
    (kept : ∀ m, m.fix = none → unfixable m = true → p m = true) (number start : Nat)
    (lines : List (List Char)) :
    (messagesFrom on number start lines).filter p =
      messagesFrom on.unfixable number start lines := by
  induction lines generalizing number start with
  | nil => rfl
  | cons raw rest ih =>
    have first : (on.trailing.bind (trailingMessage number start (body raw))).toList.filter p =
        [] := by
      refine List.filter_eq_nil_iff.2 fun m hm => ?_
      simp [dropped _ _ _ m (Option.mem_toList.1 hm)]
    have others : (lineMessages on.unfixable number start (body raw)).filter p =
        lineMessages on.unfixable number start (body raw) :=
      List.filter_eq_self.2 fun m hm => kept m (mem_unfixable hm).1 (mem_unfixable hm).2
    have line : (lineMessages on number start (body raw)).filter p =
        lineMessages on.unfixable number start (body raw) := by
      rw [lineMessages_parts, List.filter_append, first, others, List.nil_append]
    rw [messagesFrom, messagesFrom, List.filter_append, line, ih]

theorem trailingMessage_allowed {on : Enabled} {number start : Nat} {line : List Char} {m : Message}
    (h : on.trailing.bind (trailingMessage number start line) = some m) :
    FixMode.all.allows m = true := by
  obtain ⟨rule, -, found⟩ := Option.bind_eq_some_iff.1 h
  obtain ⟨-, -, -, fix⟩ := trailingMessage_fix found
  simp [FixMode.allows, fix]

theorem enabled_trailing {c : Config} {rule : String × Severity}
    (h : (enabled c).trailing = some rule) :
    rule.1 = noTrailingSpaces ∨ rule.1 = noTrailingWhitespace := by
  unfold enabled at h
  simp only at h
  split at h
  · cases h
    exact .inl rfl
  · obtain ⟨e, -, rfl⟩ := Option.map_eq_some_iff.1 h
    exact .inr rfl

theorem append_same {α : Type} {p : α → Bool} {a b a' b' : List α} (ha : ∀ x ∈ a, p x = true)
    (hb : ∀ x ∈ b, p x = false) (ha' : ∀ x ∈ a', p x = true) (hb' : ∀ x ∈ b', p x = false) :
    a ++ b = a' ++ b' ↔ a = a' ∧ b = b' := by
  have front : ∀ {c d : List α}, (∀ x ∈ c, p x = true) → (∀ x ∈ d, p x = false) →
      (c ++ d).filter p = c := by
    intro c d hc hd
    rw [List.filter_append, List.filter_eq_self.2 hc,
      List.filter_eq_nil_iff.2 fun x hx => by simp [hd x hx], List.append_nil]
  constructor
  · intro same
    have fronts := congrArg (List.filter p) same
    rw [front ha hb, front ha' hb'] at fronts
    exact ⟨fronts, List.append_cancel_left (fronts ▸ same)⟩
  · rintro ⟨rfl, rfl⟩
    rfl

theorem toList_same {α : Type} {a b : Option α} : a.toList = b.toList ↔ a = b := by
  cases a <;> cases b <;> simp

theorem toString_inj {m n : Nat} (h : toString m = toString n) : m = n := by
  have digits : Nat.toDigits 10 m = Nat.toDigits 10 n := by
    have chars := congrArg String.toList h
    simpa [toString, Nat.repr] using chars
  have value := congrArg (Nat.ofDigitChars 10 · 0) digits
  simpa [Nat.ofDigitChars_ten_toDigits] using value

theorem lengthMessage_same {number : Nat} {line line' : List Char} {rule : Severity × Nat}
    (shorter : line'.length ≤ line.length) :
    lengthMessage number line rule = lengthMessage number line' rule ↔
      line.length ≤ rule.2 ∨ line'.length = line.length := by
  unfold lengthMessage
  constructor
  · intro same
    by_cases long : rule.2 < line.length
    · rw [if_pos long] at same
      by_cases long' : rule.2 < line'.length
      · rw [if_pos long'] at same
        have text := congrArg (Option.map Message.text) same
        simp only [Message.ofRule, Option.map_some, Option.some.injEq] at text
        have chars := congrArg String.toList text
        simp only [String.toList_append, List.append_cancel_left_eq,
          List.append_cancel_right_eq] at chars
        exact .inr (toString_inj (String.toList_injective chars)).symm
      · rw [if_neg long'] at same
        cases same
    · exact .inl (Nat.le_of_not_lt long)
  · rintro (short | same)
    · rw [if_neg (Nat.not_lt.2 short), if_neg (Nat.not_lt.2 (Nat.le_trans shorter short))]
    · rw [same]

theorem tab_found {line : List Char} (tab : '\t' ∈ line) :
    ∃ before, line.findIdx? (· = '\t') = some before := by
  refine Option.isSome_iff_exists.1 ?_
  rw [List.findIdx?_isSome]
  exact List.any_eq_true.2 ⟨_, tab, decide_eq_true rfl⟩

theorem tab_missed {line : List Char} (free : '\t' ∉ line) :
    line.findIdx? (· = '\t') = none := by
  refine List.findIdx?_eq_none_iff.2 fun c hc => ?_
  simpa using ne_of_mem_of_not_mem hc free

theorem tabMessage_same {number : Nat} {kept dropped : List Char} {severity : Severity} :
    tabMessage number (kept ++ dropped) severity = tabMessage number kept severity ↔
      ('\t' ∈ kept ++ dropped → '\t' ∈ kept) := by
  by_cases tab : '\t' ∈ kept
  · refine iff_of_true ?_ fun _ => tab
    obtain ⟨column, found⟩ := tab_found tab
    rw [tabMessage, tabMessage, List.findIdx?_append, found, Option.some_or]
  · have none : tabMessage number kept severity = none := by
      rw [tabMessage, tab_missed tab, Option.map_none]
    rw [none, tabMessage, Option.map_eq_none_iff, List.findIdx?_eq_none_iff]
    constructor
    · intro free found
      simpa using free _ found
    · rintro only c hc
      simpa using ne_of_mem_of_not_mem hc fun found => tab (only found)

/-- A line that trimming takes nothing from that is reported about it. -/
def Faithful (on : Enabled) (raw : List Char) : Prop :=
  (∀ rule, on.maxLength = some rule →
    (body raw).length ≤ rule.2 ∨ content (body raw) = body raw) ∧
  (∀ severity, on.tabs = some severity → '\t' ∈ body raw → '\t' ∈ content (body raw))

theorem body_trimmed_parts (raw : List Char) :
    ∃ dropped, body raw = body (trimmed raw) ++ dropped ∧
      ((body (trimmed raw)).length = (body raw).length ↔ content (body raw) = body raw) ∧
      ('\t' ∈ body (trimmed raw) ↔ '\t' ∈ content (body raw)) := by
  obtain ⟨blanks, ending, parts, -, -, -, -⟩ := line_parts raw
  obtain ⟨returns, more, ends⟩ := dropEndWhile_dropped isLineEnd (content (body raw))
  have more : content (body raw) = body (trimmed raw) ++ returns := by rwa [body_trimmed]
  refine ⟨returns ++ blanks, ?_, ⟨fun same => ?_, fun clean => ?_⟩, ?_⟩
  · rw [← List.append_assoc, ← more, ← parts]
  · have width := congrArg List.length parts
    have width' := congrArg List.length more
    rw [List.length_append] at width width'
    have none : blanks = [] := List.length_eq_zero_iff.1 (by omega)
    rwa [none, List.append_nil, eq_comm] at parts
  · rw [trimmed_clean clean]
  · rw [more, List.mem_append]
    refine ⟨.inl, fun found => found.resolve_right fun tab => ?_⟩
    cases ends _ tab

theorem lineMessages_same (on : Enabled) (number start start' : Nat) (raw : List Char) :
    lineMessages on.unfixable number start (body raw) =
        lineMessages on.unfixable number start' (body (trimmed raw)) ↔ Faithful on raw := by
  obtain ⟨dropped, parts, clean, tab⟩ := body_trimmed_parts raw
  have shorter : (body (trimmed raw)).length ≤ (body raw).length := by
    rw [parts, List.length_append]
    exact Nat.le_add_right _ _
  have length : on.maxLength.bind (lengthMessage number (body raw)) =
      on.maxLength.bind (lengthMessage number (body (trimmed raw))) ↔
      ∀ rule, on.maxLength = some rule →
        (body raw).length ≤ rule.2 ∨ content (body raw) = body raw := by
    cases on.maxLength with
    | none => simp
    | some rule => simp [lengthMessage_same shorter, clean]
  have tabs : on.tabs.bind (tabMessage number (body raw)) =
      on.tabs.bind (tabMessage number (body (trimmed raw))) ↔
      ∀ severity, on.tabs = some severity → '\t' ∈ body raw → '\t' ∈ content (body raw) := by
    cases on.tabs with
    | none => simp
    | some severity =>
      simp only [Option.bind_some, Option.some.injEq, forall_eq', ← tab]
      rw [parts]
      exact tabMessage_same
  have aboutLength : ∀ line, ∀ m ∈ (on.maxLength.bind (lengthMessage number line)).toList,
      decide (m.ruleId = some maxLineLength) = true := by
    intro line m hm
    obtain ⟨rule, -, found⟩ := Option.bind_eq_some_iff.1 (Option.mem_toList.1 hm)
    exact decide_eq_true (lengthMessage_rule found)
  have aboutTabs : ∀ line, ∀ m ∈ (on.tabs.bind (tabMessage number line)).toList,
      decide (m.ruleId = some maxLineLength) = false := by
    intro line m hm
    obtain ⟨severity, -, found⟩ := Option.bind_eq_some_iff.1 (Option.mem_toList.1 hm)
    rw [tabMessage_rule found]
    decide
  rw [Faithful, ← length, ← tabs, lineMessages_unfixable, lineMessages_unfixable,
    append_same (aboutLength _) (aboutTabs _) (aboutLength _) (aboutTabs _), toList_same,
    toList_same]

theorem messagesFrom_same (on : Enabled) (number start start' : Nat) (lines : List (List Char)) :
    messagesFrom on.unfixable number start lines =
        messagesFrom on.unfixable number start' (lines.map trimmed) ↔
      ∀ raw ∈ lines, Faithful on raw := by
  induction lines generalizing number start start' with
  | nil => simp [messagesFrom]
  | cons raw rest ih =>
    have here : ∀ start line, ∀ m ∈ lineMessages on.unfixable number start line,
        decide (m.line = number) = true :=
      fun start line m hm => decide_eq_true (lineMessages_line hm)
    have below : ∀ start lines, ∀ m ∈ messagesFrom on.unfixable (number + 1) start lines,
        decide (m.line = number) = false := by
      intro start lines m hm
      have := messagesFrom_line hm
      exact decide_eq_false (by omega)
    rw [List.map_cons, messagesFrom, messagesFrom, append_same (here _ _) (below _ _) (here _ _)
      (below _ _), lineMessages_same, ih, List.forall_mem_cons]

theorem messagesFrom_trimmed {lines : List (List Char)} (cut : Lines lines) (on : Enabled)
    (number start : Nat) :
    messagesFrom on number start (splitLines (lines.map trimmed).flatten) =
      messagesFrom on number start (lines.map trimmed) := by
  induction cut generalizing number start with
  | none => rfl
  | @last line some plain =>
    rw [List.map_singleton, List.flatten_singleton]
    by_cases empty : trimmed line = []
    · rw [empty]
      rcases on with ⟨_ | _, _ | _, _ | _⟩ <;> rfl
    · rw [splitLines_plain empty fun feed => plain (trimmed_subset line feed)]
  | @more line rest plain others ih =>
    have plain' : '\n' ∉ trimmed line := fun feed => plain (trimmed_subset line feed)
    have lines : splitLines (((line ++ ['\n']) :: rest).map trimmed).flatten =
        trimmed (line ++ ['\n']) :: splitLines (rest.map trimmed).flatten := by
      rw [List.map_cons, List.flatten_cons, trimmed_feed, List.append_assoc, List.singleton_append,
        splitLines_feed plain']
    rw [lines, List.map_cons, messagesFrom, messagesFrom, ih]

theorem trailing_none {on : Enabled} {number start : Nat} {line : List Char} :
    on.trailing.bind (trailingMessage number start line) = none ↔
      (on.trailing.isSome = true → content line = line) := by
  cases on.trailing with
  | none => simp
  | some rule =>
    obtain ⟨blanks, parts⟩ := dropEndWhile_parts isTrailing line
    have parts : line = content line ++ blanks := parts
    have width := congrArg List.length parts
    rw [List.length_append] at width
    simp only [Option.bind_some, Option.isSome_some, forall_const, trailingMessage,
      ite_eq_right_iff, reduceCtorEq, imp_false]
    constructor
    · intro all
      have none : blanks = [] := List.length_eq_zero_iff.1 (by omega)
      rwa [none, List.append_nil, eq_comm] at parts
    · intro clean
      rw [clean]
      exact Nat.lt_irrefl _

theorem fixedLine_all {on : Enabled} (rule : on.trailing.isSome) (number start : Nat)
    (raw : List Char) : fixedLine on .all number start raw = trimmed raw := by
  rw [fixedLine]
  cases found : on.trailing.bind (trailingMessage number start (body raw)) with
  | some m => rw [Option.any_some, trailingMessage_allowed found, if_pos rfl]
  | none =>
    rw [trimmed_clean (trailing_none.1 found rule), Option.any_none, if_neg Bool.false_ne_true]

theorem fixedFrom_all {on : Enabled} (rule : on.trailing.isSome) (number start : Nat)
    (lines : List (List Char)) : fixedFrom on .all number start lines = lines.map trimmed := by
  induction lines generalizing number start with
  | nil => rfl
  | cons raw rest ih => rw [fixedFrom, fixedLine_all rule, ih, List.map_cons]

theorem fixedFrom_none {on : Enabled} (none : on.trailing = none) (mode : FixMode)
    (number start : Nat) (lines : List (List Char)) :
    fixedFrom on mode number start lines = lines := by
  induction lines generalizing number start with
  | nil => rfl
  | cons raw rest ih =>
    rw [fixedFrom, ih, fixedLine, none, Option.bind_none, Option.any_none,
      if_neg Bool.false_ne_true]

theorem analyze_output (path : Path) (source : String) (c : Config) (mode : FixMode)
    (requested : mode.isRequested = true) :
    (analyze path source c mode).output =
      let output := String.ofList (fixedFrom (enabled c) mode 1 0 (splitLines source.toList)).flatten
      if output = source then none else some output :=
  congrArg Prod.fst (run_fixed requested c source)

theorem analyze_trimmed {path : Path} {source output : String} {c : Config}
    (fixed : (analyze path source c .all).output = some output) :
    output.toList = ((splitLines source.toList).map trimmed).flatten := by
  rw [analyze_output path source c .all rfl] at fixed
  simp only at fixed
  split at fixed
  · cases fixed
  · rename_i other
    rw [← Option.some.inj fixed, String.toList_ofList]
    cases rule : (enabled c).trailing with
    | some _ => rw [fixedFrom_all (by rw [rule]; rfl)]
    | none =>
      rw [fixedFrom_none rule, splitLines_flatten, String.ofList_toList] at other
      exact absurd rfl other

theorem filter_allowed (on : Enabled) (number start : Nat) (lines : List (List Char)) :
    (messagesFrom on number start lines).filter (fun m => !FixMode.all.allows m) =
      messagesFrom on.unfixable number start lines :=
  messagesFrom_filter (fun _ _ _ m found => by rw [trailingMessage_allowed found]; rfl)
    (fun m plain _ => by simp [FixMode.allows, plain]) number start lines

theorem filter_unfixable (c : Config) (source : String) :
    (messages c source).filter unfixable =
      messagesFrom (enabled c).unfixable 1 0 (splitLines source.toList) := by
  refine messagesFrom_filter (fun number start line m found => ?_) (fun m _ about => about) 1 0 _
  obtain ⟨rule, on, found⟩ := Option.bind_eq_some_iff.1 found
  rw [unfixable, trailingMessage_rule found]
  rcases enabled_trailing on with name | name <;> rw [name] <;> decide

theorem messagesFrom_unfixable {on : Enabled} {number start : Nat} {lines : List (List Char)}
    {m : Message} (h : m ∈ messagesFrom on.unfixable number start lines) :
    m.fix = none ∧ unfixable m = true := by
  obtain ⟨_, _, _, -, mem⟩ := mem_messagesFrom h
  exact mem_unfixable mem

theorem analyze_messages (path : Path) (source : String) (c : Config) :
    (analyze path source c .all).messages =
      messagesFrom (enabled c).unfixable 1 0 (splitLines source.toList) := by
  have remain : (analyze path source c .all).messages =
    (Fixing.run .all source (messages c source)).2 := rfl
  rw [remain, run_fixed rfl, messages]
  simp only [filter_allowed]
  exact List.mergeSort_of_pairwise
    (messagesFrom_sorted fun m hm => (messagesFrom_unfixable hm).1)

/-- What remains next to a fixed text is what was found in the text before, and is what is found in
the fixed one just when trimming is faithful to every line. -/
theorem analyze_remaining {path : Path} {source output : String} {c : Config}
    (fixed : (analyze path source c .all).output = some output) :
    let remaining := (analyze path source c .all).messages.filter unfixable
    remaining = (analyze path source c .off).messages.filter unfixable ∧
      output.toList = ((splitLines source.toList).map trimmed).flatten ∧
      (remaining = (analyze path output c .off).messages.filter unfixable ↔
        ∀ raw ∈ splitLines source.toList, Faithful (enabled c) raw) := by
  intro remaining
  have off : ∀ text, (analyze path text c .off).messages.filter unfixable =
      messagesFrom (enabled c).unfixable 1 0 (splitLines text.toList) :=
    fun text => filter_unfixable c text
  have same : remaining = messagesFrom (enabled c).unfixable 1 0 (splitLines source.toList) := by
    simp only [remaining, analyze_messages]
    exact List.filter_eq_self.2 fun m hm => (messagesFrom_unfixable hm).2
  have output := analyze_trimmed fixed
  refine ⟨by rw [same, off], output, ?_⟩
  rw [same, off, output, messagesFrom_trimmed (splitLines_lines source.toList)]
  exact messagesFrom_same (enabled c) 1 0 0 _

theorem tab_fixed :
    (analyze ⟨"f"⟩ "a\t\n" (defaultConfig.withRule noTabs (.plain .error)) .all).output =
      some "a\n" := by
  rw [analyze_output _ _ _ .all rfl]
  decide

theorem analyze_remaining_tab :
    let c := defaultConfig.withRule noTabs (.plain .error)
    let remaining := (analyze ⟨"f"⟩ "a\t\n" c .all).messages.filter unfixable
    (analyze ⟨"f"⟩ "a\t\n" c .all).output = some "a\n" ∧
      remaining = (analyze ⟨"f"⟩ "a\t\n" c .off).messages.filter unfixable ∧
      remaining ≠ (analyze ⟨"f"⟩ "a\n" c .off).messages.filter unfixable := by
  intro c remaining
  obtain ⟨found, -, faithful⟩ := analyze_remaining tab_fixed
  refine ⟨tab_fixed, found, fun same => ?_⟩
  have tab := (faithful.1 same ['a', '\t', '\n'] (by decide)).2 .error rfl (by decide)
  exact absurd tab (by decide)

theorem remaining_not_found :
    ¬∀ (path : Path) (source output : String) (c : Config),
      (analyze path source c .all).output = some output →
        (analyze path source c .all).messages.filter unfixable =
          (analyze path output c .off).messages.filter unfixable := by
  intro same
  have same := same ⟨"f"⟩ "a\t\n" "a\n" _ tab_fixed
  rw [analyze_messages] at same
  exact absurd same (by decide)

end ParallelLint.TextRules
