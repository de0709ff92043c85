import ParallelLint.Proofs.Analyzer.Remaining

set_option autoImplicit false

namespace ParallelLint.TextRules
open Fixing Text

/-- About blanks at the end of a line. -/
def aboutBlanks (m : Message) : Bool :=
  m.ruleId = some noTrailingSpaces || m.ruleId = some noTrailingWhitespace

/-- A line, and what it is without the blanks before its end. -/
def WithoutBlanks (raw line : List Char) : Prop :=
  ∃ kept blanks ending, raw = kept ++ (blanks ++ ending) ∧ line = kept ++ ending ∧
    (∀ c ∈ blanks, c = ' ' ∨ c = '\t') ∧ (∀ c ∈ ending, c = '\n' ∨ c = '\r') ∧
    (∀ c, kept.getLast? = some c → c ≠ ' ' ∧ c ≠ '\t') ∧
    ∀ c, (kept ++ blanks).getLast? = some c → c ≠ '\n' ∧ c ≠ '\r'

def Taken (mode : FixMode) (found : List Message) (number : Nat) : Prop :=
  ∃ m ∈ found, aboutBlanks m = true ∧ m.line = number ∧ mode.allows m = true

/-- What becomes of a line with its number. -/
def Becomes (mode : FixMode) (found : List Message) (raw : List Char × Nat) (line : List Char) :
    Prop :=
  (Taken mode found raw.2 → WithoutBlanks raw.1 line) ∧ (¬Taken mode found raw.2 → line = raw.1)

theorem dropEndWhile_last {p : Char → Bool} {text : List Char} {c : Char}
    (last : (dropEndWhile p text).getLast? = some c) : p c = false := by
  have some : dropEndWhile p text ≠ [] := List.ne_nil_of_mem (List.mem_of_getLast? last)
  have other : ¬p ((dropEndWhile p text).getLast some) = true :=
    List.rdropWhile_last_not p text some
  rwa [(List.getLast_eq_iff_getLast?_eq_some some).2 last, Bool.not_eq_true] at other

theorem trimmed_without (raw : List Char) : WithoutBlanks raw (trimmed raw) := by
  obtain ⟨blanks, ending, parts, whole, same, blank, ends⟩ := line_parts raw
  refine ⟨content (body raw), blanks, ending, whole, same, fun c hc => ?_, fun c hc => ?_,
    fun c last => ?_, fun c last => ?_⟩
  · simpa [isTrailing] using blank c hc
  · simpa [isLineEnd] using ends c hc
  · simpa [isTrailing] using dropEndWhile_last last
  · rw [← parts] at last
    simpa [isLineEnd] using dropEndWhile_last last

theorem mem_allowed {on : Enabled} {mode : FixMode} {number start : Nat} {line : List Char}
    {m : Message} (h : m ∈ lineMessages on number start line) (allowed : mode.allows m = true) :
    on.trailing.bind (trailingMessage number start line) = some m := by
  have fix := FixMode.allows_fix allowed
  rw [lineMessages_parts] at h
  rcases List.mem_append.1 h with h | h
  · exact Option.mem_toList.1 h
  · rw [(mem_unfixable h).1] at fix
    cases fix

theorem mem_trailing {on : Enabled} {number start : Nat} {line : List Char} {m : Message}
    (found : on.trailing.bind (trailingMessage number start line) = some m) :
    m ∈ lineMessages on number start line := by
  rw [lineMessages_parts]
  exact List.mem_append_left _ (Option.mem_toList.2 found)

theorem fixedFrom_refused {on : Enabled} {mode : FixMode} {number start : Nat}
    {lines : List (List Char)}
    (refused : ∀ m ∈ messagesFrom on number start lines, mode.allows m = false) :
    fixedFrom on mode number start lines = lines := by
  induction lines generalizing number start with
  | nil => rfl
  | cons raw rest ih =>
    have here : ¬(on.trailing.bind (trailingMessage number start (body raw))).any mode.allows := by
      rw [Bool.not_eq_true, Option.any_eq_false]
      exact fun m found => refused m (List.mem_append_left _ (mem_trailing found))
    rw [fixedFrom, fixedLine, if_neg here, ih fun m hm => refused m (List.mem_append_right _ hm)]

theorem trailing_about {c : Config} {number start : Nat} {line : List Char} {m : Message}
    (found : (enabled c).trailing.bind (trailingMessage number start line) = some m) :
    aboutBlanks m = true := by
  obtain ⟨rule, on, message⟩ := Option.bind_eq_some_iff.1 found
  rw [aboutBlanks, trailingMessage_rule message]
  rcases enabled_trailing on with name | name <;> rw [name] <;> decide

theorem fixedFrom_becomes (c : Config) (mode : FixMode) {found : List Message}
    {number start : Nat} {lines : List (List Char)}
    (about : ∀ m, number ≤ m.line →
      (m ∈ found ↔ m ∈ messagesFrom (enabled c) number start lines)) :
    List.Forall₂ (Becomes mode found) (lines.zipIdx number)
      (fixedFrom (enabled c) mode number start lines) := by
  induction lines generalizing number start with
  | nil => exact .nil
  | cons raw rest ih =>
    have taken : Taken mode found number ↔
        ((enabled c).trailing.bind (trailingMessage number start (body raw))).any mode.allows =
          true := by
      rw [Option.any_eq_true]
      constructor
      · rintro ⟨m, mem, -, line, allowed⟩
        rcases List.mem_append.1 ((about m (Nat.le_of_eq line.symm)).1 mem) with here | below
        · exact ⟨m, mem_allowed here allowed, allowed⟩
        · have := messagesFrom_line below
          omega
      · rintro ⟨m, trailing, allowed⟩
        have here := mem_trailing trailing
        have line := lineMessages_line here
        exact ⟨m, (about m (Nat.le_of_eq line.symm)).2 (List.mem_append_left _ here),
          trailing_about trailing, line, allowed⟩
    rw [List.zipIdx_cons, fixedFrom, fixedLine]
    refine .cons ⟨fun yes => ?_, fun no => ?_⟩ (ih fun m later => ?_)
    · rw [if_pos (taken.1 yes)]
      exact trimmed_without raw
    · rw [if_neg fun any => no (taken.2 any)]
    · rw [about m (Nat.le_of_succ_le later), messagesFrom, List.mem_append,
        or_iff_right fun here => ?_]
      rw [lineMessages_line here] at later
      omega

theorem analyze_stays {path : Path} {source : String} {c : Config} {mode : FixMode} :
    (analyze path source c mode).output = none ↔
      ∀ m ∈ messages c source, mode.allows m = false := by
  cases requested : mode.isRequested with
  | false =>
    cases mode with
    | off => exact iff_of_true rfl fun _ _ => rfl
    | all => cases requested
    | only _ => cases requested
  | true =>
    refine ⟨fun unfixed m hm => ?_, fun refused => ?_⟩
    · exact fixable_none (List.filterMap_eq_nil_iff.1 (fixes_none requested unfixed) m hm)
    · rw [analyze_output _ _ _ _ requested, fixedFrom_refused refused, splitLines_flatten,
        String.ofList_toList]
      exact if_pos rfl

theorem analyze_text (path : Path) (source : String) (c : Config) (mode : FixMode) :
    ((analyze path source c mode).output.getD source).toList =
      (fixedFrom (enabled c) mode 1 0 (splitLines source.toList)).flatten := by
  cases requested : mode.isRequested with
  | false =>
    have unfixed : (analyze path source c mode).output = none := by
      simp [analyze, Fixing.run, requested]
    rw [unfixed, fixedFrom_refused (analyze_stays.1 unfixed), splitLines_flatten]
    rfl
  | true =>
    rw [analyze_output _ _ _ _ requested]
    simp only
    split
    · rename_i same
      rw [← String.toList_ofList
        (l := (fixedFrom (enabled c) mode 1 0 (splitLines source.toList)).flatten), same]
      rfl
    · exact String.toList_ofList

theorem analyze_rejected (path : Path) (source : String) (c : Config) (mode : FixMode) :
    (analyze path source c mode).messages =
      if mode.isRequested then
        ((messages c source).filter fun m => !mode.allows m).mergeSort earlier
      else messages c source := by
  cases requested : mode.isRequested with
  | false => simp [analyze, Fixing.run, requested]
  | true => exact congrArg Prod.snd (run_fixed requested c source)

/-- Some text stands before the blanks of a line, and there is another message about that text. -/
def Crossed (on : Enabled) (line : List Char) : Prop :=
  on.trailing.isSome = true ∧ content line ≠ line ∧
    ((∃ rule, on.maxLength = some rule ∧ rule.2 < line.length ∧ content line ≠ []) ∨
      (on.tabs.isSome = true ∧ '\t' ∈ content line))

theorem unfixable_sorted (on : Enabled) (number start : Nat) (line : List Char) :
    (lineMessages on.unfixable number start line).Pairwise fun a b => earlier a b = true :=
  lineMessages_sorted fun _ hm => (mem_unfixable hm).1

theorem trailingMessage_place {number start : Nat} {line : List Char} {rule : String × Severity}
    {m : Message} (h : trailingMessage number start line rule = some m) :
    m.line = number ∧ m.column = (content line).length + 1 := by
  unfold trailingMessage at h
  simp only at h
  split at h <;> cases h
  exact ⟨rfl, rfl⟩

section Places
variable {number : Nat} {line : List Char} {m : Message} (here : m.line = number)
  (column : m.column = (content line).length + 1)
include here column

theorem lengthMessage_after {rule : Severity × Nat} :
    (∀ other, lengthMessage number line rule = some other → earlier m other = true) ↔
      (rule.2 < line.length → content line = []) := by
  unfold lengthMessage
  by_cases long : rule.2 < line.length
  · simp [earlier, Message.ofRule, here, column, long]
  · simp [long]

theorem tabMessage_after {severity : Severity} :
    (∀ other, tabMessage number line severity = some other → earlier m other = true) ↔
      '\t' ∉ content line := by
  obtain ⟨blanks, parts⟩ := dropEndWhile_parts isTrailing line
  have parts : line = content line ++ blanks := parts
  constructor
  · intro after tab
    obtain ⟨before, place⟩ := tab_found tab
    have short := (List.findIdx?_eq_some_iff_findIdx_eq.1 place).1
    have place' : line.findIdx? (· = '\t') = some before := by
      rw [parts, List.findIdx?_append, place, Option.some_or]
    have ordered := after _ (by rw [tabMessage, place', Option.map_some])
    simp only [earlier, Message.ofRule, here, column, Bool.or_eq_true, Bool.and_eq_true,
      decide_eq_true_eq] at ordered
    omega
  · intro free other found
    obtain ⟨before, place, rfl⟩ := Option.map_eq_some_iff.1 found
    rw [parts, List.findIdx?_append, tab_missed free, Option.none_or] at place
    obtain ⟨rest, -, rfl⟩ := Option.map_eq_some_iff.1 place
    simp [earlier, Message.ofRule, here, column]

end Places

theorem lineMessages_ordered (on : Enabled) (number start : Nat) (line : List Char) :
    ((lineMessages on number start line).Pairwise fun a b => earlier a b = true) ↔
      ¬Crossed on line := by
  rw [lineMessages_parts]
  cases found : on.trailing.bind (trailingMessage number start line) with
  | none =>
    refine iff_of_true (unfixable_sorted on number start line) fun crossed => ?_
    exact crossed.2.1 (trailing_none.1 found crossed.1)
  | some m =>
    obtain ⟨rule, enabled, message⟩ := Option.bind_eq_some_iff.1 found
    obtain ⟨here, column⟩ := trailingMessage_place message
    have blanks : content line ≠ line := by
      intro clean
      rw [trailing_none.2 fun _ => clean] at found
      cases found
    have length : (∀ other, on.maxLength.bind (lengthMessage number line) = some other →
        earlier m other = true) ↔
        ∀ rule, on.maxLength = some rule → rule.2 < line.length → content line = [] := by
      cases on.maxLength with
      | none => simp
      | some rule => simp [lengthMessage_after here column]
    have tabs : (∀ other, on.tabs.bind (tabMessage number line) = some other →
        earlier m other = true) ↔ (on.tabs.isSome = true → '\t' ∉ content line) := by
      cases on.tabs with
      | none => simp
      | some severity => simp [tabMessage_after here column]
    rw [Option.toList_some, List.singleton_append, List.pairwise_cons,
      and_iff_left (unfixable_sorted on number start line), lineMessages_unfixable,
      List.forall_mem_append]
    simp only [Option.mem_toList]
    rw [length, tabs]
    simp [Crossed, enabled, blanks]

theorem messagesFrom_ordered (on : Enabled) (number start : Nat) (lines : List (List Char)) :
    ((messagesFrom on number start lines).Pairwise fun a b => earlier a b = true) ↔
      ∀ raw ∈ lines, ¬Crossed on (body raw) := by
  induction lines generalizing number start with
  | nil => exact iff_of_true .nil fun _ hm => absurd hm List.not_mem_nil
  | cons raw rest ih =>
    -- what is about the first line comes before all the rest in any case
    rw [messagesFrom, List.pairwise_append, lineMessages_ordered, ih, List.forall_mem_cons,
      and_iff_left fun a ha b hb => earlier_below ha hb]

theorem mergeSort_earlier (found : List Message) :
    (found.mergeSort earlier).Pairwise fun a b => earlier a b = true := by
  refine List.pairwise_mergeSort (fun a b c => ?_) (fun a b => ?_) found
  · simp only [earlier, Bool.or_eq_true, Bool.and_eq_true, decide_eq_true_eq]
    omega
  · simp only [earlier, Bool.or_eq_true, Bool.and_eq_true, decide_eq_true_eq]
    omega

theorem mergeSort_same (found : List Message) :
    found.mergeSort earlier = found ↔ found.Pairwise fun a b => earlier a b = true := by
  refine ⟨fun same => ?_, List.mergeSort_of_pairwise⟩
  rw [← same]
  exact mergeSort_earlier found

section Stays
variable {path : Path} {source : String} {c : Config} {mode : FixMode}

theorem analyze_sorted (requested : mode.isRequested = true)
    (unfixed : (analyze path source c mode).output = none) :
    analyze path source c mode =
      LintResult.ofMessages path ((analyze path source c .off).messages.mergeSort earlier) := by
  have all : (messages c source).filter (fun m => !mode.allows m) = messages c source :=
    List.filter_eq_self.2 fun m hm => by rw [analyze_stays.1 unfixed m hm]; rfl
  calc analyze path source c mode
      = { LintResult.ofMessages path (analyze path source c mode).messages with
          output := (analyze path source c mode).output } := rfl
    _ = LintResult.ofMessages path ((messages c source).mergeSort earlier) := by
        rw [unfixed, analyze_rejected, if_pos requested, all]
        rfl
    _ = LintResult.ofMessages path ((analyze path source c .off).messages.mergeSort earlier) := rfl

theorem analyze_ordered (requested : mode.isRequested = true)
    (unfixed : (analyze path source c mode).output = none) :
    analyze path source c mode = analyze path source c .off ↔
      ∀ raw ∈ splitLines source.toList, ¬Crossed (enabled c) (body raw) := by
  rw [analyze_sorted requested unfixed, ← messagesFrom_ordered (enabled c) 1 0]
  refine Iff.trans ⟨congrArg LintResult.messages, fun same => ?_⟩ (mergeSort_same _)
  exact congrArg (LintResult.ofMessages path) same

/-- A run that leaves the text has the messages of a run without fixing, but in order. They are in
order before as well unless a line is crossed, and none is when all fixes are wanted. -/
theorem analyze_unchanged (unfixed : (analyze path source c mode).output = none) :
    let plain := analyze path source c .off
    (mode.isRequested = true → analyze path source c mode =
        LintResult.ofMessages path (plain.messages.mergeSort earlier)) ∧
      (analyze path source c mode = plain ↔
        (mode.isRequested = true → ∀ raw ∈ splitLines source.toList,
          ¬Crossed (enabled c) (body raw))) ∧
      (mode = .all → analyze path source c mode = plain) := by
  intro plain
  refine ⟨fun requested => analyze_sorted requested unfixed, ?_, ?_⟩
  · cases requested : mode.isRequested with
    | true => rw [analyze_ordered requested unfixed, imp_iff_right rfl]
    | false =>
      cases mode with
      | off => exact iff_of_true rfl fun on => absurd on Bool.false_ne_true
      | all => cases requested
      | only _ => cases requested
  · rintro rfl
    exact analyze_unfixed unfixed

end Stays

theorem none_wanted (path : Path) (source : String) (c : Config) :
    (analyze path source c (.only fun _ => false)).output = none :=
  analyze_stays.2 fun _ _ => Bool.and_false _

theorem tab_crossed :
    Crossed (enabled (defaultConfig.withRule noTabs (.plain .error))) (body "\ta \n".toList) :=
  ⟨by decide, by decide, .inr ⟨by decide, by decide⟩⟩

theorem analyze_unchanged_tab :
    let c := defaultConfig.withRule noTabs (.plain .error)
    let mode := FixMode.only fun _ => false
    (analyze ⟨"f"⟩ "\ta \n" c mode).output = none ∧
      analyze ⟨"f"⟩ "\ta \n" c mode ≠ analyze ⟨"f"⟩ "\ta \n" c .off := by
  intro c mode
  have unfixed : (analyze ⟨"f"⟩ "\ta \n" c mode).output = none := none_wanted ..
  refine ⟨unfixed, fun same => ?_⟩
  exact (analyze_unchanged unfixed).2.1.1 same rfl _ (by decide) tab_crossed

theorem order_changed :
    ¬∀ (path : Path) (source : String) (c : Config) (mode : FixMode),
      mode.isRequested = true → (analyze path source c mode).output = none →
        analyze path source c mode = analyze path source c .off := by
  intro same
  have unfixed := none_wanted ⟨"f"⟩ "\ta \n" (defaultConfig.withRule noTabs (.plain .error))
  have stays := (analyze_ordered rfl unfixed).1 (same _ _ _ _ rfl unfixed)
  exact stays _ (by decide) tab_crossed

end ParallelLint.TextRules
