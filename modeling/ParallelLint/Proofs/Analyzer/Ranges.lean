import ParallelLint.Proofs.Analyzer.Selected

set_option autoImplicit false

namespace ParallelLint.TextRules
open Fixing Text

theorem byteLength_encode (text : List Char) : byteLength text = (encode text).length := by
  induction text with
  | nil => rfl
  | cons c rest ih =>
    calc byteLength (c :: rest) = c.utf8Size + (encode rest).length := by rw [byteLength, ih]
      _ = (String.utf8EncodeChar c).length + (encode rest).length := by
          rw [String.length_utf8EncodeChar]
      _ = (encode (c :: rest)).length := by
          rw [← List.length_append, encode, encode, List.flatMap_cons]

/-- The byte to which so many line feeds and then so many characters of a text lead. -/
def byteAt : Nat → Nat → List Char → Nat
  | _, _, [] => 0
  | 0, 0, _ :: _ => 0
  | 0, columns + 1, c :: rest => c.utf8Size + byteAt 0 columns rest
  | feeds + 1, columns, c :: rest =>
    c.utf8Size + byteAt (if c = '\n' then feeds else feeds + 1) columns rest

theorem byteAt_columns (line rest : List Char) :
    byteAt 0 line.length (line ++ rest) = byteLength line := by
  induction line with
  | nil => cases rest <;> rfl
  | cons c line ih => rw [List.length_cons, List.cons_append, byteAt, ih, byteLength]

/-- Whole lines: no text at all, or one that ends with a line feed. -/
def Whole (text : List Char) : Prop := ∀ c, text.getLast? = some c → c = '\n'

theorem Whole.tail {c : Char} {rest : List Char} (whole : Whole (c :: rest)) : Whole rest := by
  intro d last
  exact whole d (by rw [List.getLast?_cons, last]; rfl)

theorem Whole.append {a b : List Char} (ha : Whole a) (hb : Whole b) : Whole (a ++ b) := by
  intro c last
  rw [List.getLast?_append, Option.or_eq_some_iff] at last
  rcases last with last | ⟨-, last⟩
  · exact hb c last
  · exact ha c last

theorem byteAt_whole {above : List Char} (whole : Whole above) (columns : Nat) (rest : List Char) :
    byteAt (above.count '\n') columns (above ++ rest) =
      byteLength above + byteAt 0 columns rest := by
  induction above with
  | nil => simp [byteLength]
  | cons c above ih =>
    have ih := ih whole.tail
    by_cases feed : c = '\n'
    · rw [feed, List.count_cons_self, List.cons_append, byteAt, if_pos rfl, ih, byteLength,
        Nat.add_assoc]
    · have more : 0 < above.count '\n' := by
        rw [List.count_pos_iff]
        cases above with
        | nil => exact absurd (whole c rfl) feed
        | cons d above =>
          have last := List.getLast?_eq_some_getLast (List.cons_ne_nil d above)
          exact whole.tail _ last ▸ List.getLast_mem _
      obtain ⟨feeds, count⟩ := Nat.exists_eq_succ_of_ne_zero (Nat.ne_of_gt more)
      have step : byteAt ((c :: above).count '\n') columns (c :: (above ++ rest)) =
          c.utf8Size + byteAt (above.count '\n') columns (above ++ rest) := by
        rw [List.count_cons_of_ne feed, count, byteAt, if_neg feed]
      calc byteAt ((c :: above).count '\n') columns (c :: above ++ rest)
          = c.utf8Size + (byteLength above + byteAt 0 columns rest) := by
            rw [List.cons_append, step, ih]
        _ = byteLength (c :: above) + byteAt 0 columns rest := by rw [byteLength, Nat.add_assoc]

/-- A stretch of blanks before the end of a line, in a text with its parts: the lines above, what is
left of the line, the blanks, carriage returns, and the rest from the line feed on. -/
structure Stretch (source : List Char) where
  above : List Char
  kept : List Char
  blanks : List Char
  returns : List Char
  below : List Char
  parts : source = above ++ (kept ++ (blanks ++ (returns ++ below)))
  whole : Whole above
  inLine : '\n' ∉ kept
  tight : ∀ c, kept.getLast? = some c → c ≠ ' ' ∧ c ≠ '\t'
  taken : blanks ≠ []
  blank : ∀ c ∈ blanks, c = ' ' ∨ c = '\t'
  returned : ∀ c ∈ returns, c = '\r'
  ended : ∀ c, below.head? = some c → c = '\n'

namespace Stretch
variable {source : List Char}

def start (s : Stretch source) : Nat := byteLength (s.above ++ s.kept)

def stop (s : Stretch source) : Nat := byteLength (s.above ++ s.kept ++ s.blanks)

/-- The message is about the blanks: its fix takes them away, and its place is theirs. -/
structure Of (s : Stretch source) (m : Message) : Prop where
  fix : m.fix = some ⟨s.start, s.stop, ""⟩
  line : m.line = s.above.count '\n' + 1
  column : m.column = s.kept.length + 1
  endLine : m.endLine = some m.line
  endColumn : m.endColumn = some ((s.kept ++ s.blanks).length + 1)

theorem start_lt_stop (s : Stretch source) : s.start < s.stop := by
  have := byteLength_pos s.taken
  simp only [start, stop, byteLength_append]
  omega

theorem stop_le (s : Stretch source) : s.stop ≤ byteLength source := by
  have whole := congrArg byteLength s.parts
  simp only [byteLength_append] at whole
  simp only [stop, byteLength_append]
  omega

theorem byteAt_start (s : Stretch source) :
    byteAt (s.above.count '\n') s.kept.length source = s.start := by
  have place := byteAt_whole s.whole s.kept.length (s.kept ++ (s.blanks ++ (s.returns ++ s.below)))
  rwa [← s.parts, byteAt_columns, ← byteLength_append] at place

theorem byteAt_stop (s : Stretch source) :
    byteAt (s.above.count '\n') (s.kept ++ s.blanks).length source = s.stop := by
  have parts : source = s.above ++ ((s.kept ++ s.blanks) ++ (s.returns ++ s.below)) := by
    rw [List.append_assoc s.kept, ← s.parts]
  have place := byteAt_whole s.whole (s.kept ++ s.blanks).length
    ((s.kept ++ s.blanks) ++ (s.returns ++ s.below))
  rw [← parts, byteAt_columns] at place
  calc byteAt (s.above.count '\n') (s.kept ++ s.blanks).length source
      = byteLength s.above + byteLength (s.kept ++ s.blanks) := place
    _ = byteLength (s.above ++ (s.kept ++ s.blanks)) := (byteLength_append ..).symm
    _ = s.stop := by rw [stop, List.append_assoc]

theorem range_bytes (s : Stretch source) :
    ((encode source).drop s.start).take (s.stop - s.start) = encode s.blanks := by
  have bytes : encode source =
      encode (s.above ++ s.kept) ++ (encode s.blanks ++ encode (s.returns ++ s.below)) := by
    conv => lhs; rw [s.parts]
    simp only [encode, List.flatMap_append, List.append_assoc]
  have width : s.stop - s.start = (encode s.blanks).length := by
    rw [← byteLength_encode, stop, start, byteLength_append (s.above ++ s.kept)]
    omega
  have below : (encode source).drop s.start =
      encode s.blanks ++ encode (s.returns ++ s.below) := by
    rw [start, byteLength_encode, bytes, List.drop_left]
  calc ((encode source).drop s.start).take (s.stop - s.start)
      = (encode s.blanks ++ encode (s.returns ++ s.below)).take (encode s.blanks).length := by
        rw [below, width]
    _ = encode s.blanks := List.take_left

theorem blank_bytes (s : Stretch source) (b : UInt8) (h : b ∈ encode s.blanks) :
    b = 0x20 ∨ b = 0x09 := by
  obtain ⟨c, mem, here⟩ := List.mem_flatMap.1 h
  rcases s.blank c mem with rfl | rfl
  · exact .inl (List.mem_singleton.1 here)
  · exact .inr (List.mem_singleton.1 here)

theorem stop_lt_start (s t : Stretch source) (lower : s.above.count '\n' < t.above.count '\n') :
    s.stop < t.start := by
  have plain : (s.kept ++ s.blanks).count '\n' = 0 := by
    refine List.count_eq_zero.2 fun feed => ?_
    rcases List.mem_append.1 feed with feed | feed
    · exact s.inLine feed
    · rcases s.blank _ feed with space | tab
      · cases space
      · cases tab
  have upper : s.above ++ (s.kept ++ s.blanks) <+: source :=
    ⟨s.returns ++ s.below, by simp only [List.append_assoc, ← s.parts]⟩
  have above : t.above <+: source := ⟨_, t.parts.symm⟩
  rcases List.prefix_or_prefix_of_prefix upper above with ⟨rest, longer⟩ | ⟨rest, shorter⟩
  · have counted := congrArg (List.count '\n') longer
    rw [List.count_append, List.count_append, plain] at counted
    have rest : rest ≠ [] := by
      rintro rfl
      rw [List.count_nil] at counted
      omega
    have bytes := congrArg byteLength longer
    have := byteLength_pos rest
    simp only [byteLength_append] at bytes
    simp only [stop, start, byteLength_append]
    omega
  · have counted := congrArg (List.count '\n') shorter
    rw [List.count_append, List.count_append, plain] at counted
    omega

end Stretch

theorem Lines.before {before after : List (List Char)} {raw : List Char}
    (lines : Lines (before ++ raw :: after)) :
    Whole before.flatten ∧ before.flatten.count '\n' = before.length ∧ Lines (raw :: after) := by
  induction before with
  | nil => exact ⟨fun c last => by simp at last, rfl, lines⟩
  | cons line before ih =>
    rw [List.cons_append] at lines
    generalize joined : before ++ raw :: after = rest at lines
    cases lines with
    | last => simp at joined
    | @more line _ plain others =>
      obtain ⟨whole, count, here⟩ := ih (joined ▸ others)
      have ends : Whole (line ++ ['\n']) := fun c last => by simpa using last.symm
      refine ⟨by rw [List.flatten_cons]; exact ends.append whole, ?_, here⟩
      rw [List.flatten_cons, List.count_append, count, List.count_append,
        List.count_eq_zero.2 plain, List.length_cons]
      simp [Nat.add_comm]

theorem Lines.ending {raw kept blanks ending : List Char} {after : List (List Char)}
    (lines : Lines (raw :: after)) (parts : raw = kept ++ (blanks ++ ending)) (taken : blanks ≠ [])
    (blank : ∀ c ∈ blanks, c = ' ' ∨ c = '\t') (ends : ∀ c ∈ ending, c = '\n' ∨ c = '\r') :
    '\n' ∉ kept ∧ ∃ returns below, ending ++ after.flatten = returns ++ below ∧
      (∀ c ∈ returns, c = '\r') ∧ ∀ c, below.head? = some c → c = '\n' := by
  cases lines with
  | last _ plain =>
    rw [parts] at plain
    simp only [List.mem_append, not_or] at plain
    refine ⟨plain.1, ending, [], by simp, fun c hc => ?_, by simp⟩
    rcases ends c hc with rfl | rfl
    · exact absurd hc plain.2.2
    · rfl
  | @more line _ plain others =>
    cases ending using List.reverseRecOn with
    | nil =>
      have last := congrArg List.getLast? parts
      rw [List.append_nil, List.getLast?_append, List.getLast?_append,
        List.getLast?_eq_some_getLast taken, List.getLast?_singleton, Option.some_or,
        Option.some_or, Option.some.injEq] at last
      rcases blank _ (List.getLast_mem taken) with space | tab
      · rw [space] at last
        cases last
      · rw [tab] at last
        cases last
    | append_singleton returns d =>
      rw [← List.append_assoc, ← List.append_assoc, List.append_assoc kept] at parts
      obtain ⟨same, feed⟩ := List.append_inj' parts rfl
      cases feed
      rw [same] at plain
      simp only [List.mem_append, not_or] at plain
      refine ⟨plain.1, returns, '\n' :: after.flatten, by simp, fun c hc => ?_, by simp⟩
      rcases ends c (List.mem_append_left _ hc) with rfl | rfl
      · exact absurd hc plain.2.2
      · rfl

theorem trailingMessage_end {number start : Nat} {line : List Char} {rule : String × Severity}
    {m : Message} (h : trailingMessage number start line rule = some m) :
    m.endLine = some number ∧ m.endColumn = some (line.length + 1) := by
  unfold trailingMessage at h
  simp only at h
  split at h <;> cases h
  exact ⟨rfl, rfl⟩

theorem unfixable_other {m : Message} (h : unfixable m = true) : aboutBlanks m = false := by
  simp only [unfixable, Bool.or_eq_true, decide_eq_true_eq] at h
  rcases h with rule | rule <;> rw [aboutBlanks, rule] <;> decide

theorem about_trailing {on : Enabled} {number start : Nat} {line : List Char} {m : Message}
    (h : m ∈ lineMessages on number start line) (about : aboutBlanks m = true) :
    on.trailing.bind (trailingMessage number start line) = some m := by
  rw [lineMessages_parts] at h
  rcases List.mem_append.1 h with h | h
  · exact Option.mem_toList.1 h
  · rw [unfixable_other (mem_unfixable h).2] at about
    cases about

theorem messages_stretch {c : Config} {source : String} {m : Message} (h : m ∈ messages c source)
    (about : aboutBlanks m = true) : ∃ s : Stretch source.toList, s.Of m := by
  obtain ⟨before, raw, after, split, mem⟩ := mem_messagesFrom h
  obtain ⟨rule, -, message⟩ := Option.bind_eq_some_iff.1 (about_trailing mem about)
  obtain ⟨dropped, droppedParts, taken, fix⟩ := trailingMessage_fix message
  obtain ⟨blanks, ending, parts, raw_parts, -, blank, ends⟩ := line_parts raw
  have same : dropped = blanks := List.append_cancel_left (droppedParts.symm.trans parts)
  rw [same] at taken
  have lines := splitLines_lines source.toList
  rw [split] at lines
  obtain ⟨whole, count, here⟩ := lines.before
  obtain ⟨inLine, returns, below, rest, returned, ended⟩ := here.ending raw_parts taken
    (fun c hc => by simpa [isTrailing] using blank c hc)
    (fun c hc => by simpa [isLineEnd] using ends c hc)
  have text : source.toList =
      before.flatten ++ (content (body raw) ++ (blanks ++ (returns ++ below))) := by
    rw [← splitLines_flatten source.toList, split, List.flatten_append, List.flatten_cons, ← rest]
    conv => lhs; rw [raw_parts]
    simp only [List.append_assoc]
  let s : Stretch source.toList :=
    { above := before.flatten, kept := content (body raw), blanks, returns, below, parts := text,
      whole, inLine, taken, returned, ended
      tight := fun c last => by simpa [isTrailing] using dropEndWhile_last last
      blank := fun c hc => by simpa [isTrailing] using blank c hc }
  obtain ⟨line, column⟩ := trailingMessage_place message
  obtain ⟨endLine, endColumn⟩ := trailingMessage_end message
  refine ⟨s, ?_, ?_, column, ?_, ?_⟩
  · simp only [fix, s, Stretch.start, Stretch.stop, byteLength_append, Nat.zero_add,
      List.append_assoc, ← parts]
  · rw [line, count, Nat.add_comm]
  · rw [endLine, line]
  · rw [endColumn, ← parts]

theorem messagesFrom_lines (c : Config) (number start : Nat) (lines : List (List Char)) :
    (messagesFrom (enabled c) number start lines).Pairwise fun a b =>
      aboutBlanks a = true → aboutBlanks b = true → a.line < b.line := by
  induction lines generalizing number start with
  | nil => exact .nil
  | cons raw rest ih =>
    refine List.pairwise_append.2 ⟨?_, ih _ _, fun a ha b hb _ _ => ?_⟩
    · rw [lineMessages_parts]
      refine List.pairwise_append.2 ⟨?_, ?_, fun a _ b hb _ about => ?_⟩
      · cases (enabled c).trailing.bind (trailingMessage number start (body raw)) with
        | none => exact .nil
        | some m => exact List.pairwise_singleton _ m
      · refine List.Pairwise.imp_of_mem (fun {a b} ha _ _ about => ?_)
          (unfixable_sorted (enabled c) number start (body raw))
        rw [unfixable_other (mem_unfixable ha).2] at about
        cases about
      · rw [unfixable_other (mem_unfixable hb).2] at about
        cases about
    · rw [lineMessages_line ha]
      exact messagesFrom_line hb

theorem analyze_lines (path : Path) (source : String) (c : Config) (mode : FixMode) :
    (analyze path source c mode).messages.Pairwise fun a b =>
      aboutBlanks a = true → aboutBlanks b = true → a.line < b.line := by
  have found := messagesFrom_lines c 1 0 (splitLines source.toList)
  rw [analyze_rejected]
  split
  · have apart : (((messages c source).filter fun m => !mode.allows m).mergeSort earlier).Pairwise
        fun a b => aboutBlanks a = true → aboutBlanks b = true → a.line ≠ b.line := by
      refine (List.mergeSort_perm _ earlier).symm.pairwise
        ((found.imp fun less ha hb => Nat.ne_of_lt (less ha hb)).filter _) ?_
      exact fun other hb ha => (other ha hb).symm
    refine List.Pairwise.imp₂ (fun a b other ordered ha hb => ?_) apart (mergeSort_earlier _)
    have different := other ha hb
    simp only [earlier, Bool.or_eq_true, Bool.and_eq_true, decide_eq_true_eq] at ordered
    omega
  · exact found

theorem analyze_subset {path : Path} {source : String} {c : Config} {mode : FixMode} {m : Message}
    (h : m ∈ (analyze path source c mode).messages) : m ∈ messages c source := by
  rw [analyze_rejected] at h
  split at h
  · exact (List.mem_filter.1 (List.mem_mergeSort.1 h)).1
  · exact h

/-- Every fix begins where the one before it has ended or later, ends within the text, and is cut
out between characters. -/
def Applies (length : Nat) : Nat → List Char → List Fixable → Prop
  | _, _, [] => True
  | position, rest, (_, fix) :: more =>
    position ≤ fix.start ∧ fix.stop ≤ length ∧ ∃ kept cut after,
      splitAtByte (fix.start - position) rest = (kept, cut ++ after) ∧
      byteLength kept = fix.start - position ∧
      splitAtByte (fix.stop - fix.start) (cut ++ after) = (cut, after) ∧
      byteLength cut = fix.stop - fix.start ∧ Applies length fix.stop after more

theorem Applies.all {length position : Nat} {rest : List Char} {fixes : List Fixable}
    (applies : Applies length position rest fixes) :
    (applyFrom length position rest fixes).2 = [] := by
  induction fixes generalizing position rest with
  | nil => rfl
  | cons f more ih =>
    obtain ⟨m, fix⟩ := f
    obtain ⟨after, within, kept, cut, below, split, -, split', -, later⟩ := applies
    have clear : ¬(fix.start < position ∨ length < fix.stop) := by omega
    rw [applyFrom]
    simp only [Bool.or_eq_true, decide_eq_true_eq, if_neg clear, split, split']
    exact ih later

theorem applies_ordered {source consumed rest : List Char} {fixes : List Fixable}
    (parts : source = consumed ++ rest) (cuts : ∀ f ∈ fixes, Cuts source f.2)
    (later : ∀ f ∈ fixes, byteLength consumed ≤ f.2.start)
    (ordered : fixes.Pairwise fun a b => a.2.stop ≤ b.2.start) :
    Applies (byteLength source) (byteLength consumed) rest fixes := by
  induction fixes generalizing consumed rest with
  | nil => trivial
  | cons f more ih =>
    obtain ⟨m, fix⟩ := f
    obtain ⟨first, others⟩ := List.pairwise_cons.1 ordered
    obtain ⟨before, cut, after, parts', taken, same⟩ := cuts _ (List.mem_cons_self ..)
    have here := later _ (List.mem_cons_self ..)
    simp only at same
    subst same
    obtain ⟨kept, rfl⟩ : ∃ kept, before = consumed ++ kept := by
      have long : consumed <+: source := ⟨rest, parts.symm⟩
      rcases List.prefix_or_prefix_of_prefix long ⟨_, parts'.symm⟩ with ⟨kept, same⟩ | ⟨kept, same⟩
      · exact ⟨kept, same.symm⟩
      · have bytes := congrArg byteLength same
        rw [byteLength_append] at bytes
        have none : kept = [] := by
          by_contra some
          have := byteLength_pos some
          simp only at here
          omega
        exact ⟨[], by rw [← same, none, List.append_nil, List.append_nil]⟩
    have tail : rest = kept ++ (cut ++ after) := by
      refine (List.append_right_inj consumed).1 ?_
      rw [← parts, parts', List.append_assoc]
    have skip : byteLength (consumed ++ kept) - byteLength consumed = byteLength kept := by
      rw [byteLength_append]
      omega
    have width : byteLength (consumed ++ kept ++ cut) - byteLength (consumed ++ kept) =
        byteLength cut := by
      rw [byteLength_append (consumed ++ kept)]
      omega
    refine ⟨here, ?_, kept, cut, after, ?_, ?_, ?_, ?_, ?_⟩
    · have bytes := congrArg byteLength parts'
      simp only [byteLength_append] at bytes ⊢
      omega
    · rw [skip, tail, splitAtByte_append]
    · exact skip.symm
    · rw [width, splitAtByte_append]
    · exact width.symm
    · refine ih ?_ (fun g hg => cuts g (List.mem_cons_of_mem _ hg)) (fun g hg => first g hg) others
      rw [parts']
      simp only [List.append_assoc]

theorem fixable?_fix {mode : FixMode} {m : Message} {f : Fixable} (h : fixable? mode m = some f) :
    m.fix = some f.2 := by
  unfold fixable? at h
  split at h
  · obtain ⟨fix, found, rfl⟩ := Option.map_eq_some_iff.1 h
    exact found
  · cases h

theorem fix_about {c : Config} {source : String} {m : Message} (h : m ∈ messages c source) {f : Fix}
    (fix : m.fix = some f) : aboutBlanks m = true := by
  obtain ⟨before, raw, after, -, mem⟩ := mem_messagesFrom h
  rw [lineMessages_parts] at mem
  rcases List.mem_append.1 mem with mem | mem
  · exact trailing_about (Option.mem_toList.1 mem)
  · rw [(mem_unfixable mem).1] at fix
    cases fix

theorem ranges_ordered {c : Config} {source : String} {a b : Message} (ha : a ∈ messages c source)
    (hb : b ∈ messages c source) (abouta : aboutBlanks a = true) (aboutb : aboutBlanks b = true)
    (upper : a.line < b.line) {f g : Fix} (hf : a.fix = some f) (hg : b.fix = some g) :
    f.stop < g.start := by
  obtain ⟨s, ofa⟩ := messages_stretch ha abouta
  obtain ⟨t, ofb⟩ := messages_stretch hb aboutb
  rw [ofa.fix] at hf
  rw [ofb.fix] at hg
  rw [ofa.line, ofb.line] at upper
  cases hf
  cases hg
  exact s.stop_lt_start t (by omega)

theorem fixes_apply (c : Config) (source : String) (mode : FixMode) :
    Applies (byteLength source.toList) 0 source.toList
      (((messages c source).filterMap (fixable? mode)).mergeSort inOrder) := by
  have sorted := List.mergeSort_of_pairwise
    (fixable_sorted (enabled c) mode 1 0 (splitLines source.toList))
  rw [messages, sorted]
  change Applies _ (byteLength []) _ _
  refine applies_ordered rfl (fun f hf => ?_) (fun f _ => Nat.zero_le _) ?_
  · obtain ⟨m, mem, found⟩ := List.mem_filterMap.1 hf
    exact fix_cuts mem (fixable?_fix found)
  · have lines := messagesFrom_lines c 1 0 (splitLines source.toList)
    refine List.pairwise_filterMap.2 (lines.imp_of_mem fun {a b} ha hb less f hf g hg => ?_)
    have fixa := fixable?_fix hf
    have fixb := fixable?_fix hg
    have abouta := fix_about ha fixa
    have aboutb := fix_about hb fixb
    exact Nat.le_of_lt (ranges_ordered ha hb abouta aboutb (less abouta aboutb) fixa fixb)

/-- The message about the blanks of a line has a fix for exactly these blanks, and its lines and
columns mark the same bytes. The ranges of different messages are apart and in order, so that in
every mode all the fixes that it allows apply. -/
theorem analyze_ranges (path : Path) (source : String) (c : Config) (mode : FixMode) :
    let text := source.toList
    let result := analyze path source c mode
    let fixes := ((analyze path source c .off).messages.filterMap (fixable? mode)).mergeSort inOrder
    (∀ m ∈ result.messages, aboutBlanks m = true → ∃ s : Stretch text, s.Of m ∧
      s.start < s.stop ∧ s.stop ≤ (bytesOf source).length ∧
      (∀ b ∈ ((bytesOf source).drop s.start).take (s.stop - s.start), b = 0x20 ∨ b = 0x09) ∧
      byteAt (m.line - 1) (m.column - 1) text = s.start ∧
      ∃ endLine endColumn, m.endLine = some endLine ∧ m.endColumn = some endColumn ∧
        byteAt (endLine - 1) (endColumn - 1) text = s.stop) ∧
    (result.messages.filter aboutBlanks).Pairwise
      (fun a b => ∀ f g, a.fix = some f → b.fix = some g → f.stop < g.start) ∧
    Applies (byteLength text) 0 text fixes ∧
    (applyFrom (byteLength text) 0 text fixes).2 = [] := by
  intro text result fixes
  have applies := fixes_apply c source mode
  refine ⟨fun m mem about => ?_, ?_, applies, applies.all⟩
  · obtain ⟨s, marks⟩ := messages_stretch (analyze_subset mem) about
    have begins : byteAt (m.line - 1) (m.column - 1) text = s.start := by
      rw [marks.line, marks.column]
      exact s.byteAt_start
    have ends : byteAt (m.line - 1) ((s.kept ++ s.blanks).length + 1 - 1) text = s.stop := by
      rw [marks.line]
      exact s.byteAt_stop
    refine ⟨s, marks, s.start_lt_stop, ?_, fun b hb => ?_, begins, _, _, marks.endLine,
      marks.endColumn, ends⟩
    · rw [bytesOf, ← byteLength_encode]
      exact s.stop_le
    · rw [bytesOf, s.range_bytes] at hb
      exact s.blank_bytes b hb
  · refine List.pairwise_filter.2 ((analyze_lines path source c mode).imp_of_mem ?_)
    intro a b ha hb less abouta aboutb f g hf hg
    exact ranges_ordered (analyze_subset ha) (analyze_subset hb) abouta aboutb (less abouta aboutb)
      hf hg

example : (analyze ⟨"f"⟩ "é \t\r\nb\r \r" defaultConfig .off).messages.map Message.fix =
    [some ⟨2, 4, ""⟩, some ⟨8, 9, ""⟩] := by decide +kernel

end ParallelLint.TextRules
