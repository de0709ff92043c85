import Mathlib
import ParallelLint.Proofs.Analyzer.Fixes
import ParallelLint.Proofs.Cache.Reading

set_option autoImplicit false

namespace ParallelLint
open Text

namespace Text
open Fixing

theorem toNat_charOfNat_le (n : Nat) : (Char.ofNat n).toNat ≤ n := by
  unfold Char.ofNat
  split
  · exact Nat.le_refl _
  · exact Nat.zero_le _

theorem utf8Size_le {c : Char} (bound : Nat) (h : c.toNat ≤ bound) :
    (bound ≤ 0x7f → c.utf8Size ≤ 1) ∧ (bound ≤ 0x7ff → c.utf8Size ≤ 2) ∧
      (bound ≤ 0xffff → c.utf8Size ≤ 3) := by
  have first : (UInt32.ofNatLT 0x7f (by decide)).toNat = 0x7f := rfl
  have second : (UInt32.ofNatLT 0x7ff (by decide)).toNat = 0x7ff := rfl
  have third : (UInt32.ofNatLT 0xffff (by decide)).toNat = 0xffff := rfl
  unfold Char.toNat at h
  unfold Char.utf8Size
  simp only [UInt32.le_iff_toNat_le, first, second, third]
  split
  · omega
  split
  · omega
  split <;> omega

theorem map_ok {c : Char} {text : Except DecodeError (List Char)} {chars : List Char}
    (h : (c :: ·) <$> text = .ok chars) : ∃ rest, text = .ok rest ∧ chars = c :: rest := by
  cases text with
  | error e => cases h
  | ok rest => exact ⟨rest, rfl, (Except.ok.inj h).symm⟩

theorem decodeFrom_byteLength {start : Nat} {bytes : Bytes} {chars : List Char}
    (h : decodeFrom start bytes = .ok chars) : byteLength chars ≤ bytes.length := by
  fun_induction decodeFrom start bytes generalizing chars with
  | case1 => cases h; exact Nat.le_refl _
  | case2 start a rest low ih =>
    obtain ⟨text, more, rfl⟩ := map_ok h
    have low : a.toNat < 128 := UInt8.lt_iff_toNat_lt.1 low
    have size := (utf8Size_le 0x7f (Nat.le_trans (toNat_charOfNat_le a.toNat)
      (by omega))).1 (Nat.le_refl _)
    have := ih more
    simp only [byteLength, List.length_cons]
    omega
  | case4 start a high lead b rest tail ih =>
    obtain ⟨text, more, rfl⟩ := map_ok h
    have size := (utf8Size_le 0x7ff (Nat.le_trans
      (toNat_charOfNat_le (a.toNat % 32 * 64 + b.toNat % 64)) (by omega))).2.1 (Nat.le_refl _)
    have := ih more
    simp only [byteLength, List.length_cons, twoByte]
    omega
  | case9 start a high two lead b second c rest tail ih =>
    obtain ⟨text, more, rfl⟩ := map_ok h
    have size := (utf8Size_le 0xffff (Nat.le_trans
      (toNat_charOfNat_le (a.toNat % 16 * 4096 + b.toNat % 64 * 64 + c.toNat % 64))
      (by omega))).2.2 (Nat.le_refl _)
    have := ih more
    simp only [byteLength, List.length_cons, threeByte]
    omega
  | case16 start a high two three lead b second c third d rest tail ih =>
    obtain ⟨text, more, rfl⟩ := map_ok h
    have size := (fourByte a b c d).utf8Size_le_four
    have := ih more
    simp only [byteLength, List.length_cons]
    omega
  | _ => cases h

end Text

namespace TextRules
open Fixing

theorem length_le_byteLength (chars : List Char) : chars.length ≤ byteLength chars := by
  induction chars with
  | nil => exact Nat.le_refl _
  | cons c rest ih =>
    have := c.utf8Size_pos
    simp only [List.length_cons, byteLength]
    omega

theorem splitLines_length (text : List Char) : (splitLines text).length ≤ text.length := by
  fun_induction splitLines text with
  | case1 => exact Nat.le_refl _
  | case2 rest ih => simpa using ih
  | case3 c rest other none ih => simp
  | case4 c rest other line lines found ih =>
    rw [found] at ih
    simp only [List.length_cons] at ih ⊢
    omega

/-- No number of a message is larger than this, apart from its fix. -/
structure Within (bound : Nat) (m : Message) : Prop where
  line : m.line ≤ bound
  column : m.column ≤ bound
  endLine : ∀ n ∈ m.endLine, n ≤ bound
  endColumn : ∀ n ∈ m.endColumn, n ≤ bound

theorem lineMessages_within {on : Enabled} {number start : Nat} {line : List Char} {m : Message}
    (h : m ∈ lineMessages on number start line) {bound : Nat} (first : number ≤ bound)
    (last : line.length + 1 ≤ bound) : Within bound m := by
  rcases mem_lineMessages.1 h with ⟨rule, -, found⟩ | ⟨rule, -, found⟩ | ⟨severity, -, found⟩
  · unfold trailingMessage at found
    simp only at found
    split at found
    · rename_i less
      cases found
      refine ⟨first, ?_, ?_, ?_⟩
      · change (content line).length + 1 ≤ bound
        omega
      · rintro n ⟨⟩
        exact first
      · rintro n ⟨⟩
        exact last
    · cases found
  · unfold lengthMessage at found
    split at found <;> cases found
    refine ⟨first, ?_, by rintro n ⟨⟩, by rintro n ⟨⟩⟩
    change 1 ≤ bound
    omega
  · obtain ⟨before, inside, rfl⟩ := Option.map_eq_some_iff.1 found
    have less := (List.findIdx?_eq_some_iff_getElem.1 inside).1
    refine ⟨first, ?_, by rintro n ⟨⟩, by rintro n ⟨⟩⟩
    change before + 1 ≤ bound
    omega

theorem body_length_le (raw : List Char) : (body raw).length ≤ raw.length :=
  (List.rdropWhile_prefix isLineEnd raw).length_le

theorem messages_within {c : Config} {source : String} {m : Message} (h : m ∈ messages c source) :
    Within (source.toList.length + 1) m := by
  obtain ⟨before, raw, after, lines, mem⟩ := mem_messagesFrom h
  have count := splitLines_length source.toList
  have inside := congrArg List.length (splitLines_flatten source.toList)
  have short := body_length_le raw
  rw [lines, List.length_append, List.length_cons] at count
  rw [lines, List.flatten_append, List.flatten_cons, List.length_append, List.length_append]
    at inside
  exact lineMessages_within mem (by omega) (by omega)

theorem cuts_le {source : List Char} {f : Fix} (h : Cuts source f) :
    f.start ≤ byteLength source ∧ f.stop ≤ byteLength source := by
  obtain ⟨before, cut, after, rfl, -, rfl⟩ := h
  simp only [byteLength_append]
  omega

theorem lineMessages_length (on : Enabled) (number start : Nat) (line : List Char) :
    (lineMessages on number start line).length ≤ 2 * line.length + 1 := by
  have one : ∀ found : Option Message, found.toList.length ≤ 1 := by
    intro found
    cases found <;> simp
  simp only [lineMessages, List.length_append]
  have first := one (on.trailing.bind (trailingMessage number start line))
  have second := one (on.maxLength.bind (lengthMessage number line))
  have third := one (on.tabs.bind (tabMessage number line))
  cases line with
  | cons c rest =>
    simp only [List.length_cons]
    omega
  | nil =>
    have none₁ : on.trailing.bind (trailingMessage number start []) = none := by
      cases on.trailing <;> simp [trailingMessage, content, dropEndWhile]
    have none₂ : on.maxLength.bind (lengthMessage number []) = none := by
      cases on.maxLength <;> simp [lengthMessage]
    have none₃ : on.tabs.bind (tabMessage number []) = none := by
      cases on.tabs <;> simp [tabMessage]
    simp [none₁, none₂, none₃]

theorem messagesFrom_length (on : Enabled) (number start : Nat) (lines : List (List Char)) :
    (messagesFrom on number start lines).length ≤
      (lines.map fun raw => 2 * (body raw).length + 1).sum := by
  induction lines generalizing number start with
  | nil => exact Nat.le_refl _
  | cons raw rest ih =>
    have here := lineMessages_length on number start (body raw)
    have below := ih (number + 1) (start + byteLength raw)
    simp only [messagesFrom, List.length_append, List.map_cons, List.sum_cons]
    omega

theorem body_cons_length (c : Char) (raw : List Char) :
    (body (c :: raw)).length ≤ (body raw).length + 1 := by
  have longer : ∀ text : List Char,
      ((text ++ [c]).dropWhile isLineEnd).length ≤ (text.dropWhile isLineEnd).length + 1 := by
    intro text
    induction text with
    | nil => cases h : isLineEnd c <;> simp [h]
    | cons d rest ih => cases h : isLineEnd d <;> simp_all
  simpa only [body, dropEndWhile, List.length_reverse, List.reverse_cons] using longer raw.reverse

theorem bodies_length (text : List Char) :
    ((splitLines text).map fun raw => 2 * (body raw).length + 1).sum ≤ 2 * text.length + 1 := by
  fun_induction splitLines text with
  | case1 => simp
  | case2 rest ih =>
    have none : (body ['\n']).length = 0 := by decide
    simp only [List.map_cons, List.sum_cons, none, List.length_cons]
    omega
  | case3 c rest other none ih =>
    have short := body_length_le [c]
    simp only [List.length_singleton] at short
    simp only [List.map_cons, List.map_nil, List.sum_cons, List.sum_nil, List.length_cons]
    omega
  | case4 c rest other line lines found ih =>
    have longer := body_cons_length c line
    rw [found] at ih
    simp only [List.map_cons, List.sum_cons, List.length_cons] at ih ⊢
    omega

theorem messages_length (c : Config) (source : String) :
    (messages c source).length ≤ 2 * source.toList.length + 1 :=
  Nat.le_trans (messagesFrom_length _ _ _ _) (bodies_length _)

theorem ofMessages_small {path : Path} {source : String} {c : Config} {found : List Message}
    (perm : found.Perm (messages c source))
    (short : 2 * byteLength source.toList < UInt64.size - 1) :
    (LintResult.ofMessages path found).Small := by
  have chars := length_le_byteLength source.toList
  have many := messages_length c source
  have count : ∀ p : Message → Bool, found.countP p < UInt64.size := by
    intro p
    have := (messages c source).countP_le_length (p := p)
    have := perm.countP_eq p
    omega
  refine ⟨?_, by rintro m ⟨⟩, count _, count _, count _, count _, count _⟩
  intro m hm
  have hm := perm.mem_iff.1 hm
  obtain ⟨line, column, endLine, endColumn⟩ := messages_within hm
  refine ⟨by omega, by omega, fun n hn => ?_, fun n hn => ?_, fun f hf => ?_⟩
  · have := endLine n hn
    omega
  · have := endColumn n hn
    omega
  · obtain ⟨start, stop⟩ := cuts_le (fix_cuts hm hf)
    exact ⟨by omega, by omega⟩

end TextRules
end ParallelLint
