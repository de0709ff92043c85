import ParallelLint.Json.Decode
import ParallelLint.Proofs.Text.Utf8

set_option autoImplicit false

namespace ParallelLint.Json
open ParallelLint.Text

def formOfNatural (n : Nat) : NumberForm := ⟨false, Nat.toDigits 10 n, none, none⟩

/-- What a number ends at. -/
def Stops (rest : Bytes) : Prop :=
  ∀ b ∈ rest.head?, isDigitByte b = false ∧ b ≠ 0x2E ∧ b ≠ 0x65 ∧ b ≠ 0x45

theorem isDigit_toDigits {n : Nat} : ∀ c ∈ Nat.toDigits 10 n, c.isDigit = true :=
  fun _ hc => Nat.isDigit_of_mem_toDigits (by omega) (by omega) hc

theorem digit_toNat {c : Char} (h : c.isDigit = true) : 48 ≤ c.toNat ∧ c.toNat ≤ 57 := by
  simp only [Char.isDigit, Bool.and_eq_true, decide_eq_true_eq, UInt32.le_iff_toNat_le] at h
  exact h

theorem toDigits_zero_head {n : Nat} {rest : List Char} (h : Nat.toDigits 10 n = '0' :: rest) :
    rest = [] := by
  induction n using Nat.strongRecOn generalizing rest with
  | ind n ih =>
    rw [Nat.toDigits_eq_if (by omega)] at h
    split at h
    · exact (List.cons.inj h).2.symm
    · rename_i large
      cases before : Nat.toDigits 10 (n / 10) with
      | nil => exact absurd before Nat.toDigits_ne_nil
      | cons c more =>
        rw [before, List.cons_append] at h
        obtain ⟨rfl, -⟩ := List.cons.inj h
        have none := ih (n / 10) (by omega) before
        have value := Nat.ofDigitChars_ten_toDigits (n := n / 10)
        rw [before, none] at value
        have zero : Nat.ofDigitChars 10 ['0'] 0 = 0 := by decide
        omega

theorem encode_digits {digits : List Char} (h : ∀ c ∈ digits, c.isDigit = true) :
    encode digits = digits.map fun c => UInt8.ofNat c.toNat := by
  induction digits with
  | nil => rfl
  | cons c rest ih =>
    have small := digit_toNat (h c (by simp))
    rw [encode_cons, encodeChar_ascii (by omega), ih fun c hc => h c (List.mem_cons_of_mem _ hc)]
    rfl

theorem isDigitByte_digit {c : Char} (h : c.isDigit = true) :
    isDigitByte (UInt8.ofNat c.toNat) = true := by
  have small := digit_toNat h
  simp only [isDigitByte, Bool.and_eq_true, decide_eq_true_eq, UInt8.le_iff_toNat_le,
    toNat_ofNat (show c.toNat < 256 by omega)]
  exact small

theorem span_digits {digits : List Char} (h : ∀ c ∈ digits, c.isDigit = true) {rest : Bytes}
    (stops : Stops rest) :
    digitsOf (encode digits ++ rest) = digits ∧ afterDigits (encode digits ++ rest) = rest := by
  have all : ∀ b ∈ encode digits, isDigitByte b = true := by
    rw [encode_digits h]
    intro b hb
    obtain ⟨c, hc, rfl⟩ := List.mem_map.1 hb
    exact isDigitByte_digit (h c hc)
  have none : rest.takeWhile isDigitByte = [] ∧ rest.dropWhile isDigitByte = rest := by
    cases rest with
    | nil => exact ⟨rfl, rfl⟩
    | cons b rest =>
      have other := (stops b rfl).1
      simp [other]
  constructor
  · rw [digitsOf, List.takeWhile_append_of_pos all, none.1, List.append_nil, encode_digits h,
      List.map_map]
    refine (List.map_congr_left fun c hc => ?_).trans (List.map_id digits)
    have small := digit_toNat (h c hc)
    change Char.ofNat (UInt8.ofNat c.toNat).toNat = c
    rw [toNat_ofNat (by omega), Char.ofNat_toNat]
  · rw [afterDigits, List.dropWhile_append_of_pos all, none.2]

theorem scanWhole_natural (n : Nat) {rest : Bytes} (stops : Stops rest) :
    scanWhole (encode (Nat.toDigits 10 n) ++ rest) = some (Nat.toDigits 10 n, rest) := by
  obtain ⟨digits, after⟩ := span_digits (isDigit_toDigits (n := n)) stops
  unfold scanWhole
  rw [digits, after]
  split
  · rename_i none
    exact absurd none Nat.toDigits_ne_nil
  · rename_i more
    exact absurd (toDigits_zero_head more) (List.cons_ne_nil _ _)
  · rfl

theorem scanFraction_stops {rest : Bytes} (stops : Stops rest) :
    scanFraction rest = some (none, rest) := by
  unfold scanFraction
  split
  · exact absurd rfl (stops _ rfl).2.1
  · rfl

theorem scanExponent_stops {rest : Bytes} (stops : Stops rest) :
    scanExponent rest = some (none, rest) := by
  unfold scanExponent
  split
  · exact absurd rfl (stops _ rfl).2.2.1
  · exact absurd rfl (stops _ rfl).2.2.2
  · exact absurd rfl (stops _ rfl).2.2.1
  · exact absurd rfl (stops _ rfl).2.2.2
  · exact absurd rfl (stops _ rfl).2.2.1
  · exact absurd rfl (stops _ rfl).2.2.2
  · rfl

theorem scanMagnitude_natural (n : Nat) {rest : Bytes} (stops : Stops rest) :
    scanMagnitude false (encode (Nat.toDigits 10 n) ++ rest) = some (formOfNatural n, rest) := by
  simp only [scanMagnitude, scanWhole_natural n stops, Option.bind_eq_bind, Option.bind_some,
    scanFraction_stops stops, scanExponent_stops stops, Option.pure_def, formOfNatural]

theorem encode_natural (n : Nat) : ∃ (c : Char) (more : Bytes), c.isDigit = true ∧
    encode (Nat.toDigits 10 n) = UInt8.ofNat c.toNat :: more := by
  rw [encode_digits isDigit_toDigits]
  cases h : Nat.toDigits 10 n with
  | nil => exact absurd h Nat.toDigits_ne_nil
  | cons c more => exact ⟨c, _, isDigit_toDigits (n := n) c (by simp [h]), rfl⟩

theorem digit_byte_ne {c : Char} (h : c.isDigit = true) {b : UInt8}
    (other : b.toNat < 48 ∨ 57 < b.toNat) : UInt8.ofNat c.toNat ≠ b := by
  intro same
  have range := digit_toNat h
  rw [← same, toNat_ofNat (by omega)] at other
  omega

theorem scanNumber_natural (n : Nat) {rest : Bytes} (stops : Stops rest) :
    scanNumber (encode (Nat.toDigits 10 n) ++ rest) = some (formOfNatural n, rest) := by
  rw [← scanMagnitude_natural n stops]
  obtain ⟨c, more, digit, bytes⟩ := encode_natural n
  rw [bytes, List.cons_append]
  unfold scanNumber
  split
  · rename_i minus
    exact absurd (List.cons.inj minus).1 (digit_byte_ne digit (by decide))
  · rfl

theorem scanPlain_natural (n : Nat) {rest : Bytes} (stops : Stops rest) :
    scanPlain (encode (Nat.toDigits 10 n) ++ rest) =
      some (.number (formOfNatural n), rest) := by
  have number := scanNumber_natural n stops
  obtain ⟨c, more, digit, bytes⟩ := encode_natural n
  rw [bytes, List.cons_append] at number ⊢
  have other : ∀ b : UInt8, b.toNat < 48 ∨ 57 < b.toNat → UInt8.ofNat c.toNat ≠ b :=
    fun b => digit_byte_ne digit
  have none : punctuation? (UInt8.ofNat c.toNat) = none := by
    unfold punctuation?
    rw [if_neg (other 0x7B (by decide)), if_neg (other 0x7D (by decide)),
      if_neg (other 0x5B (by decide)), if_neg (other 0x5D (by decide)),
      if_neg (other 0x2C (by decide)), if_neg (other 0x3A (by decide))]
  unfold scanPlain
  split
  · rename_i word
    exact absurd (List.cons.inj word).1 (other 0x6E (by decide))
  · rename_i word
    exact absurd (List.cons.inj word).1 (other 0x74 (by decide))
  · rename_i word
    exact absurd (List.cons.inj word).1 (other 0x66 (by decide))
  · rename_i empty
    cases empty
  · rename_i head
    obtain ⟨rfl, rfl⟩ := List.cons.inj head
    simp only [none, number, Option.map_some]

theorem absorb_digits {digits : List Char} {n : Nat}
    (small : Nat.ofDigitChars 10 digits n ≤ maxNatural) :
    absorb n digits = (Nat.ofDigitChars 10 digits n, []) := by
  induction digits generalizing n with
  | nil => rfl
  | cons c rest ih =>
    rw [Nat.ofDigitChars_cons] at small ⊢
    have whole := @Nat.ofDigitChars_eq_ofDigitChars_zero rest (10 * n + (c.toNat - '0'.toNat))
    have positive := Nat.pow_pos (n := rest.length) (show 0 < 10 by omega)
    have grows := Nat.le_mul_of_pos_left (10 * n + (c.toNat - '0'.toNat)) positive
    have step : n * 10 + Number.digitValue c = 10 * n + (c.toNat - '0'.toNat) := by
      rw [Nat.mul_comm]
      rfl
    rw [absorb, step, if_pos (by omega)]
    exact ih small

theorem numberOf_natural {n : Nat} (small : n < UInt64.size) :
    numberOf (formOfNatural n) = some (.natural n) := by
  have value := Nat.ofDigitChars_ten_toDigits (n := n)
  have whole : absorb 0 (Nat.toDigits 10 n) = (n, []) := by
    rw [absorb_digits (by rw [value]; unfold maxNatural; omega), value]
  simp only [numberOf, formOfNatural, whole]
  rfl

theorem readNatural_form {n : Nat} (small : n < UInt64.size) (depth : Nat) :
    readNatural depth (.number (formOfNatural n)) = some n := by
  rw [readNatural, numberOf_natural small]

end ParallelLint.Json
