import ParallelLint.Text.Utf8

set_option autoImplicit false

namespace ParallelLint.Text

theorem toNat_ofNat {n : Nat} (h : n < 256) : (UInt8.ofNat n).toNat = n := by
  simp only [UInt8.toNat_ofNat', Nat.mod_eq_of_lt h]

theorem encode_cons (c : Char) (text : List Char) :
    encode (c :: text) = String.utf8EncodeChar c ++ encode text := rfl

theorem encode_append (text more : List Char) :
    encode (text ++ more) = encode text ++ encode more := by
  simp only [encode, List.flatMap_append]

theorem char_valid (c : Char) :
    c.toNat < 0xD800 ∨ (0xDFFF < c.toNat ∧ c.toNat < 0x110000) := c.valid

theorem decodeFrom_one {n : Nat} (h : n < 0x80) (start : Nat) (rest : Bytes) :
    decodeFrom start (UInt8.ofNat n :: rest) =
      (Char.ofNat n :: ·) <$> decodeFrom (start + 1) rest := by
  have first := toNat_ofNat (n := n) (by omega)
  conv => lhs; unfold decodeFrom
  simp only [UInt8.lt_iff_toNat_lt, first, UInt8.reduceToNat, h, ite_true]

theorem isTail_iff (b : UInt8) : isTail b = true ↔ 0x80 ≤ b.toNat ∧ b.toNat ≤ 0xBF := by
  simp only [isTail, Bool.and_eq_true, decide_eq_true_eq, UInt8.le_iff_toNat_le,
    UInt8.reduceToNat]

theorem isTail_ofNat (n : Nat) : isTail (UInt8.ofNat (n % 64 + 128)) = true := by
  rw [isTail_iff, toNat_ofNat (by omega)]
  omega

theorem decodeFrom_two {n : Nat} (low : 0x7f < n) (high : n ≤ 0x7ff) (start : Nat)
    (rest : Bytes) :
    decodeFrom start (UInt8.ofNat (n / 64 % 32 + 0xc0) :: UInt8.ofNat (n % 64 + 0x80) :: rest) =
      (Char.ofNat n :: ·) <$> decodeFrom (start + 2) rest := by
  have first := toNat_ofNat (n := n / 64 % 32 + 0xc0) (by omega)
  have second := toNat_ofNat (n := n % 64 + 0x80) (by omega)
  have tail := isTail_ofNat n
  have a : ¬ n / 64 % 32 + 192 < 128 := by omega
  have b : 194 ≤ n / 64 % 32 + 192 ∧ n / 64 % 32 + 192 ≤ 223 := by omega
  have value : (n / 64 % 32 + 192) % 32 * 64 + (n % 64 + 128) % 64 = n := by omega
  conv => lhs; unfold decodeFrom
  simp only [UInt8.lt_iff_toNat_lt, UInt8.le_iff_toNat_le, first, UInt8.reduceToNat,
    a, b, ite_true, ite_false, decide_true, Bool.and_self, tail, twoByte, second, value]

theorem decodeFrom_three {n : Nat} (low : 0x7ff < n) (high : n ≤ 0xffff)
    (valid : n < 0xD800 ∨ 0xDFFF < n) (start : Nat) (rest : Bytes) :
    decodeFrom start (UInt8.ofNat (n / 4096 % 16 + 0xe0) :: UInt8.ofNat (n / 64 % 64 + 0x80) ::
      UInt8.ofNat (n % 64 + 0x80) :: rest) = (Char.ofNat n :: ·) <$> decodeFrom (start + 3) rest := by
  have first := toNat_ofNat (n := n / 4096 % 16 + 0xe0) (by omega)
  have second := toNat_ofNat (n := n / 64 % 64 + 0x80) (by omega)
  have third := toNat_ofNat (n := n % 64 + 0x80) (by omega)
  have tail := isTail_ofNat n
  have a : ¬ n / 4096 % 16 + 224 < 128 := by omega
  have b : ¬ n / 4096 % 16 + 224 ≤ 223 := by omega
  have c : 224 ≤ n / 4096 % 16 + 224 ∧ n / 4096 % 16 + 224 ≤ 239 := by omega
  have value : (n / 4096 % 16 + 224) % 16 * 4096 + (n / 64 % 64 + 128) % 64 * 64 +
      (n % 64 + 128) % 64 = n := by omega
  have inner : secondOfThree (UInt8.ofNat (n / 4096 % 16 + 0xe0))
      (UInt8.ofNat (n / 64 % 64 + 0x80)) = true := by
    unfold secondOfThree
    simp only [← UInt8.toNat_inj, isTail, UInt8.le_iff_toNat_le, first, second, UInt8.reduceToNat]
    split
    · rw [Bool.and_eq_true, decide_eq_true_eq, decide_eq_true_eq]
      omega
    split
    · rw [Bool.and_eq_true, decide_eq_true_eq, decide_eq_true_eq]
      omega
    · rw [Bool.and_eq_true, decide_eq_true_eq, decide_eq_true_eq]
      omega
  conv => lhs; unfold decodeFrom
  simp only [UInt8.lt_iff_toNat_lt, UInt8.le_iff_toNat_le, first, UInt8.reduceToNat,
    a, b, c, ite_true, ite_false, decide_true, decide_false, Bool.and_self, Bool.and_false,
    Bool.false_eq_true, inner, Bool.not_true, tail, threeByte, second, third, value]

theorem decodeFrom_four {n : Nat} (low : 0xffff < n) (high : n < 0x110000) (start : Nat)
    (rest : Bytes) :
    decodeFrom start (UInt8.ofNat (n / 262144 % 8 + 0xf0) ::
      UInt8.ofNat (n / 4096 % 64 + 0x80) :: UInt8.ofNat (n / 64 % 64 + 0x80) ::
      UInt8.ofNat (n % 64 + 0x80) :: rest) = (Char.ofNat n :: ·) <$> decodeFrom (start + 4) rest := by
  have first := toNat_ofNat (n := n / 262144 % 8 + 0xf0) (by omega)
  have second := toNat_ofNat (n := n / 4096 % 64 + 0x80) (by omega)
  have third := toNat_ofNat (n := n / 64 % 64 + 0x80) (by omega)
  have fourth := toNat_ofNat (n := n % 64 + 0x80) (by omega)
  have tail := isTail_ofNat n
  have tail' := isTail_ofNat (n / 64)
  have a : ¬ n / 262144 % 8 + 240 < 128 := by omega
  have b : ¬ n / 262144 % 8 + 240 ≤ 223 := by omega
  have c : ¬ n / 262144 % 8 + 240 ≤ 239 := by omega
  have d : 240 ≤ n / 262144 % 8 + 240 ∧ n / 262144 % 8 + 240 ≤ 244 := by omega
  have value : (n / 262144 % 8 + 240) % 8 * 262144 + (n / 4096 % 64 + 128) % 64 * 4096 +
      (n / 64 % 64 + 128) % 64 * 64 + (n % 64 + 128) % 64 = n := by omega
  have inner : secondOfFour (UInt8.ofNat (n / 262144 % 8 + 0xf0))
      (UInt8.ofNat (n / 4096 % 64 + 0x80)) = true := by
    unfold secondOfFour
    simp only [← UInt8.toNat_inj, isTail, UInt8.le_iff_toNat_le, first, second, UInt8.reduceToNat]
    split
    · rw [Bool.and_eq_true, decide_eq_true_eq, decide_eq_true_eq]
      omega
    split
    · rw [Bool.and_eq_true, decide_eq_true_eq, decide_eq_true_eq]
      omega
    · rw [Bool.and_eq_true, decide_eq_true_eq, decide_eq_true_eq]
      omega
  conv => lhs; unfold decodeFrom
  simp only [UInt8.lt_iff_toNat_lt, UInt8.le_iff_toNat_le, first, UInt8.reduceToNat,
    a, b, c, d, ite_true, ite_false, decide_true, decide_false, Bool.and_self, Bool.and_false,
    Bool.false_eq_true, inner, Bool.not_true, tail, tail', fourByte, second, third, fourth, value]

theorem decodeFrom_char (start : Nat) (c : Char) (rest : Bytes) :
    ∃ next, decodeFrom start (String.utf8EncodeChar c ++ rest) =
      (c :: ·) <$> decodeFrom next rest := by
  have valid := char_valid c
  have same : Char.ofNat c.toNat = c := Char.ofNat_toNat c
  change ∃ next, decodeFrom start ((if c.toNat ≤ 0x7f then _ else if c.toNat ≤ 0x7ff then _ else
    if c.toNat ≤ 0xffff then _ else _) ++ rest) = _
  split
  · have read := decodeFrom_one (n := c.toNat) (by omega) start rest
    rw [same] at read
    exact ⟨_, read⟩
  split
  · have read := decodeFrom_two (n := c.toNat) (by omega) (by omega) start rest
    rw [same] at read
    exact ⟨_, read⟩
  split
  · have read := decodeFrom_three (n := c.toNat) (by omega) (by omega) (by omega) start rest
    rw [same] at read
    exact ⟨_, read⟩
  · have read := decodeFrom_four (n := c.toNat) (by omega) (by omega) start rest
    rw [same] at read
    exact ⟨_, read⟩

theorem decodeFrom_encode (start : Nat) (text : List Char) :
    decodeFrom start (encode text) = .ok text := by
  induction text generalizing start with
  | nil => rfl
  | cons c rest ih =>
    obtain ⟨next, read⟩ := decodeFrom_char start c (encode rest)
    rw [encode_cons, read, ih]
    rfl

theorem decode_bytesOf (text : String) : decode (bytesOf text) = .ok text := by
  rw [decode, bytesOf, decodeFrom_encode]
  change Except.ok (String.ofList text.toList) = _
  rw [String.ofList_toList]

theorem bytesOf_injective {text more : String} (h : bytesOf text = bytesOf more) : text = more := by
  have same := decode_bytesOf text
  rw [h, decode_bytesOf] at same
  exact (Except.ok.inj same).symm

theorem encodeChar_high {c : Char} (h : 0x80 ≤ c.toNat) :
    ∀ b ∈ String.utf8EncodeChar c, 0x80 ≤ b.toNat := by
  have tail : ∀ n, 0x80 ≤ (UInt8.ofNat (n % 64 + 0x80)).toNat := fun n => by
    rw [toNat_ofNat (by omega)]
    omega
  have lead : ∀ n m, 0x80 ≤ m → m + n < 256 → 0x80 ≤ (UInt8.ofNat (n + m)).toNat := fun n m _ _ => by
    rw [toNat_ofNat (by omega)]
    omega
  change ∀ b ∈ (if c.toNat ≤ 0x7f then _ else if c.toNat ≤ 0x7ff then _ else
    if c.toNat ≤ 0xffff then _ else _), _
  rw [if_neg (by omega)]
  split
  · simp only [List.mem_cons, List.not_mem_nil, or_false, forall_eq_or_imp, forall_eq]
    exact ⟨lead _ _ (by omega) (by omega), tail _⟩
  split
  · simp only [List.mem_cons, List.not_mem_nil, or_false, forall_eq_or_imp, forall_eq]
    exact ⟨lead _ _ (by omega) (by omega), tail _, tail _⟩
  · simp only [List.mem_cons, List.not_mem_nil, or_false, forall_eq_or_imp, forall_eq]
    exact ⟨lead _ _ (by omega) (by omega), tail _, tail _, tail _⟩

theorem encodeChar_ascii {c : Char} (h : c.toNat < 0x80) :
    String.utf8EncodeChar c = [UInt8.ofNat c.toNat] := by
  change (if c.toNat ≤ 0x7f then _ else _) = _
  rw [if_pos (by omega)]
  rfl

theorem encodeChar_own {c d : Char} (ascii : c.toNat < 0x80)
    (h : UInt8.ofNat c.toNat ∈ String.utf8EncodeChar d) : d = c := by
  have byte := toNat_ofNat (n := c.toNat) (by omega)
  by_cases low : d.toNat < 0x80
  · rw [encodeChar_ascii low, List.mem_singleton] at h
    rw [h, toNat_ofNat (by omega)] at byte
    exact Char.toNat_inj.1 byte
  · have high := encodeChar_high (Nat.le_of_not_lt low) _ h
    omega

theorem encodeChar_ne_nil (c : Char) : String.utf8EncodeChar c ≠ [] := by
  intro none
  have size := String.length_utf8EncodeChar c
  rw [none] at size
  exact absurd size (Nat.ne_of_lt c.utf8Size_pos)

theorem encode_head {text : List Char} {c : Char} (ascii : c.toNat < 0x80) {rest : Bytes}
    (h : encode text = UInt8.ofNat c.toNat :: rest) :
    ∃ more, text = c :: more ∧ encode more = rest := by
  cases text with
  | nil => cases h
  | cons d more =>
    rw [encode_cons] at h
    obtain ⟨b, bytes, own⟩ := List.exists_cons_of_ne_nil (encodeChar_ne_nil d)
    have first : b = UInt8.ofNat c.toNat := by
      rw [own] at h
      exact (List.cons.inj h).1
    obtain rfl : d = c := encodeChar_own ascii (own ▸ first ▸ List.mem_cons_self ..)
    rw [encodeChar_ascii ascii] at h
    exact ⟨more, rfl, (List.cons.inj h).2⟩

theorem encode_last {text : List Char} {c : Char} (ascii : c.toNat < 0x80)
    (h : (encode text).getLast? = some (UInt8.ofNat c.toNat)) : text.getLast? = some c := by
  rcases List.eq_nil_or_concat text with rfl | ⟨front, d, rfl⟩
  · cases h
  · rw [List.concat_eq_append] at h ⊢
    have single : encode [d] = String.utf8EncodeChar d := List.append_nil _
    rw [encode_append, single, List.getLast?_append,
      List.getLast?_eq_some_getLast (encodeChar_ne_nil d), Option.some_or, Option.some.injEq] at h
    have own : d = c := encodeChar_own ascii (h ▸ List.getLast_mem (encodeChar_ne_nil d))
    rw [own, List.getLast?_concat]

end ParallelLint.Text
