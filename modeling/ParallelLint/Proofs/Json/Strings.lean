import ParallelLint.Json.Decode
import ParallelLint.Proofs.Text.Utf8

set_option autoImplicit false

namespace ParallelLint.Json
open ParallelLint.Text

def hasShortEscape (c : Char) : Bool :=
  c = '\x08' || c = '\x09' || c = '\x0a' || c = '\x0c' || c = '\x0d'

def piecesOfChar (c : Char) : List Piece :=
  if c.toNat < 32 && !hasShortEscape c then [.unit c.toNat]
  else (String.utf8EncodeChar c).map .byte

def piecesOf (text : List Char) : List Piece := text.flatMap piecesOfChar

/-- More pieces in front of a scanned string. -/
def withPieces (pieces : List Piece) (scanned : List Piece × Bytes) : List Piece × Bytes :=
  (pieces ++ scanned.1, scanned.2)

theorem scanString_quote (rest : Bytes) : scanString (0x22 :: rest) = some ([], rest) := by
  cases rest with
  | nil => simp [scanString]
  | cons e rest =>
    unfold scanString
    simp

theorem scanString_byte {b : UInt8} (low : 0x20 ≤ b.toNat) (quote : b ≠ 0x22) (slash : b ≠ 0x5C)
    (rest : Bytes) : scanString (b :: rest) = (scanString rest).map (withPieces [.byte b]) := by
  have above : ¬ b < 0x20 := by
    rw [UInt8.lt_iff_toNat_lt]
    simpa using low
  cases rest with
  | nil => simp [scanString, quote]
  | cons e rest =>
    conv => lhs; unfold scanString
    simp only [quote, above, slash, ne_eq, not_false_eq_true, ite_true, ite_false]
    rfl

theorem scanString_high {bytes : Bytes} (high : ∀ b ∈ bytes, 0x80 ≤ b.toNat) (rest : Bytes) :
    scanString (bytes ++ rest) = (scanString rest).map (withPieces (bytes.map .byte)) := by
  induction bytes with
  | nil =>
    rw [List.nil_append]
    cases scanString rest <;> rfl
  | cons b more ih =>
    have above := high b (by simp)
    have other : ∀ n, n < 0x80 → b.toNat ≠ n := fun n _ => by omega
    have quote : b ≠ 0x22 := fun same => other 0x22 (by omega) (by rw [same]; rfl)
    have slash : b ≠ 0x5C := fun same => other 0x5C (by omega) (by rw [same]; rfl)
    rw [List.cons_append, scanString_byte (by omega) quote slash,
      ih fun b hb => high b (List.mem_cons_of_mem _ hb)]
    cases scanString rest <;> rfl

theorem scanString_short {e b : UInt8} (escape : simpleEscape e = some b) (other : e ≠ 0x75)
    (rest : Bytes) :
    scanString (0x5C :: e :: rest) = (scanString rest).map (withPieces [.byte b]) := by
  conv => lhs; unfold scanString
  simp [other, escape]
  rfl

theorem scanString_unit {h₁ h₂ : UInt8} {n : Nat} (value : hexUnit 0x30 0x30 h₁ h₂ = some n)
    (rest : Bytes) :
    scanString (0x5C :: 0x75 :: 0x30 :: 0x30 :: h₁ :: h₂ :: rest) =
      (scanString rest).map (withPieces [.unit n]) := by
  conv => lhs; unfold scanString
  simp [value]
  rfl

theorem control_hex : ∀ n < 32, hexUnit 0x30 0x30 (UInt8.ofNat (hexDigit (n / 16)).toNat)
    (UInt8.ofNat (hexDigit (n % 16)).toNat) = some n := by decide

theorem hexDigit_ascii : ∀ n < 16, (hexDigit n).toNat < 0x80 := by decide

theorem scanString_escape (c : Char) (rest : Bytes) :
    scanString (encode (escape c) ++ rest) =
      (scanString rest).map (withPieces (piecesOfChar c)) := by
  unfold escape
  split
  · subst c
    exact scanString_short rfl (by decide) rest
  split
  · subst c
    exact scanString_short rfl (by decide) rest
  split
  · subst c
    exact scanString_short rfl (by decide) rest
  split
  · subst c
    exact scanString_short rfl (by decide) rest
  split
  · subst c
    exact scanString_short rfl (by decide) rest
  split
  · subst c
    exact scanString_short rfl (by decide) rest
  split
  · subst c
    exact scanString_short rfl (by decide) rest
  rename_i quote slash _ _ _ _ _
  have long : hasShortEscape c = false := by simp_all [hasShortEscape]
  split
  · rename_i control
    have scanned := scanString_unit (control_hex c.toNat control) rest
    rw [piecesOfChar, if_pos (by simp [control, long])]
    have first := encodeChar_ascii (hexDigit_ascii (c.toNat / 16) (by omega))
    have second := encodeChar_ascii (hexDigit_ascii (c.toNat % 16) (by omega))
    rw [← scanned]
    simp only [encode, List.flatMap_cons, List.flatMap_nil, first, second]
    rfl
  · rename_i plain
    rw [piecesOfChar, if_neg (by simp [plain])]
    rcases Nat.lt_or_ge c.toNat 0x80 with low | high
    · have byte := encodeChar_ascii low
      have value := toNat_ofNat (n := c.toNat) (by omega)
      have other : ∀ d : Char, d.toNat < 0x80 → c ≠ d → UInt8.ofNat c.toNat ≠ UInt8.ofNat d.toNat := by
        intro d small different same
        have same := congrArg UInt8.toNat same
        rw [value, toNat_ofNat (by omega)] at same
        exact different (Char.toNat_inj.1 same)
      simp only [encode, List.flatMap_cons, List.flatMap_nil, List.append_nil, byte, List.map_cons,
        List.map_nil, List.cons_append, List.nil_append]
      exact scanString_byte (by omega) (other '\x22' (by decide) quote)
        (other '\x5c' (by decide) slash) rest
    · simpa only [encode, List.flatMap_cons, List.flatMap_nil, List.append_nil] using
        scanString_high (encodeChar_high high) rest

theorem scanString_quoted (text : List Char) (rest : Bytes) :
    scanString (encode (text.flatMap escape) ++ 0x22 :: rest) = some (piecesOf text, rest) := by
  induction text with
  | nil => exact scanString_quote rest
  | cons c more ih =>
    calc scanString (encode ((c :: more).flatMap escape) ++ 0x22 :: rest)
        = scanString (encode (escape c) ++ (encode (more.flatMap escape) ++ 0x22 :: rest)) := by
          rw [List.flatMap_cons, encode_append, List.append_assoc]
      _ = (scanString (encode (more.flatMap escape) ++ 0x22 :: rest)).map
            (withPieces (piecesOfChar c)) := scanString_escape ..
      _ = some (piecesOf (c :: more), rest) := by
          rw [ih]
          rfl

theorem pieceBytes_bytes (bytes : Bytes) (rest : List Piece) :
    pieceBytes (bytes.map .byte ++ rest) = (pieceBytes rest).map (bytes ++ ·) := by
  induction bytes with
  | nil =>
    rw [List.map_nil, List.nil_append]
    cases pieceBytes rest <;> rfl
  | cons b more ih =>
    rw [List.map_cons, List.cons_append, pieceBytes, ih]
    cases pieceBytes rest <;> rfl

theorem pieceBytes_control {n : Nat} (control : n < 32) (rest : List Piece) :
    pieceBytes (.unit n :: rest) =
      (pieceBytes rest).map (String.utf8EncodeChar (Char.ofNat n) ++ ·) := by
  have high : isHighSurrogate n = false := by simp [isHighSurrogate]; omega
  have low : isLowSurrogate n = false := by simp [isLowSurrogate]; omega
  match rest with
  | [] => simp [pieceBytes, high, low]
  | .byte b :: rest => simp [pieceBytes, high, low]
  | .unit v :: rest => simp [pieceBytes, high, low]

theorem pieceBytes_char (c : Char) (rest : List Piece) :
    pieceBytes (piecesOfChar c ++ rest) =
      (pieceBytes rest).map (String.utf8EncodeChar c ++ ·) := by
  unfold piecesOfChar
  split
  · rename_i control
    simp only [Bool.and_eq_true, decide_eq_true_eq] at control
    rw [List.singleton_append, pieceBytes_control control.1, Char.ofNat_toNat]
  · exact pieceBytes_bytes _ rest

theorem pieceBytes_piecesOf (text : List Char) : pieceBytes (piecesOf text) = some (encode text) := by
  induction text with
  | nil => rfl
  | cons c rest ih =>
    change pieceBytes (piecesOfChar c ++ piecesOf rest) = _
    rw [pieceBytes_char, ih]
    rfl

theorem text_piecesOf (text : String) : text? (piecesOf text.toList) = some text := by
  rw [text?, pieceBytes_piecesOf]
  change (decode (bytesOf text)).toOption = some text
  rw [decode_bytesOf]
  rfl

end ParallelLint.Json
