import ParallelLint.Json.Value
import ParallelLint.Text.Utf8

set_option autoImplicit false

/-!
The tokens of a JSON text. Strings and numbers stay as they are written, since a reader that skips
a value checks its form but not whether its escapes make characters or its digits fit.
-/
namespace ParallelLint.Json
open ParallelLint.Text

/-- A byte of a string, or a UTF-16 unit written as four hexadecimal digits. -/
inductive Piece where
  | byte (b : UInt8)
  | unit (u : Nat)
  deriving DecidableEq, Repr

structure NumberForm where
  negative : Bool
  whole : List Char
  fraction : Option (List Char)
  exponent : Option (Bool × List Char)
  deriving DecidableEq, Repr

inductive Token where
  | openBrace | closeBrace | openBracket | closeBracket | comma | colon
  | null
  | bool (b : Bool)
  | number (form : NumberForm)
  | string (pieces : List Piece)
  deriving DecidableEq, Repr

def isSpace (b : UInt8) : Bool := b = 0x20 || b = 0x0A || b = 0x0D || b = 0x09

def simpleEscape (b : UInt8) : Option UInt8 :=
  if b = 0x22 || b = 0x5C || b = 0x2F then some b
  else if b = 0x62 then some 0x08
  else if b = 0x66 then some 0x0C
  else if b = 0x6E then some 0x0A
  else if b = 0x72 then some 0x0D
  else if b = 0x74 then some 0x09
  else none

def hexUnit (a b c d : UInt8) : Option Nat :=
  hexNumber? ([a, b, c, d].map fun x => Char.ofNat x.toNat)

def scanString : Bytes → Option (List Piece × Bytes)
  | [] => none
  | [b] => if b = 0x22 then some ([], []) else none
  | b :: e :: rest =>
    if b = 0x22 then some ([], e :: rest)
    else if b < 0x20 then none
    else if b ≠ 0x5C then
      (scanString (e :: rest)).map fun s => (.byte b :: s.1, s.2)
    else if e = 0x75 then
      match rest with
      | h₁ :: h₂ :: h₃ :: h₄ :: rest =>
        match hexUnit h₁ h₂ h₃ h₄ with
        | some u => (scanString rest).map fun s => (.unit u :: s.1, s.2)
        | none => none
      | _ => none
    else
      match simpleEscape e with
      | some c => (scanString rest).map fun s => (.byte c :: s.1, s.2)
      | none => none

def isDigitByte (b : UInt8) : Bool := 0x30 ≤ b && b ≤ 0x39

def digitsOf (bytes : Bytes) : List Char :=
  (bytes.takeWhile isDigitByte).map fun b => Char.ofNat b.toNat

def afterDigits (bytes : Bytes) : Bytes := bytes.dropWhile isDigitByte

def scanWhole (bytes : Bytes) : Option (List Char × Bytes) :=
  match digitsOf bytes with
  | [] => none
  | '0' :: _ :: _ => none
  | digits => some (digits, afterDigits bytes)

def scanFraction : Bytes → Option (Option (List Char) × Bytes)
  | 0x2E :: rest =>
    if (digitsOf rest).isEmpty then none else some (some (digitsOf rest), afterDigits rest)
  | rest => some (none, rest)

def scanPower (negative : Bool) (bytes : Bytes) :
    Option (Option (Bool × List Char) × Bytes) :=
  if (digitsOf bytes).isEmpty then none
  else some (some (negative, digitsOf bytes), afterDigits bytes)

def scanExponent : Bytes → Option (Option (Bool × List Char) × Bytes)
  | 0x65 :: 0x2D :: rest | 0x45 :: 0x2D :: rest => scanPower true rest
  | 0x65 :: 0x2B :: rest | 0x45 :: 0x2B :: rest => scanPower false rest
  | 0x65 :: rest | 0x45 :: rest => scanPower false rest
  | rest => some (none, rest)

def scanMagnitude (negative : Bool) (bytes : Bytes) : Option (NumberForm × Bytes) := do
  let (whole, rest) ← scanWhole bytes
  let (fraction, rest) ← scanFraction rest
  let (exponent, rest) ← scanExponent rest
  pure (⟨negative, whole, fraction, exponent⟩, rest)

def scanNumber : Bytes → Option (NumberForm × Bytes)
  | 0x2D :: rest => scanMagnitude true rest
  | rest => scanMagnitude false rest

def punctuation? (b : UInt8) : Option Token :=
  if b = 0x7B then some .openBrace
  else if b = 0x7D then some .closeBrace
  else if b = 0x5B then some .openBracket
  else if b = 0x5D then some .closeBracket
  else if b = 0x2C then some .comma
  else if b = 0x3A then some .colon
  else none

def scanPlain : Bytes → Option (Token × Bytes)
  | 0x6E :: 0x75 :: 0x6C :: 0x6C :: rest => some (.null, rest)
  | 0x74 :: 0x72 :: 0x75 :: 0x65 :: rest => some (.bool true, rest)
  | 0x66 :: 0x61 :: 0x6C :: 0x73 :: 0x65 :: rest => some (.bool false, rest)
  | [] => none
  | b :: rest =>
    match punctuation? b with
    | some t => some (t, rest)
    | none => (scanNumber (b :: rest)).map fun s => (.number s.1, s.2)

def scan : Nat → Bytes → Option (List Token)
  | _, [] => some []
  | 0, _ => none
  | fuel + 1, b :: rest =>
    if isSpace b then scan fuel rest
    else if b = 0x22 then
      match scanString rest with
      | some (pieces, rest) => (scan fuel rest).map (.string pieces :: ·)
      | none => none
    else
      match scanPlain (b :: rest) with
      | some (t, rest) => (scan fuel rest).map (t :: ·)
      | none => none

/-- Every token takes a byte or more, so there are no more steps than bytes. -/
def tokens? (bytes : Bytes) : Option (List Token) := scan bytes.length bytes

end ParallelLint.Json
