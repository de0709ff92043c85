set_option autoImplicit false

namespace ParallelLint.Text

abbrev Bytes := List UInt8

def encode (text : List Char) : Bytes := text.flatMap String.utf8EncodeChar

def bytesOf (text : String) : Bytes := encode text.toList

/-- `badLength` is absent when the bytes end inside a sequence that more bytes could complete. -/
structure DecodeError where
  validUpTo : Nat
  badLength : Option Nat
  deriving DecidableEq, Repr

def DecodeError.message : DecodeError → String
  | ⟨start, some length⟩ => s!"invalid utf-8 sequence of {length} bytes from index {start}"
  | ⟨start, none⟩ => s!"incomplete utf-8 byte sequence from index {start}"

def isTail (b : UInt8) : Bool := 0x80 ≤ b && b ≤ 0xBF

def secondOfThree (a b : UInt8) : Bool :=
  if a = 0xE0 then 0xA0 ≤ b && b ≤ 0xBF
  else if a = 0xED then 0x80 ≤ b && b ≤ 0x9F
  else isTail b

def secondOfFour (a b : UInt8) : Bool :=
  if a = 0xF0 then 0x90 ≤ b && b ≤ 0xBF
  else if a = 0xF4 then 0x80 ≤ b && b ≤ 0x8F
  else isTail b

def twoByte (a b : UInt8) : Char :=
  Char.ofNat (a.toNat % 32 * 64 + b.toNat % 64)

def threeByte (a b c : UInt8) : Char :=
  Char.ofNat (a.toNat % 16 * 4096 + b.toNat % 64 * 64 + c.toNat % 64)

def fourByte (a b c d : UInt8) : Char :=
  Char.ofNat (a.toNat % 8 * 262144 + b.toNat % 64 * 4096 + c.toNat % 64 * 64 + d.toNat % 64)

def decodeFrom (start : Nat) : Bytes → Except DecodeError (List Char)
  | [] => .ok []
  | a :: rest =>
    if a < 0x80 then (Char.ofNat a.toNat :: ·) <$> decodeFrom (start + 1) rest
    else if 0xC2 ≤ a && a ≤ 0xDF then
      match rest with
      | [] => .error ⟨start, none⟩
      | b :: rest =>
        if isTail b then (twoByte a b :: ·) <$> decodeFrom (start + 2) rest
        else .error ⟨start, some 1⟩
    else if 0xE0 ≤ a && a ≤ 0xEF then
      match rest with
      | [] => .error ⟨start, none⟩
      | b :: rest =>
        if !secondOfThree a b then .error ⟨start, some 1⟩
        else match rest with
          | [] => .error ⟨start, none⟩
          | c :: rest =>
            if isTail c then (threeByte a b c :: ·) <$> decodeFrom (start + 3) rest
            else .error ⟨start, some 2⟩
    else if 0xF0 ≤ a && a ≤ 0xF4 then
      match rest with
      | [] => .error ⟨start, none⟩
      | b :: rest =>
        if !secondOfFour a b then .error ⟨start, some 1⟩
        else match rest with
          | [] => .error ⟨start, none⟩
          | c :: rest =>
            if !isTail c then .error ⟨start, some 2⟩
            else match rest with
              | [] => .error ⟨start, none⟩
              | d :: rest =>
                if isTail d then (fourByte a b c d :: ·) <$> decodeFrom (start + 4) rest
                else .error ⟨start, some 3⟩
    else .error ⟨start, some 1⟩

def decode (bytes : Bytes) : Except DecodeError String :=
  String.ofList <$> decodeFrom 0 bytes

end ParallelLint.Text
