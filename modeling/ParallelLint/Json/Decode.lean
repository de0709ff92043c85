import ParallelLint.Json.Tree

set_option autoImplicit false

/-!
Typed reading of JSON trees. Containers may be nested 127 deep wherever their content is looked
at; what a reader skips may be nested to any depth. Records are read from an object, where unknown
fields are skipped and no known one may occur twice, or from an array of the fields in order.
-/
namespace ParallelLint.Json
open ParallelLint.Text ParallelLint.Number

/-- Reads a tree below which so many containers may still be opened. -/
abbrev Decoder (α : Type) := Nat → Tree → Option α

def nestingLimit : Nat := 127

def isHighSurrogate (u : Nat) : Bool := 0xD800 ≤ u && u ≤ 0xDBFF
def isLowSurrogate (u : Nat) : Bool := 0xDC00 ≤ u && u ≤ 0xDFFF

/-- Surrogates must come in pairs. -/
def pieceBytes : List Piece → Option Bytes
  | [] => some []
  | .byte b :: rest => (pieceBytes rest).map (b :: ·)
  | .unit u :: .unit v :: rest =>
    if isHighSurrogate u then
      if isLowSurrogate v then
        let c := Char.ofNat (0x10000 + (u - 0xD800) * 1024 + (v - 0xDC00))
        (pieceBytes rest).map (String.utf8EncodeChar c ++ ·)
      else none
    else if isLowSurrogate u then none
    else (pieceBytes (.unit v :: rest)).map (String.utf8EncodeChar (Char.ofNat u) ++ ·)
  | .unit u :: rest =>
    if isHighSurrogate u || isLowSurrogate u then none
    else (pieceBytes rest).map (String.utf8EncodeChar (Char.ofNat u) ++ ·)

def text? (pieces : List Piece) : Option String :=
  (pieceBytes pieces).bind fun bytes => (decode bytes).toOption

def maxNatural : Nat := UInt64.size - 1

def absorb (n : Nat) : List Char → Nat × List Char
  | [] => (n, [])
  | c :: rest =>
    let m := n * 10 + digitValue c
    if m ≤ maxNatural then absorb m rest else (n, c :: rest)

def powerOfTen (n : Nat) : Option Binary64 := Binary64.ofRatio false (Nat.pow 10 n) 1

/-- Scales by ten to a power in one rounded step of at most 308 places at a time. Below the least
number the result is zero, beyond the largest there is none. -/
def scaleByTen (x : Binary64) (e : Int) : Nat → Option Binary64
  | 0 => some (Binary64.zero false)
  | fuel + 1 =>
    if e.natAbs ≤ 308 then
      (powerOfTen e.natAbs).bind fun p => if 0 ≤ e then x.mul p else x.div p
    else if x.isZero then some x
    else if 0 ≤ e then none
    else ((powerOfTen 308).bind x.div).bind fun y => scaleByTen y (e + 308) fuel

def signed (negative : Bool) (x : Binary64) : Number := .float { x with negative }

/-- The significant digits that fit 64 bits, scaled. Three steps take any of them to zero. -/
def floatOf (negative : Bool) (significand : Nat) (e : Int) : Option Number := do
  let x ← Binary64.ofNat significand
  let y ← scaleByTen x e 4
  pure (signed negative y)

/-- Integers are kept exactly when 64 bits hold them; minus zero is a binary64 number. -/
def integerOf (negative : Bool) (n : Nat) : Option Number :=
  if !negative then some (.natural n)
  else if n = 0 || 1 <<< 63 < n then (Binary64.ofNat n).map (signed true)
  else some (.negative n)

def numberOf (form : NumberForm) : Option Number :=
  let whole := absorb 0 form.whole
  let fraction := form.fraction.getD []
  let all := absorb whole.1 fraction
  let e : Int := whole.2.length - (fraction.length - all.2.length : Nat)
  match form.exponent with
  | some (down, digits) =>
    let power := natOfDigits digits
    if 1 <<< 31 ≤ power then
      if all.1 ≠ 0 && !down then none else some (signed form.negative (Binary64.zero false))
    else floatOf form.negative all.1 (if down then e - power else e + power)
  | none =>
    if form.fraction.isNone && whole.2.isEmpty then integerOf form.negative whole.1
    else floatOf form.negative all.1 e

def readString : Decoder String
  | _, .string pieces => text? pieces
  | _, _ => none

def readBool : Decoder Bool
  | _, .bool b => some b
  | _, _ => none

def readNatural : Decoder Nat
  | _, .number form =>
    match numberOf form with
    | some (.natural n) => some n
    | _ => none
  | _, _ => none

def Number.toExtended : Number → Extended
  | .natural n => Extended.ofDecimal false n 0
  | .negative n => Extended.ofDecimal true n 0
  | .float x => .finite x

def readOption {α : Type} (read : Decoder α) : Decoder (Option α)
  | _, .null => some none
  | depth, tree => (read depth tree).map some

def readList {α : Type} (read : Decoder α) : Decoder (List α)
  | depth + 1, .array items => items.mapM (read depth)
  | _, _ => none

def readFields {α : Type} (read : Decoder α) : Decoder (List (String × α))
  | depth + 1, .object fields => fields.mapM fun field => do
      let name ← text? field.1
      let value ← read depth field.2
      pure (name, value)
  | _, _ => none

/-- The fields of a record by position, and the depth left below it. An array must have at least
the `needed` first ones, and no more than there are names. -/
def readRecord (names : List String) (needed : Nat) :
    Decoder (Nat × List (Option Tree))
  | depth + 1, .array items =>
    if items.length < needed || names.length < items.length then none
    else some (depth, items.map some ++ List.replicate (names.length - items.length) none)
  | depth + 1, .object fields => do
    let named ← fields.mapM fun field => (text? field.1).map fun name => (name, field.2)
    if names.any fun name => 1 < named.countP fun field => field.1 = name then none
    else some (depth, names.map fun name => named.lookup name)
  | _, _ => none

def required {α : Type} (read : Decoder α) (depth : Nat) : Option Tree → Option α
  | some tree => read depth tree
  | none => none

def defaulted {α : Type} (value : α) (read : Decoder α) (depth : Nat) : Option Tree → Option α
  | some tree => read depth tree
  | none => some value

/-- A name out of a list of choices, written as a string or as the one field of an object with
the value null. -/
def readChoice {α : Type} (choices : List (String × α)) : Decoder α
  | _, .string pieces => (text? pieces).bind fun name => choices.lookup name
  | _ + 1, .object [(name, .null)] => (text? name).bind fun name => choices.lookup name
  | _, _ => none

mutual

def readAny : Nat → Tree → Option Json
  | _, .null => some .null
  | _, .bool b => some (.bool b)
  | _, .number form => (numberOf form).map .number
  | _, .string pieces => (text? pieces).map .string
  | 0, .array _ => none
  | depth + 1, .array items => (readAnyItems depth items).map .array
  | 0, .object _ => none
  | depth + 1, .object fields => (readAnyFields depth fields).map fun fs => .object (sortFields fs)

def readAnyItems : Nat → List Tree → Option (List Json)
  | _, [] => some []
  | depth, item :: rest => do
    let value ← readAny depth item
    let values ← readAnyItems depth rest
    pure (value :: values)

def readAnyFields : Nat → List (List Piece × Tree) → Option (List (String × Json))
  | _, [] => some []
  | depth, (name, item) :: rest => do
    let key ← text? name
    let value ← readAny depth item
    let values ← readAnyFields depth rest
    pure ((key, value) :: values)

end

def decode? {α : Type} (read : Decoder α) (bytes : Bytes) : Option α :=
  (Tree.read? bytes).bind (read nestingLimit)

end ParallelLint.Json
