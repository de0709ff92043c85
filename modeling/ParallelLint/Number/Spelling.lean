import ParallelLint.Number.Shortest

set_option autoImplicit false

namespace ParallelLint.Number

def isDigit (c : Char) : Bool := '0' ≤ c && c ≤ '9'

def digitValue (c : Char) : Nat := c.toNat - 48

def natOfDigits (digits : List Char) : Nat :=
  digits.foldl (fun n c => n * 10 + digitValue c) 0

def naturalText (n : Nat) : String := String.ofList (Nat.toDigits 10 n)

/-- Plain notation covers `1e-5 ≤ |x| < 1e16` and keeps a `.0`; beyond it the exponent carries a
sign and no padding. -/
def magnitudeText (x : Decimal) : List Char :=
  let digits := Nat.toDigits 10 x.digits
  let point : Int := digits.length + x.exponent
  if 16 < point || point < -4 then
    let power := point - 1
    let fraction := match digits with
      | [] => []
      | [d] => [d]
      | d :: rest => d :: '.' :: rest
    fraction ++ 'e' :: (if power < 0 then '-' else '+') :: Nat.toDigits 10 power.natAbs
  else if 0 ≤ x.exponent then
    digits ++ List.replicate x.exponent.toNat '0' ++ ['.', '0']
  else if 0 < point then
    digits.take point.toNat ++ '.' :: digits.drop point.toNat
  else '0' :: '.' :: List.replicate (-point).toNat '0' ++ digits

def binary64Text (x : Binary64) : String :=
  let body := if x.mantissa = 0 then ['0', '.', '0'] else magnitudeText (shortest x)
  String.ofList (if x.negative then '-' :: body else body)

def takeSign : List Char → Bool × List Char
  | '-' :: rest => (true, rest)
  | '+' :: rest => (false, rest)
  | rest => (false, rest)

/-- `e`, an optional sign and at least one digit, up to the end; nothing at all is exponent zero. -/
def readExponent : List Char → Option Int
  | [] => some 0
  | 'e' :: rest | 'E' :: rest =>
    let signed := takeSign rest
    if signed.2.isEmpty || !signed.2.all isDigit then none
    else
      let n : Int := natOfDigits signed.2
      some (if signed.1 then -n else n)
  | _ => none

/-- Digits with an optional point (at least one digit in all) and an optional exponent, or one of
the words `inf`, `infinity` and `nan` in any case, under an optional sign. -/
def readFloat (text : String) : Option Extended :=
  let signed := takeSign text.toList
  let word := signed.2.map Char.toLower
  if word = "inf".toList || word = "infinity".toList then some (.infinite signed.1)
  else if word = "nan".toList then some .nan
  else
    let whole := signed.2.takeWhile isDigit
    let afterWhole := signed.2.dropWhile isDigit
    let fraction := match afterWhole with
      | '.' :: rest => rest.takeWhile isDigit
      | _ => []
    let tail := match afterWhole with
      | '.' :: rest => rest.dropWhile isDigit
      | rest => rest
    if whole.isEmpty && fraction.isEmpty then none
    else (readExponent tail).map fun e =>
      Extended.ofDecimal signed.1 (natOfDigits (whole ++ fraction)) (e - fraction.length)

end ParallelLint.Number
