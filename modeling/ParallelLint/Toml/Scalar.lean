import ParallelLint.Text.Hex
import ParallelLint.Toml.Value

set_option autoImplicit false

namespace ParallelLint.Toml
open Number Text

def digits? (isDigit : Char → Bool) : List Char → Option (List Char)
  | [] => none
  | [c] => if isDigit c then some [c] else none
  | c :: '_' :: rest => if isDigit c then (digits? isDigit rest).map (c :: ·) else none
  | c :: rest => if isDigit c then (digits? isDigit rest).map (c :: ·) else none

def whole? (chars : List Char) : Option (List Char) :=
  match chars with
  | '0' :: _ :: _ => none
  | _ => digits? isDigit chars

def isOctal (c : Char) : Bool := '0' ≤ c && c ≤ '7'
def isBinary (c : Char) : Bool := c = '0' || c = '1'

def natOfBase (base : Nat) (digits : List Char) : Nat :=
  digits.foldl (fun n c => n * base + (hexValue? c).getD 0) 0

def integer? : List Char → Option Int
  | '0' :: 'x' :: rest => (digits? (fun c => (hexValue? c).isSome) rest).map (natOfBase 16 ·)
  | '0' :: 'o' :: rest => (digits? isOctal rest).map (natOfBase 8 ·)
  | '0' :: 'b' :: rest => (digits? isBinary rest).map (natOfBase 2 ·)
  | chars =>
    let signed := takeSign chars
    (whole? signed.2).map fun digits =>
      let n : Int := natOfDigits digits
      if signed.1 then -n else n

def power? : List Char → Option Int
  | [] => some 0
  | _ :: rest =>
    let signed := takeSign rest
    (digits? isDigit signed.2).map fun digits =>
      let n : Int := natOfDigits digits
      if signed.1 then -n else n

def isExponentMark (c : Char) : Bool := c = 'e' || c = 'E'

/-- A number with a fraction or an exponent or both. One that is too large is refused. -/
def decimal? (negative : Bool) (chars : List Char) : Option Extended := do
  let body := chars.takeWhile fun c => !isExponentMark c
  let tail := chars.dropWhile fun c => !isExponentMark c
  let whole ← whole? (body.takeWhile (· ≠ '.'))
  let power ← power? tail
  match body.dropWhile (· ≠ '.') with
  | [] => if tail.isEmpty then none else finite? (natOfDigits whole) power
  | _ :: fraction => do
    let fraction ← digits? isDigit fraction
    finite? (natOfDigits (whole ++ fraction)) (power - fraction.length)
where
  finite? (digits : Nat) (exponent : Int) : Option Extended :=
    (Binary64.ofDecimal negative digits exponent).map .finite

def float? (chars : List Char) : Option Extended :=
  let signed := takeSign chars
  match signed.2 with
  | ['i', 'n', 'f'] => some (.infinite signed.1)
  | ['n', 'a', 'n'] => some .nan
  | rest => decimal? signed.1 rest

def isLeap (year : Nat) : Bool := year % 4 = 0 && (year % 100 ≠ 0 || year % 400 = 0)

def daysIn (year month : Nat) : Nat :=
  if month = 2 then if isLeap year then 29 else 28
  else if month = 4 || month = 6 || month = 9 || month = 11 then 30
  else 31

def plainNumber? (digits : List Char) : Option Nat :=
  if digits.all isDigit then some (natOfDigits digits) else none

def date? : List Char → Option (List Char × List Char)
  | a :: b :: c :: d :: '-' :: e :: f :: '-' :: g :: h :: rest => do
    let year ← plainNumber? [a, b, c, d]
    let month ← plainNumber? [e, f]
    let day ← plainNumber? [g, h]
    if 1 ≤ month && month ≤ 12 && 1 ≤ day && day ≤ daysIn year month then
      some ([a, b, c, d, '-', e, f, '-', g, h], rest)
    else none
  | _ => none

def twoDigits? (limit : Nat) (a b : Char) : Option Nat :=
  (plainNumber? [a, b]).filter (· ≤ limit)

/-- Nine digits of a fraction count, and zeros at its end do not; one digit stays. -/
def fractionText (digits : List Char) : List Char :=
  match (digits.take 9).reverse.dropWhile (· = '0') with
  | [] => ['.', '0']
  | kept => '.' :: kept.reverse

/-- A time at the head of the text. Seconds may be left out, a leap second is admitted. -/
def time? : List Char → Option (List Char × List Char)
  | a :: b :: ':' :: c :: d :: rest => do
    let _ ← twoDigits? 23 a b
    let _ ← twoDigits? 59 c d
    match rest with
    | ':' :: e :: f :: rest => do
      let _ ← twoDigits? 60 e f
      match rest with
      | '.' :: rest =>
        let digits := rest.takeWhile isDigit
        if digits.isEmpty then none
        else some ([a, b, ':', c, d, ':', e, f] ++ fractionText digits, rest.dropWhile isDigit)
      | rest => some ([a, b, ':', c, d, ':', e, f], rest)
    | rest => some ([a, b, ':', c, d], rest)
  | _ => none

def offset? : List Char → Option (List Char)
  | [] => some []
  | ['z'] | ['Z'] => some ['Z']
  | [sign, a, b, ':', c, d] => do
    let hours ← twoDigits? 23 a b
    let minutes ← twoDigits? 59 c d
    if sign = '+' || (sign = '-' && hours + minutes = 0) then some ['+', a, b, ':', c, d]
    else if sign = '-' then some ['-', a, b, ':', c, d]
    else none
  | _ => none

/-- A date, a time, or both with an optional offset, in the written form with `T` and `Z`. -/
def datetime? (chars : List Char) : Option (List Char) :=
  match date? chars with
  | some (date, []) => some date
  | some (date, separator :: rest) =>
    if separator = 'T' || separator = 't' || separator = ' ' then do
      let (time, rest) ← time? rest
      let offset ← offset? rest
      pure (date ++ 'T' :: time ++ offset)
    else none
  | none =>
    match time? chars with
    | some (time, []) => some time
    | _ => none

def scalar? (chars : List Char) : Option Value :=
  if chars = "true".toList then some (.boolean true)
  else if chars = "false".toList then some (.boolean false)
  else match integer? chars with
    | some n => some (.integer n)
    | none =>
      match float? chars with
      | some x => some (.float x)
      | none => (datetime? chars).map fun text => .datetime (String.ofList text)

end ParallelLint.Toml
