import ParallelLint.Json.Decode
import ParallelLint.Text.Blank

set_option autoImplicit false

namespace ParallelLint
open Number

inductive Concurrency where
  | off
  | auto
  | fixed (count : Nat)
  deriving DecidableEq, Repr, Inhabited

namespace Concurrency

def maxCount : Nat := UInt64.size - 1

/-- The integer part of a count of one or more, as far as 64 bits go; anything else is one. -/
def ofCount : Extended → Concurrency
  | .finite x => .fixed (if x.negative then 1 else max 1 (min x.floor maxCount))
  | _ => .fixed 1

/-- A word or a number, whatever the case and the blanks around it. -/
def parse (text : String) : Option Concurrency :=
  let word := Text.lowerAscii (Text.trim text)
  if word = "off" then some .off
  else if word = "auto" then some .auto
  else (readFloat word).map ofCount

def refusal (text : String) : String :=
  s!"invalid concurrency \"{text}\": expected \"off\", \"auto\" or a number"

def text : Concurrency → String
  | .off => "off"
  | .auto => "auto"
  | .fixed n => naturalText n

def toJson : Concurrency → Json
  | .fixed n => .ofNat n
  | other => .string other.text

def read : Json.Decoder Concurrency
  | _, .string pieces => (Json.text? pieces).bind parse
  | _, .number form => (Json.numberOf form).map fun n => ofCount (Json.Number.toExtended n)
  | _, _ => none

end Concurrency
end ParallelLint
