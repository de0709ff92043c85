import ParallelLint.Number.Spelling
import ParallelLint.Text.Hex

set_option autoImplicit false

namespace ParallelLint

/-- Integers of 64 bits keep their exact value, every other number is a binary64 one. -/
inductive Json.Number where
  | natural (n : Nat)
  | negative (n : Nat)
  | float (x : Number.Binary64)
  deriving DecidableEq, Repr, Inhabited

inductive Json where
  | null
  | bool (b : Bool)
  | number (n : Json.Number)
  | string (s : String)
  | array (items : List Json)
  | object (fields : List (String × Json))
  deriving Repr, Inhabited

namespace Json

def ofNat (n : Nat) : Json := .number (.natural n)

/-- Puts a field at its place in sorted fields; a field of that name is replaced. -/
def insertField (name : String) (value : Json) :
    List (String × Json) → List (String × Json)
  | [] => [(name, value)]
  | (k, v) :: rest =>
    if name < k then (name, value) :: (k, v) :: rest
    else if name = k then (name, value) :: rest
    else (k, v) :: insertField name value rest

/-- The last of several fields of one name counts. -/
def sortFields (fields : List (String × Json)) : List (String × Json) :=
  fields.foldl (fun sorted field => insertField field.1 field.2 sorted) []

def field? (name : String) : Json → Option Json
  | .object fields => fields.lookup name
  | _ => none

def natural? : Json → Option Nat
  | .number (.natural n) => some n
  | _ => none

/-- Quotes, backslashes and control characters are escaped, nothing else. -/
def escape (c : Char) : List Char :=
  if c = '\x22' then ['\x5c', '\x22']
  else if c = '\x5c' then ['\x5c', '\x5c']
  else if c = '\x08' then ['\x5c', 'b']
  else if c = '\x09' then ['\x5c', 't']
  else if c = '\x0a' then ['\x5c', 'n']
  else if c = '\x0c' then ['\x5c', 'f']
  else if c = '\x0d' then ['\x5c', 'r']
  else if c.toNat < 32 then
    ['\x5c', 'u', '0', '0', Text.hexDigit (c.toNat / 16), Text.hexDigit (c.toNat % 16)]
  else [c]

def quoted (s : String) : List Char := '\x22' :: s.toList.flatMap escape ++ ['\x22']

def numberText : Json.Number → List Char
  | .natural n => Nat.toDigits 10 n
  | .negative n => '-' :: Nat.toDigits 10 n
  | .float x => (Number.binary64Text x).toList

mutual

def compactChars : Json → List Char
  | .null => ['n', 'u', 'l', 'l']
  | .bool true => ['t', 'r', 'u', 'e']
  | .bool false => ['f', 'a', 'l', 's', 'e']
  | .number n => numberText n
  | .string s => quoted s
  | .array items => '[' :: compactItems items
  | .object fields => '\x7b' :: compactFields fields

def compactItems : List Json → List Char
  | [] => [']']
  | item :: rest => compactChars item ++ compactMoreItems rest

def compactMoreItems : List Json → List Char
  | [] => [']']
  | item :: rest => ',' :: (compactChars item ++ compactMoreItems rest)

def compactFields : List (String × Json) → List Char
  | [] => ['\x7d']
  | (name, value) :: rest =>
    quoted name ++ ':' :: (compactChars value ++ compactMoreFields rest)

def compactMoreFields : List (String × Json) → List Char
  | [] => ['\x7d']
  | (name, value) :: rest =>
    ',' :: (quoted name ++ ':' :: (compactChars value ++ compactMoreFields rest))

end

def compact (j : Json) : String := String.ofList (compactChars j)

def indentation (depth : Nat) : List Char := '\n' :: List.replicate (2 * depth) ' '

mutual

def prettyChars (depth : Nat) : Json → List Char
  | .array [] => ['[', ']']
  | .array (item :: rest) =>
    '[' :: (indentation (depth + 1) ++ prettyChars (depth + 1) item ++ prettyMoreItems depth rest)
  | .object [] => ['\x7b', '\x7d']
  | .object ((name, value) :: rest) =>
    '\x7b' :: (indentation (depth + 1) ++ quoted name ++ ':' :: ' ' ::
      (prettyChars (depth + 1) value ++ prettyMoreFields depth rest))
  | .null => compactChars .null
  | .bool b => compactChars (.bool b)
  | .number n => numberText n
  | .string s => quoted s

def prettyMoreItems (depth : Nat) : List Json → List Char
  | [] => indentation depth ++ [']']
  | item :: rest =>
    ',' :: (indentation (depth + 1) ++ prettyChars (depth + 1) item ++ prettyMoreItems depth rest)

def prettyMoreFields (depth : Nat) : List (String × Json) → List Char
  | [] => indentation depth ++ ['\x7d']
  | (name, value) :: rest =>
    ',' :: (indentation (depth + 1) ++ quoted name ++ ':' :: ' ' ::
      (prettyChars (depth + 1) value ++ prettyMoreFields depth rest))

end

def pretty (j : Json) : String := String.ofList (prettyChars 0 j)

end Json
end ParallelLint
