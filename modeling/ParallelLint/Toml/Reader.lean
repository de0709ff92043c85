import ParallelLint.Toml.Scalar
import ParallelLint.Toml.Table
import ParallelLint.Toml.Token

set_option autoImplicit false

namespace ParallelLint.Toml

def nestingLimit : Nat := 80

def pathLimit : Nat := 80

def isBareKey (word : List Char) : Bool := word.all fun c => c ≠ '+' && c ≠ ':'

def readKeys (wanted : Bool) (keys : List String) : List Token → Option (List String × List Token)
  | .blank _ :: rest => readKeys wanted keys rest
  | .dot :: rest => if wanted then none else readKeys true keys rest
  | .word chars :: rest =>
    if wanted && isBareKey chars then readKeys false (String.ofList chars :: keys) rest else none
  | .string text :: rest =>
    if wanted then readKeys false (String.ofList text :: keys) rest else none
  | rest => if wanted then none else some (keys, rest)

/-- The keys in front of the last one, the last one, and what follows them. -/
def readPath (tokens : List Token) : Option (List String × String × List Token) :=
  match readKeys true [] tokens with
  | some (key :: path, rest) =>
    if path.length < pathLimit then some (path.reverse, key, rest) else none
  | _ => none

def skipBlanks : List Token → List Token
  | .blank _ :: rest => skipBlanks rest
  | rest => rest

def skipLines : List Token → List Token
  | .blank _ :: rest | .newline :: rest => skipLines rest
  | rest => rest

def readWord : List Token → List Char × List Token
  | .word chars :: rest => let (more, rest) := readWord rest; (chars ++ more, rest)
  | .dot :: rest => let (more, rest) := readWord rest; ('.' :: more, rest)
  | rest => ([], rest)

def isDate (chars : List Char) : Bool :=
  match date? chars with
  | some (_, []) => true
  | _ => false

/-- A date may be followed by a space and a time. -/
def readScalar (tokens : List Token) : Option (Value × List Token) :=
  let (chars, rest) := readWord tokens
  match rest with
  | .blank true :: .word time :: more =>
    if isDate chars then
      let (time, rest) := readWord (.word time :: more)
      (scalar? (chars ++ ' ' :: time)).map fun v => (v, rest)
    else (scalar? chars).map fun v => (v, rest)
  | rest => (scalar? chars).map fun v => (v, rest)

mutual

/-- Every step takes a token or opens what a token has opened, so that twice the tokens are fuel
enough. -/
def readValue (depth fuel : Nat) (tokens : List Token) : Option (Value × List Token) :=
  match fuel, tokens with
  | 0, _ => none
  | _ + 1, .string text :: rest | _ + 1, .longString text :: rest =>
    some (.string (String.ofList text), rest)
  | fuel + 1, .openBracket :: rest =>
    if depth = 0 then none else readItems (depth - 1) fuel [] rest
  | fuel + 1, .openBrace :: rest =>
    if depth = 0 then none else readFields (depth - 1) fuel [] rest
  | _ + 1, tokens => readScalar tokens

def readItems (depth fuel : Nat) (items : List Value) (tokens : List Token) :
    Option (Value × List Token) :=
  match fuel, skipLines tokens with
  | 0, _ => none
  | _ + 1, .closeBracket :: rest => some (.array items.reverse, rest)
  | fuel + 1, tokens => do
    let (item, rest) ← readValue depth fuel tokens
    match skipLines rest with
    | .comma :: rest => readItems depth fuel (item :: items) rest
    | .closeBracket :: rest => some (.array (item :: items).reverse, rest)
    | _ => none

def readFields (depth fuel : Nat) (fields : Fields) (tokens : List Token) :
    Option (Value × List Token) :=
  match fuel, skipLines tokens with
  | 0, _ => none
  | _ + 1, .closeBrace :: rest => some (.table .braces fields, rest)
  | fuel + 1, tokens => do
    let (path, key, rest) ← readPath tokens
    match skipLines rest with
    | .equals :: rest => do
      let (value, rest) ← readValue depth fuel (skipLines rest)
      let fields ← Fields.insertKey true .braces path key value fields
      match skipLines rest with
      | .comma :: rest => readFields depth fuel fields rest
      | .closeBrace :: rest => some (.table .braces fields, rest)
      | _ => none
    | _ => none

end

def lineEnd? (tokens : List Token) : Option (List Token) :=
  match skipBlanks tokens with
  | [] => some []
  | .newline :: rest => some rest
  | _ => none

def readHeader (isArray : Bool) (tokens : List Token) : Option (Header × List Token) :=
  match readPath tokens with
  | some (path, key, .closeBracket :: rest) =>
    if isArray then
      match rest with
      | .closeBracket :: rest => some (⟨path, key, true⟩, rest)
      | _ => none
    else some (⟨path, key, false⟩, rest)
  | _ => none

def readLine (d : Draft) (tokens : List Token) : Option (Draft × List Token) :=
  match tokens with
  | .openBracket :: .openBracket :: rest => do
    let (header, rest) ← readHeader true rest
    let d ← d.start header
    pure (d, rest)
  | .openBracket :: rest => do
    let (header, rest) ← readHeader false rest
    let d ← d.start header
    pure (d, rest)
  | tokens => do
    let (path, key, rest) ← readPath tokens
    match rest with
    | .equals :: rest => do
      let rest := skipBlanks rest
      let (value, rest) ← readValue nestingLimit (2 * rest.length + 2) rest
      let d ← d.insert path key value
      pure (d, rest)
    | _ => none

def readLines (fuel : Nat) (d : Draft) (tokens : List Token) : Option Draft :=
  match fuel, skipLines tokens with
  | _, [] => some d
  | 0, _ => none
  | fuel + 1, tokens => do
    let (d, rest) ← readLine d tokens
    let rest ← lineEnd? rest
    readLines fuel d rest

def read? (text : String) : Option Fields := do
  let tokens ← tokens? text
  let d ← readLines tokens.length .empty tokens
  d.finish

end ParallelLint.Toml
