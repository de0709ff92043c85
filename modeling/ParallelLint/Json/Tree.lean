import ParallelLint.Json.Token

set_option autoImplicit false

namespace ParallelLint.Json

inductive Tree where
  | null
  | bool (b : Bool)
  | number (form : NumberForm)
  | string (pieces : List Piece)
  | array (items : List Tree)
  | object (fields : List (List Piece × Tree))
  deriving Inhabited

/-- An open container, with what it holds already in reverse. -/
inductive Frame where
  | array (done : List Tree)
  | object (done : List (List Piece × Tree)) (name : List Piece)

def leaf? : Token → Option Tree
  | .null => some .null
  | .bool b => some (.bool b)
  | .number form => some (.number form)
  | .string pieces => some (.string pieces)
  | _ => none

mutual

def readValue : List Token → List Frame → Option Tree
  | .openBracket :: .closeBracket :: rest, frames => readRest (.array []) rest frames
  | .openBracket :: rest, frames => readValue rest (.array [] :: frames)
  | .openBrace :: .closeBrace :: rest, frames => readRest (.object []) rest frames
  | .openBrace :: .string name :: .colon :: rest, frames =>
    readValue rest (.object [] name :: frames)
  | token :: rest, frames =>
    match leaf? token with
    | some value => readRest value rest frames
    | none => none
  | [], _ => none

def readRest (value : Tree) : List Token → List Frame → Option Tree
  | [], [] => some value
  | .comma :: rest, .array done :: frames => readValue rest (.array (value :: done) :: frames)
  | .closeBracket :: rest, .array done :: frames =>
    readRest (.array (value :: done).reverse) rest frames
  | .comma :: .string next :: .colon :: rest, .object done name :: frames =>
    readValue rest (.object ((name, value) :: done) next :: frames)
  | .closeBrace :: rest, .object done name :: frames =>
    readRest (.object ((name, value) :: done).reverse) rest frames
  | _, _ => none

end

def Tree.read? (bytes : Text.Bytes) : Option Tree :=
  (tokens? bytes).bind fun tokens => readValue tokens []

end ParallelLint.Json
