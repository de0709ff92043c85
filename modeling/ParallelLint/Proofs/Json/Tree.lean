import ParallelLint.Proofs.Json.Numbers
import ParallelLint.Proofs.Json.Strings

set_option autoImplicit false

namespace ParallelLint.Json
open ParallelLint.Text

mutual

def Tree.tokens : Tree → List Token
  | .null => [.null]
  | .bool b => [.bool b]
  | .number form => [.number form]
  | .string pieces => [.string pieces]
  | .array items => .openBracket :: Tree.itemTokens items
  | .object fields => .openBrace :: Tree.fieldTokens fields

def Tree.itemTokens : List Tree → List Token
  | [] => [.closeBracket]
  | item :: rest => item.tokens ++ Tree.moreItemTokens rest

def Tree.moreItemTokens : List Tree → List Token
  | [] => [.closeBracket]
  | item :: rest => .comma :: (item.tokens ++ Tree.moreItemTokens rest)

def Tree.fieldTokens : List (List Piece × Tree) → List Token
  | [] => [.closeBrace]
  | (name, value) :: rest =>
    .string name :: .colon :: (value.tokens ++ Tree.moreFieldTokens rest)

def Tree.moreFieldTokens : List (List Piece × Tree) → List Token
  | [] => [.closeBrace]
  | (name, value) :: rest =>
    .comma :: .string name :: .colon :: (value.tokens ++ Tree.moreFieldTokens rest)

end

theorem readValue_items {tree : Tree} (more : List Token) (frames : List Frame) :
    readValue (.openBracket :: (tree.tokens ++ more)) frames =
      readValue (tree.tokens ++ more) (.array [] :: frames) := by
  cases tree <;> simp [Tree.tokens, readValue]

mutual

theorem readValue_tokens (tree : Tree) (rest : List Token) (frames : List Frame) :
    readValue (tree.tokens ++ rest) frames = readRest tree rest frames := by
  match tree with
  | .null | .bool b | .number form | .string pieces =>
    simp [Tree.tokens, readValue, leaf?]
  | .array [] => simp [Tree.tokens, Tree.itemTokens, readValue]
  | .array (item :: items) =>
    calc readValue ((Tree.array (item :: items)).tokens ++ rest) frames
        = readValue (.openBracket :: (item.tokens ++ (Tree.moreItemTokens items ++ rest)))
            frames := by rw [Tree.tokens, Tree.itemTokens, List.cons_append, List.append_assoc]
      _ = readRest item (Tree.moreItemTokens items ++ rest) (.array [] :: frames) := by
          rw [readValue_items, readValue_tokens item]
      _ = readRest (.array (item :: items)) rest frames := readRest_items items ..
  | .object [] => simp [Tree.tokens, Tree.fieldTokens, readValue]
  | .object ((name, value) :: fields) =>
    calc readValue ((Tree.object ((name, value) :: fields)).tokens ++ rest) frames
        = readValue (value.tokens ++ (Tree.moreFieldTokens fields ++ rest))
            (.object [] name :: frames) := by
          rw [Tree.tokens, Tree.fieldTokens, List.cons_append, List.cons_append, List.cons_append,
            List.append_assoc, readValue]
      _ = readRest value (Tree.moreFieldTokens fields ++ rest) (.object [] name :: frames) :=
          readValue_tokens value ..
      _ = readRest (.object ((name, value) :: fields)) rest frames := readRest_fields fields ..

theorem readRest_items (items : List Tree) (value : Tree) (done : List Tree) (rest : List Token)
    (frames : List Frame) :
    readRest value (Tree.moreItemTokens items ++ rest) (.array done :: frames) =
      readRest (.array ((value :: done).reverse ++ items)) rest frames := by
  match items with
  | [] => simp [Tree.moreItemTokens, readRest]
  | item :: items =>
    rw [Tree.moreItemTokens, List.cons_append, List.append_assoc, readRest, readValue_tokens item,
      readRest_items items]
    simp

theorem readRest_fields (fields : List (List Piece × Tree)) (value : Tree)
    (done : List (List Piece × Tree)) (name : List Piece) (rest : List Token)
    (frames : List Frame) :
    readRest value (Tree.moreFieldTokens fields ++ rest) (.object done name :: frames) =
      readRest (.object (((name, value) :: done).reverse ++ fields)) rest frames := by
  match fields with
  | [] => simp [Tree.moreFieldTokens, readRest]
  | (next, item) :: fields =>
    rw [Tree.moreFieldTokens, List.cons_append, List.cons_append, List.cons_append,
      List.append_assoc, readRest, readValue_tokens item, readRest_fields fields]
    simp

end

theorem readValue_tree (tree : Tree) : readValue tree.tokens [] = some tree := by
  have read := readValue_tokens tree [] []
  rw [List.append_nil] at read
  rw [read, readRest]

end ParallelLint.Json
