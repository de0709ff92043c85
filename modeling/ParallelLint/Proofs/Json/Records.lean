import ParallelLint.Message
import ParallelLint.Proofs.Json.Compact

set_option autoImplicit false

namespace ParallelLint
open Json

namespace Json
variable {α : Type}

theorem readString_tree (depth : Nat) (s : String) : readString depth (.string s : Json).tree = some s :=
  text_piecesOf s

theorem readNatural_tree {n : Nat} (small : n < UInt64.size) (depth : Nat) :
    readNatural depth (ofNat n).tree = some n := readNatural_form small depth

theorem readList_tree {read : Decoder α} {toJson : α → Json} (depth : Nat) {items : List α}
    (reads : ∀ a ∈ items, read depth (toJson a).tree = some a) :
    readList read (depth + 1) (.array (items.map toJson) : Json).tree = some items := by
  rw [tree, itemTrees_eq, readList]
  induction items with
  | nil => rfl
  | cons a rest ih =>
    simp only [List.map_cons, List.mapM_cons, reads a (by simp),
      ih fun a ha => reads a (List.mem_cons_of_mem _ ha)]
    rfl

/-- Optional values are not written as `null`, which reads as their absence. -/
def Written (j : Json) : Prop := j.tree ≠ .null

theorem readOption_tree {read : Decoder α} {depth : Nat} {a : α} {j : Json} (written : j.Written)
    (reads : read depth j.tree = some a) : readOption read depth j.tree = some (some a) := by
  unfold readOption
  split
  · rename_i null
    exact absurd null written
  · rw [reads]
    rfl

theorem written_string (s : String) : Written (.string s) := by simp [Written, tree]

theorem written_ofNat (n : Nat) : Written (ofNat n) := by simp [Written, ofNat, tree]

theorem written_object (fields : List (String × Json)) : Written (.object fields) := by
  simp [Written, tree]

theorem readChoice_tree {choices : List (String × α)} {name : String} {a : α}
    (found : choices.lookup name = some a) (depth : Nat) :
    readChoice choices depth (.string name : Json).tree = some a := by
  simp only [tree, readChoice, text_piecesOf, Option.bind_some, found]

def fieldTree (fields : List (String × Json)) (name : String) : Option Tree :=
  (fields.lookup name).map tree

theorem defaulted_optional {read : Decoder α} {toJson : α → Json} (depth : Nat) {value : Option α}
    (written : ∀ a, (toJson a).Written)
    (reads : ∀ a ∈ value, read depth (toJson a).tree = some a) :
    defaulted none (readOption read) depth ((value.map toJson).map tree) = some value := by
  cases value with
  | none => rfl
  | some a => exact readOption_tree (written a) (reads a rfl)

theorem defaulted_string (depth : Nat) (s : Option String) :
    defaulted none (readOption readString) depth ((s.map Json.string).map tree) = some s :=
  defaulted_optional depth written_string fun s _ => readString_tree depth s

theorem defaulted_natural (depth : Nat) {n : Option Nat} (small : ∀ k ∈ n, k < UInt64.size) :
    defaulted none (readOption readNatural) depth ((n.map ofNat).map tree) = some n :=
  defaulted_optional depth written_ofNat fun k hk => readNatural_tree (small k hk) depth

theorem lookup_optional (name : String) (toJson : α → Json) (value : Option α) (other : String) :
    (optionalField name toJson value).lookup other =
      if other = name then value.map toJson else none := by
  cases value with
  | none => simp [optionalField]
  | some a =>
    by_cases same : other = name
    · simp [optionalField, same]
    · have test : (other == name) = false := beq_eq_false_iff_ne.2 same
      simp [optionalField, List.lookup_cons, test, same]

theorem names_optional (name : String) (toJson : α → Json) (value : Option α) :
    ((optionalField name toJson value).map Prod.fst).Sublist [name] := by
  cases value <;> simp [optionalField]

theorem lookup_named (fields : List (String × Json)) (name : String) :
    (fields.map fun field => (field.1, field.2.tree)).lookup name = fieldTree fields name := by
  induction fields with
  | nil => rfl
  | cons field rest ih =>
    obtain ⟨first, value⟩ := field
    simp only [fieldTree, List.map_cons, List.lookup_cons] at ih ⊢
    cases name == first with
    | true => rfl
    | false => exact ih

theorem mapM_named (fields : List (String × Json)) :
    ((fieldTrees fields).mapM fun field => (text? field.1).map fun name => (name, field.2)) =
      some (fields.map fun field => (field.1, field.2.tree)) := by
  rw [fieldTrees_eq]
  induction fields with
  | nil => rfl
  | cons field rest ih =>
    simp only [List.map_cons, List.mapM_cons, text_piecesOf, Option.map_some, ih]
    rfl

theorem countP_name_le {fields : List (String × Json)} (distinct : (fields.map Prod.fst).Nodup)
    (name : String) :
    (fields.map fun field => (field.1, field.2.tree)).countP (fun field => field.1 = name) ≤ 1 := by
  have same : (fields.map fun field => (field.1, field.2.tree)).countP
      (fun field => field.1 = name) = (fields.map Prod.fst).count name := by
    rw [List.count, List.countP_map, List.countP_map]
    rfl
  rw [same]
  exact List.nodup_iff_count.1 distinct name

theorem readRecord_tree (names : List String) {fields : List (String × Json)}
    (distinct : (fields.map Prod.fst).Nodup) (needed depth : Nat) :
    readRecord names needed (depth + 1) (.object fields : Json).tree =
      some (depth, names.map (fieldTree fields)) := by
  have once : (names.any fun name => 1 <
      (fields.map fun field => (field.1, field.2.tree)).countP fun field => field.1 = name) =
        false := by
    rw [List.any_eq_false]
    intro name _
    simpa using countP_name_le distinct name
  rw [tree, readRecord, mapM_named]
  change (if _ then none else _) = _
  rw [once]
  simp only [Bool.false_eq_true, ite_false, lookup_named]

theorem readFields_tree {read : Decoder α} {toJson : α → Json} (depth : Nat)
    {fields : List (String × α)} (reads : ∀ f ∈ fields, read depth (toJson f.2).tree = some f.2) :
    readFields read (depth + 1)
      (.object (fields.map fun f => (f.1, toJson f.2)) : Json).tree = some fields := by
  rw [tree, fieldTrees_eq, readFields]
  induction fields with
  | nil => rfl
  | cons f rest ih =>
    simp only [List.map_cons, List.mapM_cons, text_piecesOf, reads f (by simp),
      ih fun f hf => reads f (List.mem_cons_of_mem _ hf)]
    rfl

end Json
end ParallelLint
