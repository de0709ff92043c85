import ParallelLint.Proofs.Json.Unique

set_option autoImplicit false

namespace ParallelLint.Json

theorem toDigits_injective {m n : Nat} (same : Nat.toDigits 10 m = Nat.toDigits 10 n) : m = n := by
  have value := congrArg (Nat.ofDigitChars 10 · 0) same
  simpa only [Nat.ofDigitChars_ten_toDigits] using value

theorem toDigits_ne {n : Nat} {text : List Char} (other : ∃ c ∈ text, c.isDigit = false) :
    Nat.toDigits 10 n ≠ text := by
  rintro rfl
  obtain ⟨c, hc, none⟩ := other
  rw [isDigit_toDigits c hc] at none
  cases none

theorem minus_ne {text rest : List Char}
    (start : ∃ c more, text = c :: more ∧ c.isDigit = true) : '-' :: rest ≠ text := by
  rintro rfl
  obtain ⟨c, more, cut, digit⟩ := start
  rw [← (List.cons.inj cut).1] at digit
  cases digit

theorem integer_ne_float (n : Nat) (x : ParallelLint.Number.Binary64) :
    numberText (.natural n) ≠ numberText (.float x) ∧
      numberText (.negative n) ≠ numberText (.float x) := by
  obtain ⟨body, written, -, start, other⟩ := floatText_cases x
  rw [written]
  refine ⟨toDigits_ne ?_, ?_⟩
  · split
    · exact ⟨'-', List.mem_cons_self .., rfl⟩
    · exact other
  · split
    · exact fun same => toDigits_ne other (List.cons.inj same).2
    · exact minus_ne start

/-- The numbers of one list are written like no others of the second one. -/
def Told (xs ys : List ParallelLint.Number.Binary64) : Prop :=
  ∀ x ∈ xs, ∀ y ∈ ys,
    ParallelLint.Number.binary64Text x = ParallelLint.Number.binary64Text y → x = y

def Number.floats : Number → List ParallelLint.Number.Binary64
  | .float x => [x]
  | _ => []

theorem numberText_injective {m n : Number} (told : Told m.floats n.floats)
    (same : numberText m = numberText n) : m = n := by
  match m, n with
  | .natural m, .natural n => rw [toDigits_injective same]
  | .negative m, .negative n => rw [toDigits_injective (List.cons.inj same).2]
  | .natural m, .negative n => exact absurd same.symm (minus_ne (toDigits_start m))
  | .negative m, .natural n => exact absurd same (minus_ne (toDigits_start n))
  | .natural m, .float y => exact absurd same (integer_ne_float m y).1
  | .negative m, .float y => exact absurd same (integer_ne_float m y).2
  | .float x, .natural n => exact absurd same.symm (integer_ne_float n x).1
  | .float x, .negative n => exact absurd same.symm (integer_ne_float n x).2
  | .float x, .float y =>
    rw [told x (by simp [Number.floats]) y (by simp [Number.floats]) (String.ext same)]

mutual

/-- The binary64 numbers that occur in a value at any depth. -/
def floats : Json → List ParallelLint.Number.Binary64
  | .number n => n.floats
  | .array items => itemFloats items
  | .object fields => fieldFloats fields
  | .null | .bool _ | .string _ => []

def itemFloats : List Json → List ParallelLint.Number.Binary64
  | [] => []
  | item :: rest => item.floats ++ itemFloats rest

def fieldFloats : List (String × Json) → List ParallelLint.Number.Binary64
  | [] => []
  | (_, value) :: rest => value.floats ++ fieldFloats rest

end

theorem Told.parts {xs ys more more' : List ParallelLint.Number.Binary64}
    (told : Told (xs ++ more) (ys ++ more')) : Told xs ys ∧ Told more more' :=
  ⟨fun x hx y hy => told x (List.mem_append_left _ hx) y (List.mem_append_left _ hy),
    fun x hx y hy => told x (List.mem_append_right _ hx) y (List.mem_append_right _ hy)⟩

mutual

theorem compactChars_injective (j k : Json) (told : Told j.floats k.floats)
    (same : compactChars j = compactChars k) : j = k := by
  have whole := congrArg (· ++ []) same
  have kinds := kind_of_same whole
  match j, k with
  | .null, .null => rfl
  | .bool true, .bool true => rfl
  | .bool false, .bool false => rfl
  | .bool true, .bool false => cases (List.cons.inj same).1
  | .bool false, .bool true => cases (List.cons.inj same).1
  | .number m, .number n => rw [numberText_injective told same]
  | .string a, .string b => rw [(quoted_cancel whole).1]
  | .array xs, .array ys =>
    rw [items_unique xs ys told (items_cancel xs ys (List.cons.inj whole).2).1]
  | .object xs, .object ys => rw [fields_unique xs ys told (sameFields same)]

theorem items_unique (xs ys : List Json) (told : Told (itemFloats xs) (itemFloats ys))
    (same : SameItems xs ys) : xs = ys := by
  match xs, ys, same with
  | [], [], _ => rfl
  | x :: xs, y :: ys, .cons first rest =>
    obtain ⟨here, there⟩ := told.parts
    rw [compactChars_injective x y here first, items_unique xs ys there rest]

theorem fields_unique (xs ys : List (String × Json)) (told : Told (fieldFloats xs) (fieldFloats ys))
    (same : SameFields xs ys) : xs = ys := by
  match xs, ys, same with
  | [], [], _ => rfl
  | (name, value) :: xs, (name', value') :: ys, .cons ⟨names, values⟩ rest =>
    obtain ⟨here, there⟩ := told.parts
    obtain rfl : name = name' := names
    rw [compactChars_injective value value' here values, fields_unique xs ys there rest]

end

end ParallelLint.Json
