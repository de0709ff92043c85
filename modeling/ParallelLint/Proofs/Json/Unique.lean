import Mathlib.Data.List.Forall2
import ParallelLint.Json.Value
import ParallelLint.Proofs.Json.Numbers
import ParallelLint.Proofs.Json.Strings

set_option autoImplicit false

namespace ParallelLint.Json
open Text

def isNumberChar (c : Char) : Bool :=
  c.isDigit || c = '-' || c = '+' || c = '.' || c = 'e'

theorem isNumberChar_digit {c : Char} (h : c.isDigit = true) : isNumberChar c = true := by
  simp [isNumberChar, h]

theorem toDigits_start (n : Nat) :
    ∃ c more, Nat.toDigits 10 n = c :: more ∧ c.isDigit = true := by
  obtain ⟨c, more, cut⟩ := List.exists_cons_of_ne_nil (Nat.toDigits_ne_nil (n := n) (b := 10))
  exact ⟨c, more, cut, isDigit_toDigits (n := n) c (by rw [cut]; exact List.mem_cons_self ..)⟩

theorem magnitudeText_cases (x : ParallelLint.Number.Decimal) :
    let text := ParallelLint.Number.magnitudeText x
    (∀ c ∈ text, isNumberChar c = true) ∧ (∃ c rest, text = c :: rest ∧ c.isDigit = true) ∧
      ∃ c ∈ text, c.isDigit = false := by
  have digit := isDigit_toDigits (n := x.digits)
  obtain ⟨first, more, cut⟩ := List.exists_cons_of_ne_nil
    (Nat.toDigits_ne_nil (n := x.digits) (b := 10))
  have number : ∀ c ∈ Nat.toDigits 10 x.digits, isNumberChar c = true :=
    fun c hc => isNumberChar_digit (digit c hc)
  have start : first.isDigit = true := digit first (by rw [cut]; exact List.mem_cons_self ..)
  have zeros : ∀ n, ∀ c ∈ List.replicate n '0', isNumberChar c = true := by
    intro n c hc
    rw [List.eq_of_mem_replicate hc]
    rfl
  unfold ParallelLint.Number.magnitudeText
  simp only
  split
  · -- the scientific form
    have power : ∀ c ∈ Nat.toDigits 10
        ((Nat.toDigits 10 x.digits).length + x.exponent - 1).natAbs, isNumberChar c = true :=
      fun c hc => isNumberChar_digit (isDigit_toDigits c hc)
    rw [cut] at number ⊢
    refine ⟨?_, ?_, 'e', by simp, rfl⟩
    · intro c hc
      rcases List.mem_append.1 hc with hc | hc
      · cases more with
        | nil => exact number c hc
        | cons d more =>
          simp only [List.mem_cons] at hc number
          rcases hc with rfl | rfl | hc
          · exact number _ (.inl rfl)
          · rfl
          · exact number c (.inr hc)
      · rcases List.mem_cons.1 hc with rfl | hc
        · rfl
        rcases List.mem_cons.1 hc with rfl | hc
        · split <;> rfl
        · rw [← cut] at hc
          exact power c hc
    · cases more with
      | nil => exact ⟨first, _, rfl, start⟩
      | cons d more => exact ⟨first, _, rfl, start⟩
  split
  · -- a whole number
    refine ⟨?_, ⟨first, _, by rw [cut]; rfl, start⟩, '.', by simp, rfl⟩
    intro c hc
    simp only [List.mem_append, List.mem_cons, List.not_mem_nil, or_false] at hc
    rcases hc with (hc | hc) | rfl | rfl
    · exact number c hc
    · exact zeros _ c hc
    · rfl
    · rfl
  split
  · -- the point stands between the digits
    rename_i positive
    obtain ⟨n, hn⟩ := Nat.exists_eq_succ_of_ne_zero (n := ((Nat.toDigits 10 x.digits).length +
      x.exponent).toNat) (by omega)
    rw [hn]
    refine ⟨?_, ⟨first, _, by rw [cut]; rfl, start⟩, '.', by simp, rfl⟩
    intro c hc
    rcases List.mem_append.1 hc with hc | hc
    · exact number c (List.mem_of_mem_take hc)
    rcases List.mem_cons.1 hc with rfl | hc
    · rfl
    · exact number c (List.mem_of_mem_drop hc)
  · refine ⟨?_, ⟨'0', _, rfl, rfl⟩, '.', by simp, rfl⟩
    intro c hc
    simp only [List.mem_cons, List.mem_append] at hc
    rcases hc with (rfl | rfl | hc) | hc
    · rfl
    · rfl
    · exact zeros _ c hc
    · exact number c hc

theorem floatText_cases (x : ParallelLint.Number.Binary64) :
    ∃ body, numberText (.float x) = (if x.negative then '-' :: body else body) ∧
      (∀ c ∈ body, isNumberChar c = true) ∧ (∃ c rest, body = c :: rest ∧ c.isDigit = true) ∧
        ∃ c ∈ body, c.isDigit = false := by
  refine ⟨if x.mantissa = 0 then ['0', '.', '0'] else
    ParallelLint.Number.magnitudeText (ParallelLint.Number.shortest x), String.toList_ofList, ?_⟩
  split
  · exact ⟨by simp [isNumberChar], ⟨'0', _, rfl, rfl⟩, '.', by simp, rfl⟩
  · exact magnitudeText_cases _

/-- A number has characters of its own, begins with a digit or a minus sign, and has digits only if
it is a natural one. -/
theorem numberText_cases (n : Number) :
    (∀ c ∈ numberText n, isNumberChar c = true) ∧
      (∃ c rest, numberText n = c :: rest ∧ (c.isDigit = true ∨ c = '-')) ∧
      ((∃ k, n = .natural k) ∨ ∃ c ∈ numberText n, c.isDigit = false) := by
  have natural : ∀ k : Nat, (∀ c ∈ Nat.toDigits 10 k, isNumberChar c = true) :=
    fun k c hc => isNumberChar_digit (isDigit_toDigits c hc)
  cases n with
  | natural k =>
    obtain ⟨c, rest, cut, start⟩ := toDigits_start k
    exact ⟨natural k, ⟨c, rest, cut, .inl start⟩, .inl ⟨k, rfl⟩⟩
  | negative k =>
    refine ⟨?_, ⟨'-', _, rfl, .inr rfl⟩, .inr ⟨'-', List.mem_cons_self .., rfl⟩⟩
    intro c hc
    rcases List.mem_cons.1 hc with rfl | hc
    · rfl
    · exact natural k c hc
  | float x =>
    obtain ⟨body, written, all, ⟨c, rest, cut, start⟩, d, hd, other⟩ := floatText_cases x
    rw [written]
    split
    · refine ⟨?_, ⟨'-', _, rfl, .inr rfl⟩, .inr ⟨'-', List.mem_cons_self .., rfl⟩⟩
      intro c hc
      rcases List.mem_cons.1 hc with rfl | hc
      · rfl
      · exact all c hc
    · exact ⟨all, ⟨c, rest, cut, .inl start⟩, .inr ⟨d, hd, other⟩⟩

/-- What may follow a value: nothing that would continue a number. -/
def Ends (rest : List Char) : Prop := ∀ c ∈ rest.head?, isNumberChar c = false

theorem ends_cons {c : Char} (h : isNumberChar c = false) (rest : List Char) :
    Ends (c :: rest) := by
  intro d hd
  cases hd
  exact h

theorem ends_items (items : List Json) (rest : List Char) :
    Ends (compactMoreItems items ++ rest) := by
  cases items <;> exact ends_cons rfl _

theorem ends_fields (fields : List (String × Json)) (rest : List Char) :
    Ends (compactMoreFields fields ++ rest) := by
  cases fields <;> exact ends_cons rfl _

theorem number_cancel {a b s t : List Char} (same : a ++ s = b ++ t)
    (left : ∀ c ∈ a, isNumberChar c = true) (right : ∀ c ∈ b, isNumberChar c = true)
    (ends : Ends s) (ends' : Ends t) : a = b ∧ s = t := by
  induction a generalizing b with
  | nil =>
    cases b with
    | nil => exact ⟨rfl, same⟩
    | cons d b =>
      rw [List.nil_append] at same
      have other := ends d (by rw [same]; rfl)
      rw [right d (List.mem_cons_self ..)] at other
      cases other
  | cons c a ih =>
    cases b with
    | nil =>
      rw [List.nil_append] at same
      have other := ends' c (by rw [← same]; rfl)
      rw [left c (List.mem_cons_self ..)] at other
      cases other
    | cons d b =>
      obtain ⟨rfl, same'⟩ := List.cons.inj same
      obtain ⟨rfl, rest⟩ := ih same' (fun e he => left e (List.mem_cons_of_mem _ he))
        fun e he => right e (List.mem_cons_of_mem _ he)
      exact ⟨rfl, rest⟩

theorem quoted_cancel {name other : String} {s t : List Char}
    (same : quoted name ++ s = quoted other ++ t) : name = other ∧ s = t := by
  have scanned : ∀ (text : String) (rest : List Char), encode (quoted text ++ rest) =
      0x22 :: (encode (text.toList.flatMap escape) ++ 0x22 :: encode rest) := by
    intro text rest
    rw [quoted, List.cons_append, List.cons_append, encode_cons, encode_append, encode_append,
      List.append_assoc]
    rfl
  have bytes := congrArg encode same
  rw [scanned, scanned] at bytes
  have pieces := congrArg scanString (List.cons.inj bytes).2
  rw [scanString_quoted, scanString_quoted] at pieces
  obtain ⟨pieces, -⟩ := Prod.mk.inj (Option.some.inj pieces)
  have texts := congrArg text? pieces
  rw [text_piecesOf, text_piecesOf] at texts
  obtain rfl := Option.some.inj texts
  exact ⟨rfl, List.append_cancel_left same⟩

def kind : Json → Nat
  | .null => 0
  | .bool _ => 1
  | .number _ => 2
  | .string _ => 3
  | .array _ => 4
  | .object _ => 5

/-- The kind of the values that begin with a character, if there are any. -/
def kindFrom (c : Char) : Nat :=
  if c = 'n' then 0 else if c = 't' || c = 'f' then 1 else if c = '\x22' then 3
  else if c = '[' then 4 else if c = '\x7b' then 5 else if c.isDigit || c = '-' then 2 else 6

theorem kindFrom_number {c : Char} (h : c.isDigit = true ∨ c = '-') : kindFrom c = 2 := by
  rcases h with digit | rfl
  · have other : ∀ d : Char, d.isDigit = false → c ≠ d := by
      rintro d none rfl
      rw [digit] at none
      cases none
    simp [kindFrom, other 'n' rfl, other 't' rfl, other 'f' rfl, other '\x22' rfl, other '[' rfl,
      other '\x7b' rfl, digit]
  · rfl

theorem compactChars_head (j : Json) :
    ∃ c rest, compactChars j = c :: rest ∧ kindFrom c = j.kind := by
  match j with
  | .null => exact ⟨'n', _, rfl, rfl⟩
  | .bool true => exact ⟨'t', _, rfl, rfl⟩
  | .bool false => exact ⟨'f', _, rfl, rfl⟩
  | .number n =>
    obtain ⟨-, ⟨c, rest, cut, start⟩, -⟩ := numberText_cases n
    exact ⟨c, rest, cut, kindFrom_number start⟩
  | .string s => exact ⟨'\x22', _, rfl, rfl⟩
  | .array items => exact ⟨'[', _, rfl, rfl⟩
  | .object fields => exact ⟨'\x7b', _, rfl, rfl⟩

theorem kind_of_same {j k : Json} {s t : List Char}
    (same : compactChars j ++ s = compactChars k ++ t) : j.kind = k.kind := by
  obtain ⟨c, rest, cut, here⟩ := compactChars_head j
  obtain ⟨d, rest', cut', there⟩ := compactChars_head k
  rw [cut, cut'] at same
  rw [← here, ← there, (List.cons.inj same).1]

theorem head_ne (j : Json) {c : Char} (h : kindFrom c = 6) (rest more : List Char) :
    c :: rest ≠ compactChars j ++ more := by
  intro same
  obtain ⟨d, rest', cut, kind⟩ := compactChars_head j
  rw [cut] at same
  rw [← (List.cons.inj same).1, h] at kind
  cases j <;> cases kind

abbrev SameItems : List Json → List Json → Prop :=
  List.Forall₂ fun j k => compactChars j = compactChars k

abbrev SameFields : List (String × Json) → List (String × Json) → Prop :=
  List.Forall₂ fun f g => f.1 = g.1 ∧ compactChars f.2 = compactChars g.2

theorem compactMoreItems_congr {xs ys : List Json} (same : SameItems xs ys) :
    compactMoreItems xs = compactMoreItems ys := by
  induction same with
  | nil => rfl
  | cons first _ ih => rw [compactMoreItems, compactMoreItems, first, ih]

theorem compactItems_congr {xs ys : List Json} (same : SameItems xs ys) :
    compactItems xs = compactItems ys := by
  cases same with
  | nil => rfl
  | cons first rest => rw [compactItems, compactItems, first, compactMoreItems_congr rest]

theorem compactMoreFields_congr {xs ys : List (String × Json)} (same : SameFields xs ys) :
    compactMoreFields xs = compactMoreFields ys := by
  induction same with
  | nil => rfl
  | @cons f g _ _ first _ ih =>
    obtain ⟨name, value⟩ := f
    obtain ⟨name', value'⟩ := g
    obtain ⟨rfl, values⟩ := first
    rw [compactMoreFields, compactMoreFields, values, ih]

theorem compactFields_congr {xs ys : List (String × Json)} (same : SameFields xs ys) :
    compactFields xs = compactFields ys := by
  cases same with
  | nil => rfl
  | @cons f g _ _ first rest =>
    obtain ⟨name, value⟩ := f
    obtain ⟨name', value'⟩ := g
    obtain ⟨rfl, values⟩ := first
    rw [compactFields, compactFields, values, compactMoreFields_congr rest]

theorem tail_of_same {c d : Char} {a b s t : List Char} (same : c :: a ++ s = d :: b ++ t) :
    a ++ s = b ++ t :=
  (List.cons.inj same).2

mutual

/-- The form of a value can be told from what follows it. -/
theorem compact_cancel (j k : Json) {s t : List Char}
    (same : compactChars j ++ s = compactChars k ++ t) (ends : Ends s) (ends' : Ends t) :
    compactChars j = compactChars k ∧ s = t := by
  have kinds := kind_of_same same
  match j, k with
  | .null, .null => exact ⟨rfl, List.append_cancel_left same⟩
  | .bool true, .bool true => exact ⟨rfl, List.append_cancel_left same⟩
  | .bool false, .bool false => exact ⟨rfl, List.append_cancel_left same⟩
  | .bool true, .bool false => cases (List.cons.inj same).1
  | .bool false, .bool true => cases (List.cons.inj same).1
  | .number m, .number n =>
    exact number_cancel same (numberText_cases m).1 (numberText_cases n).1 ends ends'
  | .string a, .string b =>
    obtain ⟨rfl, rest⟩ := quoted_cancel same
    exact ⟨rfl, rest⟩
  | .array xs, .array ys =>
    obtain ⟨items, rest⟩ := items_cancel xs ys (List.cons.inj same).2
    exact ⟨congrArg ('[' :: ·) (compactItems_congr items), rest⟩
  | .object xs, .object ys =>
    obtain ⟨fields, rest⟩ := fields_cancel xs ys (List.cons.inj same).2
    exact ⟨congrArg ('\x7b' :: ·) (compactFields_congr fields), rest⟩

theorem items_cancel (xs ys : List Json) {s t : List Char}
    (same : compactItems xs ++ s = compactItems ys ++ t) : SameItems xs ys ∧ s = t := by
  match xs, ys with
  | [], [] => exact ⟨List.Forall₂.nil, (List.cons.inj same).2⟩
  | [], y :: ys =>
    rw [compactItems, compactItems, List.append_assoc] at same
    exact absurd same (head_ne y rfl _ _)
  | x :: xs, [] =>
    rw [compactItems, compactItems, List.append_assoc] at same
    exact absurd same.symm (head_ne x rfl _ _)
  | x :: xs, y :: ys =>
    rw [compactItems, compactItems, List.append_assoc, List.append_assoc] at same
    obtain ⟨first, more⟩ := compact_cancel x y same (ends_items xs s) (ends_items ys t)
    obtain ⟨items, rest⟩ := moreItems_cancel xs ys more
    exact ⟨List.Forall₂.cons first items, rest⟩

theorem moreItems_cancel (xs ys : List Json) {s t : List Char}
    (same : compactMoreItems xs ++ s = compactMoreItems ys ++ t) : SameItems xs ys ∧ s = t := by
  match xs, ys with
  | [], [] => exact ⟨List.Forall₂.nil, (List.cons.inj same).2⟩
  | [], y :: ys => cases (List.cons.inj same).1
  | x :: xs, [] => cases (List.cons.inj same).1
  | x :: xs, y :: ys =>
    have same := tail_of_same same
    rw [List.append_assoc, List.append_assoc] at same
    obtain ⟨first, more⟩ := compact_cancel x y same (ends_items xs s) (ends_items ys t)
    obtain ⟨items, rest⟩ := moreItems_cancel xs ys more
    exact ⟨List.Forall₂.cons first items, rest⟩

theorem fields_cancel (xs ys : List (String × Json)) {s t : List Char}
    (same : compactFields xs ++ s = compactFields ys ++ t) : SameFields xs ys ∧ s = t := by
  match xs, ys with
  | [], [] => exact ⟨List.Forall₂.nil, (List.cons.inj same).2⟩
  | [], (name, value) :: ys => cases (List.cons.inj same).1
  | (name, value) :: xs, [] => cases (List.cons.inj same).1
  | (name, value) :: xs, (name', value') :: ys =>
    rw [compactFields, compactFields, List.append_assoc, List.append_assoc] at same
    obtain ⟨names, same⟩ := quoted_cancel same
    have same := tail_of_same same
    rw [List.append_assoc, List.append_assoc] at same
    obtain ⟨first, more⟩ := compact_cancel value value' same (ends_fields xs s) (ends_fields ys t)
    obtain ⟨fields, rest⟩ := moreFields_cancel xs ys more
    exact ⟨List.Forall₂.cons ⟨names, first⟩ fields, rest⟩

theorem moreFields_cancel (xs ys : List (String × Json)) {s t : List Char}
    (same : compactMoreFields xs ++ s = compactMoreFields ys ++ t) :
    SameFields xs ys ∧ s = t := by
  match xs, ys with
  | [], [] => exact ⟨List.Forall₂.nil, (List.cons.inj same).2⟩
  | [], (name, value) :: ys => cases (List.cons.inj same).1
  | (name, value) :: xs, [] => cases (List.cons.inj same).1
  | (name, value) :: xs, (name', value') :: ys =>
    have same := tail_of_same same
    rw [List.append_assoc, List.append_assoc] at same
    obtain ⟨names, same⟩ := quoted_cancel same
    have same := tail_of_same same
    rw [List.append_assoc, List.append_assoc] at same
    obtain ⟨first, more⟩ := compact_cancel value value' same (ends_fields xs s) (ends_fields ys t)
    obtain ⟨fields, rest⟩ := moreFields_cancel xs ys more
    exact ⟨List.Forall₂.cons ⟨names, first⟩ fields, rest⟩

end

theorem natural?_iff {j : Json} {n : Nat} :
    j.natural? = some n ↔ compactChars j = Nat.toDigits 10 n := by
  constructor
  · intro h
    unfold natural? at h
    split at h
    · cases h
      rfl
    · cases h
  · intro written
    obtain ⟨first, more, cut⟩ := List.exists_cons_of_ne_nil (Nat.toDigits_ne_nil (n := n) (b := 10))
    have digit := isDigit_toDigits (n := n)
    obtain ⟨c, rest, cut', kind⟩ := compactChars_head j
    have start : kindFrom c = 2 := by
      refine kindFrom_number (.inl (digit c ?_))
      rw [← written, cut']
      exact List.mem_cons_self ..
    rw [start] at kind
    match j with
    | .number m =>
      have text : numberText m = Nat.toDigits 10 n := written
      rcases (numberText_cases m).2.2 with ⟨k, rfl⟩ | ⟨d, hd, other⟩
      · have value := congrArg (Nat.ofDigitChars 10 · 0) text
        simp only [numberText, Nat.ofDigitChars_ten_toDigits] at value
        rw [natural?, value]
      · rw [text] at hd
        rw [digit d hd] at other
        cases other

theorem natural?_congr {j k : Json} (same : compactChars j = compactChars k) :
    j.natural? = k.natural? := by
  refine Option.ext fun n => ?_
  rw [natural?_iff, natural?_iff, same]

theorem sameFields {xs ys : List (String × Json)}
    (same : compactChars (.object xs) = compactChars (.object ys)) : SameFields xs ys :=
  (fields_cancel xs ys (congrArg (· ++ []) (List.cons.inj same).2)).1

theorem field?_congr {j k : Json} (same : compactChars j = compactChars k) (name : String) :
    (j.field? name).map compactChars = (k.field? name).map compactChars := by
  have kinds := kind_of_same (congrArg (· ++ []) same)
  match j, k with
  | .object xs, .object ys =>
    have fields := sameFields same
    simp only [field?]
    clear same kinds
    induction fields with
    | nil => rfl
    | @cons f g _ _ first _ ih =>
      obtain ⟨n, v⟩ := f
      obtain ⟨n', v'⟩ := g
      obtain ⟨rfl, values⟩ := first
      rw [List.lookup_cons, List.lookup_cons]
      simp only
      cases name == n with
      | true => exact congrArg some values
      | false => exact ih
  | .null, .null | .bool _, .bool _ | .number _, .number _ | .string _, .string _
  | .array _, .array _ => rfl

end ParallelLint.Json
