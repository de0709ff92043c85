import ParallelLint.Proofs.Json.Tree

set_option autoImplicit false

namespace ParallelLint
open Json Text

namespace Json

mutual

/-- The tree that is read from a written value; only natural numbers are looked into. -/
def tree : Json → Tree
  | .null => .null
  | .bool b => .bool b
  | .number (.natural n) => .number (formOfNatural n)
  | .number _ => .number ⟨true, [], none, none⟩
  | .string s => .string (piecesOf s.toList)
  | .array items => .array (itemTrees items)
  | .object fields => .object (fieldTrees fields)

def itemTrees : List Json → List Tree
  | [] => []
  | item :: rest => item.tree :: itemTrees rest

def fieldTrees : List (String × Json) → List (List Piece × Tree)
  | [] => []
  | (name, value) :: rest => (piecesOf name.toList, value.tree) :: fieldTrees rest

end

mutual

/-- No numbers but natural ones. -/
def Plain : Json → Prop
  | .null | .bool _ | .number (.natural _) | .string _ => True
  | .number _ => False
  | .array items => PlainItems items
  | .object fields => PlainFields fields

def PlainItems : List Json → Prop
  | [] => True
  | item :: rest => item.Plain ∧ PlainItems rest

def PlainFields : List (String × Json) → Prop
  | [] => True
  | (_, value) :: rest => value.Plain ∧ PlainFields rest

end

theorem itemTrees_eq (items : List Json) : itemTrees items = items.map tree := by
  induction items with
  | nil => rfl
  | cons item rest ih => rw [itemTrees, ih, List.map_cons]

theorem fieldTrees_eq (fields : List (String × Json)) :
    fieldTrees fields = fields.map fun field => (piecesOf field.1.toList, field.2.tree) := by
  induction fields with
  | nil => rfl
  | cons field rest ih => rw [fieldTrees, ih, List.map_cons]

theorem plainItems_iff (items : List Json) : PlainItems items ↔ ∀ item ∈ items, item.Plain := by
  induction items with
  | nil => simp [PlainItems]
  | cons item rest ih => simp [PlainItems, ih]

theorem plainFields_iff (fields : List (String × Json)) :
    PlainFields fields ↔ ∀ field ∈ fields, field.2.Plain := by
  induction fields with
  | nil => simp [PlainFields]
  | cons field rest ih => simp [PlainFields, ih]

/-- What scanning the rest comes to behind these tokens. -/
def scanAfter (tokens : List Token) (fuel : Nat) (rest : Bytes) : Option (List Token) :=
  (scan fuel rest).map (tokens ++ ·)

theorem scanAfter_append (tokens more : List Token) (fuel : Nat) (rest : Bytes) :
    (scanAfter more fuel rest).map (tokens ++ ·) = scanAfter (tokens ++ more) fuel rest := by
  unfold scanAfter
  cases scan fuel rest with
  | none => rfl
  | some tokens => simp

theorem scan_punctuation {b : UInt8} {t : Token} (h : punctuation? b = some t) (fuel : Nat)
    (rest : Bytes) : scan (fuel + 1) (b :: rest) = scanAfter [t] fuel rest := by
  have plain : isSpace b = false ∧ b ≠ 0x22 ∧ scanPlain (b :: rest) = some (t, rest) := by
    unfold punctuation? at h
    split at h
    · subst b
      cases h
      exact ⟨rfl, by decide, rfl⟩
    split at h
    · subst b
      cases h
      exact ⟨rfl, by decide, rfl⟩
    split at h
    · subst b
      cases h
      exact ⟨rfl, by decide, rfl⟩
    split at h
    · subst b
      cases h
      exact ⟨rfl, by decide, rfl⟩
    split at h
    · subst b
      cases h
      exact ⟨rfl, by decide, rfl⟩
    split at h
    · subst b
      cases h
      exact ⟨rfl, by decide, rfl⟩
    · cases h
  rw [scan, plain.1, if_neg Bool.false_ne_true, if_neg plain.2.1, plain.2.2]
  rfl

theorem scan_quoted (s : String) (fuel : Nat) (rest : Bytes) :
    scan (fuel + 1) (encode (quoted s) ++ rest) =
      scanAfter [.string (piecesOf s.toList)] fuel rest := by
  have bytes : encode (quoted s) ++ rest =
      0x22 :: (encode (s.toList.flatMap escape) ++ 0x22 :: rest) := by
    rw [quoted, List.cons_append, encode_cons, encode_append, List.append_assoc, List.append_assoc]
    rfl
  rw [bytes, scan, scanString_quoted]
  rfl

theorem scan_natural (n : Nat) (fuel : Nat) {rest : Bytes} (stops : Stops rest) :
    scan (fuel + 1) (encode (Nat.toDigits 10 n) ++ rest) =
      scanAfter [.number (formOfNatural n)] fuel rest := by
  have plain := scanPlain_natural n stops
  obtain ⟨c, more, digit, bytes⟩ := encode_natural n
  rw [bytes, List.cons_append] at plain ⊢
  have other : ∀ b : UInt8, b.toNat < 48 ∨ 57 < b.toNat → UInt8.ofNat c.toNat ≠ b :=
    fun b => digit_byte_ne digit
  have space : isSpace (UInt8.ofNat c.toNat) = false := by
    simp [isSpace, other 0x20 (by decide), other 0x0A (by decide), other 0x0D (by decide),
      other 0x09 (by decide)]
  rw [scan, space, if_neg Bool.false_ne_true, if_neg (other 0x22 (by decide)), plain]
  rfl

theorem stops_cons {b : UInt8} (h : isDigitByte b = false) (point : b ≠ 0x2E) (small : b ≠ 0x65)
    (large : b ≠ 0x45) (rest : Bytes) : Stops (b :: rest) := by
  intro c hc
  cases hc
  exact ⟨h, point, small, large⟩

theorem stops_nil : Stops [] := by
  intro c hc
  cases hc

theorem stops_items (items : List Json) (rest : Bytes) :
    Stops (encode (compactMoreItems items) ++ rest) := by
  cases items with
  | nil => exact stops_cons (by decide) (by decide) (by decide) (by decide) _
  | cons => exact stops_cons (by decide) (by decide) (by decide) (by decide) _

theorem stops_fields (fields : List (String × Json)) (rest : Bytes) :
    Stops (encode (compactMoreFields fields) ++ rest) := by
  cases fields with
  | nil => exact stops_cons (by decide) (by decide) (by decide) (by decide) _
  | cons => exact stops_cons (by decide) (by decide) (by decide) (by decide) _

theorem scan_trans (tokens : List Token) {more : List Token} {fuel : Nat} {bytes middle rest : Bytes}
    (first : scan (fuel + more.length + tokens.length) bytes =
      scanAfter tokens (fuel + more.length) middle)
    (second : scan (fuel + more.length) middle = scanAfter more fuel rest) :
    scan (fuel + (tokens ++ more).length) bytes = scanAfter (tokens ++ more) fuel rest := by
  have total : fuel + (tokens ++ more).length = fuel + more.length + tokens.length := by
    rw [List.length_append]
    omega
  calc scan (fuel + (tokens ++ more).length) bytes
      = scanAfter tokens (fuel + more.length) middle := by rw [total, first]
    _ = (scanAfter more fuel rest).map (tokens ++ ·) := by rw [scanAfter, second]
    _ = scanAfter (tokens ++ more) fuel rest := scanAfter_append ..

mutual

theorem scan_compact (j : Json) (plain : j.Plain) (fuel : Nat) {rest : Bytes}
    (stops : Stops rest) :
    scan (fuel + j.tree.tokens.length) (encode (compactChars j) ++ rest) =
      scanAfter j.tree.tokens fuel rest := by
  match j with
  | .null => rfl
  | .bool true => rfl
  | .bool false => rfl
  | .number (.natural n) => exact scan_natural n fuel stops
  | .number (.negative n) | .number (.float x) => simp [Plain] at plain
  | .string s => exact scan_quoted s fuel rest
  | .array items =>
    have inner := scan_items items plain fuel rest
    exact scan_trans [.openBracket] (scan_punctuation rfl _ _) inner
  | .object fields =>
    have inner := scan_fields fields plain fuel rest
    exact scan_trans [.openBrace] (scan_punctuation rfl _ _) inner

theorem scan_items (items : List Json) (plain : PlainItems items) (fuel : Nat) (rest : Bytes) :
    scan (fuel + (Tree.itemTokens (itemTrees items)).length) (encode (compactItems items) ++ rest) =
      scanAfter (Tree.itemTokens (itemTrees items)) fuel rest := by
  match items with
  | [] => exact scan_punctuation rfl fuel rest
  | item :: items =>
    have inner := scan_moreItems items plain.2 fuel rest
    have first := scan_compact item plain.1
      (fuel + (Tree.moreItemTokens (itemTrees items)).length) (stops_items items rest)
    rw [compactItems, encode_append, List.append_assoc]
    exact scan_trans _ first inner

theorem scan_moreItems (items : List Json) (plain : PlainItems items) (fuel : Nat)
    (rest : Bytes) :
    scan (fuel + (Tree.moreItemTokens (itemTrees items)).length)
      (encode (compactMoreItems items) ++ rest) =
      scanAfter (Tree.moreItemTokens (itemTrees items)) fuel rest := by
  match items with
  | [] => exact scan_punctuation rfl fuel rest
  | item :: items =>
    have inner := scan_moreItems items plain.2 fuel rest
    have first := scan_compact item plain.1
      (fuel + (Tree.moreItemTokens (itemTrees items)).length) (stops_items items rest)
    rw [compactMoreItems, encode_cons, encode_append, List.append_assoc, List.append_assoc]
    exact scan_trans [.comma] (scan_punctuation rfl _ _) (scan_trans _ first inner)

theorem scan_fields (fields : List (String × Json)) (plain : PlainFields fields) (fuel : Nat)
    (rest : Bytes) :
    scan (fuel + (Tree.fieldTokens (fieldTrees fields)).length)
      (encode (compactFields fields) ++ rest) =
      scanAfter (Tree.fieldTokens (fieldTrees fields)) fuel rest := by
  match fields with
  | [] => exact scan_punctuation rfl fuel rest
  | (name, value) :: fields =>
    have inner := scan_moreFields fields plain.2 fuel rest
    have first := scan_compact value plain.1
      (fuel + (Tree.moreFieldTokens (fieldTrees fields)).length) (stops_fields fields rest)
    rw [compactFields, encode_append, List.append_assoc, encode_cons, encode_append,
      List.append_assoc, List.append_assoc]
    exact scan_trans [_] (scan_quoted name _ _)
      (scan_trans [.colon] (scan_punctuation rfl _ _) (scan_trans _ first inner))

theorem scan_moreFields (fields : List (String × Json)) (plain : PlainFields fields) (fuel : Nat)
    (rest : Bytes) :
    scan (fuel + (Tree.moreFieldTokens (fieldTrees fields)).length)
      (encode (compactMoreFields fields) ++ rest) =
      scanAfter (Tree.moreFieldTokens (fieldTrees fields)) fuel rest := by
  match fields with
  | [] => exact scan_punctuation rfl fuel rest
  | (name, value) :: fields =>
    have inner := scan_moreFields fields plain.2 fuel rest
    have first := scan_compact value plain.1
      (fuel + (Tree.moreFieldTokens (fieldTrees fields)).length) (stops_fields fields rest)
    rw [compactMoreFields, encode_cons, encode_append, List.append_assoc, encode_cons,
      encode_append, List.append_assoc, List.append_assoc, List.append_assoc]
    exact scan_trans [.comma] (scan_punctuation rfl _ _)
      (scan_trans [_] (scan_quoted name _ _)
        (scan_trans [.colon] (scan_punctuation rfl _ _) (scan_trans _ first inner)))

end

theorem length_encode (text : List Char) : text.length ≤ (encode text).length := by
  induction text with
  | nil => exact Nat.le_refl _
  | cons c rest ih =>
    have some := List.length_pos_iff.2 (String.utf8EncodeChar_ne_nil (c := c))
    rw [encode_cons, List.length_append, List.length_cons]
    omega

mutual

theorem length_tokens (j : Json) (plain : j.Plain) :
    j.tree.tokens.length ≤ (compactChars j).length := by
  match j with
  | .null => decide
  | .bool true => decide
  | .bool false => decide
  | .number (.natural n) => exact Nat.length_toDigits_pos
  | .number (.negative n) | .number (.float x) => simp [Plain] at plain
  | .string s => exact Nat.le_add_left 1 _
  | .array items => exact Nat.succ_le_succ (length_items items plain)
  | .object fields => exact Nat.succ_le_succ (length_fields fields plain)

theorem length_items (items : List Json) (plain : PlainItems items) :
    (Tree.itemTokens (itemTrees items)).length ≤ (compactItems items).length := by
  match items with
  | [] => decide
  | item :: items =>
    have first := length_tokens item plain.1
    have more := length_moreItems items plain.2
    simp only [itemTrees, Tree.itemTokens, compactItems, List.length_append]
    omega

theorem length_moreItems (items : List Json) (plain : PlainItems items) :
    (Tree.moreItemTokens (itemTrees items)).length ≤ (compactMoreItems items).length := by
  match items with
  | [] => decide
  | item :: items =>
    have first := length_tokens item plain.1
    have more := length_moreItems items plain.2
    simp only [itemTrees, Tree.moreItemTokens, compactMoreItems, List.length_append,
      List.length_cons]
    omega

theorem length_fields (fields : List (String × Json)) (plain : PlainFields fields) :
    (Tree.fieldTokens (fieldTrees fields)).length ≤ (compactFields fields).length := by
  match fields with
  | [] => decide
  | (name, value) :: fields =>
    have first := length_tokens value plain.1
    have more := length_moreFields fields plain.2
    simp only [fieldTrees, Tree.fieldTokens, compactFields, quoted, List.length_append,
      List.length_cons]
    omega

theorem length_moreFields (fields : List (String × Json)) (plain : PlainFields fields) :
    (Tree.moreFieldTokens (fieldTrees fields)).length ≤ (compactMoreFields fields).length := by
  match fields with
  | [] => decide
  | (name, value) :: fields =>
    have first := length_tokens value plain.1
    have more := length_moreFields fields plain.2
    simp only [fieldTrees, Tree.moreFieldTokens, compactMoreFields, quoted, List.length_append,
      List.length_cons]
    omega

end

theorem read_compact {j : Json} (plain : j.Plain) :
    Tree.read? (bytesOf j.compact) = some j.tree := by
  have few := Nat.le_trans (length_tokens j plain) (length_encode (compactChars j))
  have scanned := scan_compact j plain ((encode (compactChars j)).length - j.tree.tokens.length)
    stops_nil
  rw [Nat.sub_add_cancel few, List.append_nil] at scanned
  have bytes : bytesOf j.compact = encode (compactChars j) := by
    rw [bytesOf, compact, String.toList_ofList]
  rw [Tree.read?, tokens?, bytes, scanned, scanAfter]
  cases (encode (compactChars j)).length - j.tree.tokens.length <;>
    simp [scan, readValue_tree]

end Json
end ParallelLint
