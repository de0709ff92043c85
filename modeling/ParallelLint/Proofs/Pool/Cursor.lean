import Mathlib.Data.List.Count
import ParallelLint.Dispatch.Cursor

set_option autoImplicit false

namespace ParallelLint

namespace Cursor

inductive Use where
  | claim
  | exhaust (count : UInt64)
  deriving DecidableEq, Repr

namespace Use

def claims (uses : List Use) : Nat := uses.count .claim

def largest : List Use → Nat
  | [] => 0
  | .claim :: rest => largest rest
  | .exhaust count :: rest => max count.toNat (largest rest)

/-- A fresh cursor does not wrap around in these uses. -/
def Fits (uses : List Use) : Prop := claims uses + largest uses < UInt64.size

theorem largest_append (first second : List Use) :
    largest (first ++ second) = max (largest first) (largest second) := by
  induction first with
  | nil => simp [largest]
  | cons use rest ih =>
    cases use with
    | claim => exact ih
    | exhaust count => rw [List.cons_append, largest, largest, ih, Nat.max_assoc]

theorem largest_claims {uses : List Use} (only : ∀ use ∈ uses, use = .claim) :
    largest uses = 0 := by
  induction uses with
  | nil => rfl
  | cons use rest ih =>
    rw [only use List.mem_cons_self]
    exact ih fun use h => only use (List.mem_cons_of_mem _ h)

theorem claims_length {uses : List Use} (only : ∀ use ∈ uses, use = .claim) :
    claims uses = uses.length :=
  List.count_eq_length.2 fun use h => (only use h).symm

end Use

def use (c : Cursor) : Use → Cursor
  | .claim => c.claim.2
  | .exhaust count => c.exhaust count

def after (c : Cursor) (uses : List Use) : Cursor := uses.foldl use c

def taken (c : Cursor) : List Use → List UInt64
  | [] => []
  | .claim :: rest => c.claim.1 :: c.claim.2.taken rest
  | .exhaust count :: rest => (c.exhaust count).taken rest

theorem after_append (c : Cursor) (first second : List Use) :
    c.after (first ++ second) = (c.after first).after second :=
  List.foldl_append

theorem taken_append (c : Cursor) (first second : List Use) :
    c.taken (first ++ second) = c.taken first ++ (c.after first).taken second := by
  induction first generalizing c with
  | nil => rfl
  | cons use rest ih =>
    cases use with
    | claim => exact congrArg (c.claim.1 :: ·) (ih c.claim.2)
    | exhaust count => exact ih (c.exhaust count)

theorem taken_length (c : Cursor) (uses : List Use) : (c.taken uses).length = Use.claims uses := by
  induction uses generalizing c with
  | nil => rfl
  | cons use rest ih =>
    cases use with
    | claim => rw [taken, List.length_cons, ih, Use.claims, Use.claims, List.count_cons_self]
    | exhaust count => rw [taken, ih, Use.claims, Use.claims, List.count_cons_of_ne (by simp)]

/-- The cursor does not wrap around in these uses, wherever it stands. -/
def Room (c : Cursor) (uses : List Use) : Prop :=
  max c.position (Use.largest uses) + Use.claims uses < UInt64.size

theorem fresh_room {uses : List Use} (fits : Use.Fits uses) : fresh.Room uses := by
  unfold Use.Fits at fits
  have start : fresh.position = 0 := rfl
  unfold Room
  omega

theorem Room.front {c : Cursor} {first second : List Use} (room : c.Room (first ++ second)) :
    c.Room first := by
  unfold Room Use.claims at *
  rw [Use.largest_append, List.count_append] at room
  omega

theorem claim_position {c : Cursor} (h : c.position + 1 < UInt64.size) :
    c.claim.2.position = c.position + 1 := by
  have size : UInt64.size = 18446744073709551616 := rfl
  simp only [position, claim, UInt64.toNat_add, UInt64.reduceToNat] at h ⊢
  omega

theorem exhaust_position (c : Cursor) (count : UInt64) :
    (c.exhaust count).position = max c.position count.toNat := by
  change (if c.next ≤ count then count else c.next).toNat = max c.next.toNat count.toNat
  split
  · rename_i h
    have := UInt64.le_iff_toNat_le.1 h
    omega
  · rename_i h
    have := UInt64.lt_iff_toNat_lt.1 (UInt64.not_le.1 h)
    omega

namespace Room
variable {c : Cursor} {rest : List Use}

theorem claim_position (room : c.Room (.claim :: rest)) :
    c.claim.2.position = c.position + 1 := by
  unfold Room Use.claims at room
  rw [List.count_cons_self] at room
  exact Cursor.claim_position (by omega)

theorem claim (room : c.Room (.claim :: rest)) : c.claim.2.Room rest := by
  have next := room.claim_position
  unfold Room Use.claims at *
  rw [List.count_cons_self, Use.largest] at room
  omega

theorem exhaust {count : UInt64} (room : c.Room (.exhaust count :: rest)) :
    (c.exhaust count).Room rest := by
  unfold Room Use.claims at *
  rw [List.count_cons_of_ne (by simp), Use.largest] at room
  rw [exhaust_position]
  omega

theorem later {first second : List Use} (room : c.Room (first ++ second)) :
    (c.after first).Room second := by
  induction first generalizing c with
  | nil => exact room
  | cons use rest ih =>
    cases use with
    | claim => exact ih room.claim
    | exhaust count => exact ih room.exhaust

theorem position_le {uses : List Use} (room : c.Room uses) :
    c.position ≤ (c.after uses).position := by
  induction uses generalizing c with
  | nil => exact Nat.le_refl _
  | cons use rest ih =>
    cases use with
    | claim =>
      calc
        c.position ≤ c.claim.2.position := by rw [room.claim_position]; omega
        _ ≤ (c.after (.claim :: rest)).position := ih room.claim
    | exhaust count =>
      calc
        c.position ≤ (c.exhaust count).position := by rw [exhaust_position]; omega
        _ ≤ (c.after (.exhaust count :: rest)).position := ih room.exhaust

theorem taken_ge {uses : List Use} (room : c.Room uses) :
    ∀ number ∈ c.taken uses, c.position ≤ number.toNat := by
  induction uses generalizing c with
  | nil => simp [taken]
  | cons use rest ih =>
    intro number h
    cases use with
    | claim =>
      rcases List.mem_cons.1 h with rfl | h
      · exact Nat.le_refl _
      · have next := room.claim_position
        have := ih room.claim number h
        omega
    | exhaust count =>
      have next := exhaust_position c count
      have := ih room.exhaust number h
      omega

theorem taken_increasing {uses : List Use} (room : c.Room uses) :
    (c.taken uses).Pairwise (· < ·) := by
  induction uses generalizing c with
  | nil => exact .nil
  | cons use rest ih =>
    cases use with
    | claim =>
      refine .cons (fun number h => ?_) (ih room.claim)
      have next := room.claim_position
      have above := room.claim.taken_ge number h
      rw [next] at above
      exact UInt64.lt_iff_toNat_lt.2 above
    | exhaust count => exact ih room.exhaust

theorem taken_claims {uses : List Use} (room : c.Room uses) (only : ∀ use ∈ uses, use = .claim) :
    (c.taken uses).map UInt64.toNat = List.range' c.position uses.length := by
  induction uses generalizing c with
  | nil => rfl
  | cons use rest ih =>
    obtain rfl := only use List.mem_cons_self
    have later := ih room.claim fun use h => only use (List.mem_cons_of_mem _ h)
    rw [room.claim_position] at later
    calc (c.taken (.claim :: rest)).map UInt64.toNat
        = c.position :: (c.claim.2.taken rest).map UInt64.toNat := rfl
      _ = c.position :: List.range' (c.position + 1) rest.length := by rw [later]
      _ = List.range' c.position (rest.length + 1) := List.range'_succ.symm

end Room

theorem isExhausted_iff (c : Cursor) (count : UInt64) :
    c.isExhausted count = true ↔ count.toNat ≤ c.position := by
  rw [isExhausted, decide_eq_true_eq, UInt64.le_iff_toNat_le]
  rfl

end Cursor

end ParallelLint
