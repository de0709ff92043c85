set_option autoImplicit false

/-!
Maps in increasing order of their keys. Keys that compare equal are one key; the first of them to
be inserted stays, whatever is inserted later replaces the value only.
-/
namespace ParallelLint
open Std

structure Sorted (κ α : Type) [Ord κ] where
  entries : List (κ × α)
  increasing : entries.Pairwise fun a b => compare a.1 b.1 = .lt

namespace Sorted
variable {κ α : Type} [Ord κ]

def put (key : κ) (value : α) : List (κ × α) → List (κ × α)
  | [] => [(key, value)]
  | (k, v) :: rest =>
    match compare key k with
    | .lt => (key, value) :: (k, v) :: rest
    | .eq => (k, value) :: rest
    | .gt => (k, v) :: put key value rest

theorem key_of_mem_put {key : κ} {value : α} {entries : List (κ × α)} {e : κ × α}
    (h : e ∈ put key value entries) : e.1 = key ∨ ∃ f ∈ entries, f.1 = e.1 := by
  induction entries with
  | nil => simp only [put, List.mem_singleton] at h; exact .inl (by rw [h])
  | cons f rest ih =>
    obtain ⟨k, v⟩ := f
    rw [put] at h
    split at h
    · rcases List.mem_cons.1 h with rfl | h
      · exact .inl rfl
      · exact .inr ⟨e, h, rfl⟩
    · rcases List.mem_cons.1 h with rfl | h
      · exact .inr ⟨(k, v), by simp, rfl⟩
      · exact .inr ⟨e, List.mem_cons_of_mem _ h, rfl⟩
    · rcases List.mem_cons.1 h with rfl | h
      · exact .inr ⟨(k, v), by simp, rfl⟩
      · rcases ih h with h | ⟨g, hg, h⟩
        · exact .inl h
        · exact .inr ⟨g, List.mem_cons_of_mem _ hg, h⟩

theorem put_increasing [TransOrd κ] (key : κ) (value : α) {entries : List (κ × α)}
    (h : entries.Pairwise fun a b => compare a.1 b.1 = .lt) :
    (put key value entries).Pairwise fun a b => compare a.1 b.1 = .lt := by
  induction entries with
  | nil => simp [put]
  | cons f rest ih =>
    obtain ⟨k, v⟩ := f
    obtain ⟨first, others⟩ := List.pairwise_cons.1 h
    rw [put]
    split
    · rename_i below
      refine List.pairwise_cons.2 ⟨fun e he => ?_, h⟩
      rcases List.mem_cons.1 he with rfl | he
      · exact below
      · exact TransCmp.lt_trans below (first e he)
    · exact List.pairwise_cons.2 ⟨first, others⟩
    · rename_i above
      refine List.pairwise_cons.2 ⟨fun e he => ?_, ih others⟩
      rcases key_of_mem_put he with same | ⟨f, hf, same⟩
      · rw [same]; exact OrientedCmp.gt_iff_lt.1 above
      · rw [← same]; exact first f hf

def empty : Sorted κ α := ⟨[], .nil⟩

def insert [TransOrd κ] (m : Sorted κ α) (key : κ) (value : α) : Sorted κ α :=
  ⟨put key value m.entries, put_increasing key value m.increasing⟩

def find? (m : Sorted κ α) (key : κ) : Option α :=
  (m.entries.find? fun e => compare key e.1 == .eq).map Prod.snd

/-- Keeps the value of a key that is there already. -/
def insertIfAbsent [TransOrd κ] (m : Sorted κ α) (key : κ) (value : α) : Sorted κ α :=
  if (m.find? key).isSome then m else m.insert key value

def filter (m : Sorted κ α) (keep : κ → Bool) : Sorted κ α :=
  ⟨m.entries.filter fun e => keep e.1, m.increasing.sublist List.filter_sublist⟩

def size (m : Sorted κ α) : Nat := m.entries.length

def ofList [TransOrd κ] (entries : List (κ × α)) : Sorted κ α :=
  entries.foldl (fun m e => m.insert e.1 e.2) empty

def overlay [TransOrd κ] (m other : Sorted κ α) : Sorted κ α :=
  other.entries.foldl (fun merged e => merged.insert e.1 e.2) m

instance : Inhabited (Sorted κ α) := ⟨empty⟩

end Sorted
end ParallelLint
