import Mathlib.Data.List.Nodup
import Mathlib.Data.List.Pairwise
import ParallelLint.Collection.Sorted

set_option autoImplicit false

namespace ParallelLint.Sorted
open Std
variable {κ α : Type} [Ord κ]

/-- All keys are different ones to the order of the map. -/
def Distinct (entries : List (κ × α)) : Prop :=
  entries.Pairwise fun a b => compare a.1 b.1 ≠ .eq

theorem ext {m n : Sorted κ α} (h : m.entries = n.entries) : m = n := by
  cases m
  cases n
  cases h
  rfl

theorem put_perm {key : κ} {value : α} {entries : List (κ × α)}
    (new : ∀ e ∈ entries, compare key e.1 ≠ .eq) :
    (put key value entries).Perm ((key, value) :: entries) := by
  induction entries with
  | nil => exact .refl _
  | cons e rest ih =>
    obtain ⟨k, v⟩ := e
    rw [put]
    split
    · exact .refl _
    · rename_i same
      exact absurd same (new (k, v) (by simp))
    · calc
        ((k, v) :: put key value rest).Perm ((k, v) :: (key, value) :: rest) :=
          (ih fun e he => new e (List.mem_cons_of_mem _ he)).cons _
        ((k, v) :: (key, value) :: rest).Perm ((key, value) :: (k, v) :: rest) := .swap _ _ _

theorem foldl_insert_perm [TransOrd κ] {entries : List (κ × α)} (m : Sorted κ α)
    (distinct : Distinct (m.entries ++ entries)) :
    (entries.foldl (fun m e => m.insert e.1 e.2) m).entries.Perm (m.entries ++ entries) := by
  induction entries generalizing m with
  | nil => simp
  | cons e rest ih =>
    have moved : ((put e.1 e.2 m.entries) ++ rest).Perm (m.entries ++ e :: rest) := by
      have new : ∀ f ∈ m.entries, compare e.1 f.1 ≠ .eq := by
        intro f hf same
        exact (List.pairwise_append.1 distinct).2.2 f hf e (by simp) (OrientedCmp.eq_symm same)
      calc
        ((put e.1 e.2 m.entries) ++ rest).Perm (e :: m.entries ++ rest) :=
          (put_perm new).append_right rest
        (e :: m.entries ++ rest).Perm (m.entries ++ e :: rest) := List.perm_middle.symm
    have distinct' : Distinct ((m.insert e.1 e.2).entries ++ rest) :=
      moved.symm.pairwise distinct fun h same => h (OrientedCmp.eq_symm same)
    exact (ih _ distinct').trans moved

theorem ofList_perm [TransOrd κ] {entries : List (κ × α)} (distinct : Distinct entries) :
    (ofList entries).entries.Perm entries :=
  foldl_insert_perm empty distinct

theorem eq_of_perm [TransOrd κ] {m n : Sorted κ α} (h : m.entries.Perm n.entries) : m = n := by
  refine ext (h.eq_of_pairwise (fun a b _ _ less more => ?_) m.increasing n.increasing)
  have greater := OrientedCmp.gt_iff_lt.2 more
  rw [less] at greater
  cases greater

theorem ofList_eq_of_perm [TransOrd κ] {entries more : List (κ × α)} (h : entries.Perm more)
    (distinct : Distinct entries) : ofList entries = ofList more := by
  have distinct' : Distinct more := h.pairwise distinct fun h same => h (OrientedCmp.eq_symm same)
  refine eq_of_perm ?_
  calc
    (ofList entries).entries.Perm entries := ofList_perm distinct
    entries.Perm more := h
    more.Perm (ofList more).entries := (ofList_perm distinct').symm

theorem distinct_entries (m : Sorted κ α) : Distinct m.entries :=
  m.increasing.imp fun less same => by
    rw [less] at same
    cases same

theorem entry_unique [TransOrd κ] {m : Sorted κ α} {e f : κ × α} (he : e ∈ m.entries)
    (hf : f ∈ m.entries) (same : compare e.1 f.1 = .eq) : e = f := by
  by_contra other
  have : Std.Symm fun a b : κ × α => compare a.1 b.1 ≠ .eq :=
    ⟨fun _ _ apart same => apart (OrientedCmp.eq_symm same)⟩
  exact List.Pairwise.forall m.distinct_entries he hf other same

theorem nodup_keys [TransOrd κ] (m : Sorted κ α) : (m.entries.map Prod.fst).Nodup := by
  refine List.pairwise_map.2 (m.distinct_entries.imp fun {a b} apart same => apart ?_)
  rw [same]
  exact ReflCmp.compare_self

theorem eq_of_mem [TransOrd κ] {m n : Sorted κ α} (same : ∀ e, e ∈ m.entries ↔ e ∈ n.entries) :
    m = n :=
  eq_of_perm ((List.perm_ext_iff_of_nodup (.of_map _ m.nodup_keys) (.of_map _ n.nodup_keys)).2 same)

theorem ofList_entries [TransOrd κ] (m : Sorted κ α) : ofList m.entries = m :=
  eq_of_perm (ofList_perm m.distinct_entries)

end ParallelLint.Sorted
