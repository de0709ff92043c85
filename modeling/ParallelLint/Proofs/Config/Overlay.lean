import ParallelLint.Proofs.Collection.Lookup
import ParallelLint.Proofs.Config.Fingerprints

set_option autoImplicit false

namespace ParallelLint
open Std

namespace Declared
variable {α : Type} {m n : Declared α}

def names (m : Declared α) : List String := m.entries.map Prod.fst

theorem lookup_put (name : String) (value : α) (entries : List (String × α)) (other : String) :
    (put name value entries).lookup other =
      if other = name then some value else entries.lookup other := by
  induction entries with
  | nil =>
    by_cases h : other = name
    · simp [put, h]
    · simp [put, List.lookup_cons, h, beq_eq_false_iff_ne.2 h]
  | cons e rest ih =>
    obtain ⟨k, v⟩ := e
    by_cases h : other = k
    · subst h
      by_cases here : other = name <;> simp [put, here]
    · have apart : (other == k) = false := beq_eq_false_iff_ne.2 h
      by_cases here : k = name
      · subst here
        simp [put, List.lookup_cons, apart, h]
      · simp [put, List.lookup_cons, here, apart, ih]

theorem find?_insert (m : Declared α) (name : String) (value : α) (other : String) :
    (m.insert name value).find? other = if other = name then some value else m.find? other :=
  lookup_put name value m.entries other

theorem names_insert (m : Declared α) (name : String) (value : α) :
    (m.insert name value).names = if name ∈ m.names then m.names else m.names ++ [name] :=
  keys_put name value m.entries

theorem entries_told (m : Declared α) :
    m.entries.map (fun e => (e.1, some e.2)) = m.names.map fun name => (name, m.find? name) := by
  rw [names, List.map_map]
  refine List.map_congr_left fun e he => ?_
  have found : m.find? e.1 = some e.2 := (lookup_mem_iff m.distinct).2 he
  rw [Function.comp_apply, found]

theorem ext_find? (order : m.names = n.names) (same : ∀ name, m.find? name = n.find? name) :
    m = n := by
  have entries : m.entries = n.entries := by
    have told := m.entries_told
    rw [order, funext same, ← n.entries_told] at told
    refine (List.map_injective_iff.2 fun e f alike => ?_) told
    exact Prod.ext (Prod.mk.inj alike).1 (Option.some.inj (Prod.mk.inj alike).2)
  cases m
  cases n
  cases entries
  rfl

theorem names_overlay (m n : Declared α) :
    (m.overlay n).names = m.names ++ n.names.filter (· ∉ m.names) := by
  obtain ⟨entries, distinct⟩ := n
  change Declared.names (entries.foldl (fun merged e => merged.insert e.1 e.2) m) =
    m.names ++ (entries.map Prod.fst).filter (· ∉ m.names)
  induction entries generalizing m with
  | nil => simp
  | cons e rest ih =>
    obtain ⟨new, others⟩ := List.nodup_cons.1 distinct
    rw [List.foldl_cons, ih _ others, names_insert, List.map_cons, List.filter_cons]
    by_cases known : e.1 ∈ m.names
    · simp [known]
    · have later : (rest.map Prod.fst).filter (· ∉ m.names ++ [e.1]) =
          (rest.map Prod.fst).filter (· ∉ m.names) := by
        refine List.filter_congr fun name hn => ?_
        have other : name ≠ e.1 := fun same => new (same ▸ hn)
        simp [other]
      simp only [known, ite_false, not_false_eq_true, decide_true, ite_true]
      rw [later, List.append_assoc, List.singleton_append]

theorem find?_overlay (m n : Declared α) (name : String) :
    (m.overlay n).find? name = (n.find? name).or (m.find? name) := by
  obtain ⟨entries, distinct⟩ := n
  change Declared.find? (entries.foldl (fun merged e => merged.insert e.1 e.2) m) name =
    (entries.lookup name).or (m.find? name)
  induction entries generalizing m with
  | nil => rfl
  | cons e rest ih =>
    obtain ⟨new, others⟩ := List.nodup_cons.1 distinct
    rw [List.foldl_cons, ih _ others, find?_insert, List.lookup_cons]
    by_cases same : name = e.1
    · have none : rest.lookup name = none := by
        rw [Option.eq_none_iff_forall_ne_some]
        intro value found
        exact new (same ▸ List.mem_map_of_mem ((lookup_mem_iff others).1 found))
      simp [same ▸ none, same]
    · have apart : (name == e.1) = false := beq_eq_false_iff_ne.2 same
      simp [same, apart]

theorem overlay_assoc (l m n : Declared α) : (l.overlay m).overlay n = l.overlay (m.overlay n) := by
  refine ext_find? ?_ fun name => ?_
  · simp only [names_overlay, List.filter_append, List.filter_filter, List.append_assoc]
    congr 2
    refine List.filter_congr fun name _ => ?_
    by_cases inner : name ∈ l.names <;> simp [inner]
  · simp only [find?_overlay, Option.or_assoc]

theorem empty_overlay (m : Declared α) : empty.overlay m = m := by
  refine ext_find? ?_ fun name => ?_
  · rw [names_overlay]
    exact List.filter_eq_self.2 fun name _ => rfl
  · rw [find?_overlay]
    exact Option.or_none

theorem overlay_self (m : Declared α) : m.overlay m = m := by
  refine ext_find? ?_ fun name => ?_
  · rw [names_overlay, List.filter_eq_nil_iff.2 (by simp), List.append_nil]
  · rw [find?_overlay, Option.or_self]

end Declared

namespace Sorted
variable {κ α : Type} [Ord κ] [TransOrd κ] {m n : Sorted κ α}

theorem ext_find? [LawfulEqOrd κ] (same : ∀ key, m.find? key = n.find? key) : m = n := by
  have mem : ∀ (m : Sorted κ α) key value, m.find? key = some value ↔ (key, value) ∈ m.entries := by
    intro m key value
    rw [find?_iff]
    constructor
    · rintro ⟨k, mem, equal⟩
      rwa [LawfulEqCmp.eq_of_compare equal]
    · exact fun mem => ⟨key, mem, ReflCmp.compare_self⟩
  have nodup : ∀ m : Sorted κ α, m.entries.Nodup := by
    refine fun m => m.distinct_entries.imp fun different same => different ?_
    rw [same]
    exact ReflCmp.compare_self
  refine eq_of_perm ((List.perm_ext_iff_of_nodup (nodup m) (nodup n)).2 ?_)
  rintro ⟨key, value⟩
  rw [← mem, ← mem, same]

theorem find?_overlay (m n : Sorted κ α) (key : κ) :
    (m.overlay n).find? key = (n.find? key).or (m.find? key) := by
  obtain ⟨entries, increasing⟩ := n
  change Sorted.find? (entries.foldl (fun merged e => merged.insert e.1 e.2) m) key =
    ((entries.find? fun e => compare key e.1 == .eq).map Prod.snd).or (m.find? key)
  induction entries generalizing m with
  | nil => rfl
  | cons e rest ih =>
    obtain ⟨first, others⟩ := List.pairwise_cons.1 increasing
    rw [List.foldl_cons, ih _ others, List.find?_cons]
    cases same : compare key e.1 == .eq with
    | true =>
      have equal : compare key e.1 = .eq := eq_of_beq same
      have none : rest.find? (fun e => compare key e.1 == .eq) = none := by
        refine List.find?_eq_none.2 fun f hf again => ?_
        have less := first f hf
        rw [← TransCmp.congr_left equal, eq_of_beq again] at less
        cases less
      rw [none, find?_insert_same m e.2 equal]
      rfl
    | false => rw [find?_insert_other m e.2 (by simpa using same)]

variable [LawfulEqOrd κ]

theorem overlay_assoc (l m n : Sorted κ α) : (l.overlay m).overlay n = l.overlay (m.overlay n) :=
  ext_find? fun key => by simp only [find?_overlay, Option.or_assoc]

theorem empty_overlay (m : Sorted κ α) : empty.overlay m = m :=
  ext_find? fun key => (find?_overlay empty m key).trans Option.or_none

theorem overlay_self (m : Sorted κ α) : m.overlay m = m :=
  ext_find? fun key => (find?_overlay m m key).trans Option.or_self

end Sorted

namespace Config

theorem mergedWith_assoc (a b c : Config) :
    (a.mergedWith b).mergedWith c = a.mergedWith (b.mergedWith c) := by
  simp only [mergedWith, Declared.overlay_assoc, Sorted.overlay_assoc]

theorem empty_mergedWith (a : Config) : empty.mergedWith a = a := by
  simp only [mergedWith, empty, Declared.empty_overlay, Sorted.empty_overlay]

theorem mergedWith_self (a : Config) : a.mergedWith a = a := by
  simp only [mergedWith, Declared.overlay_self, Sorted.overlay_self]

/-- Overlays form a monoid in which every configuration is idempotent. They take from the upper
configuration all that it says and from the lower one the rest, in the order of the lower one. -/
theorem mergedWith_monoid (a b c : Config) :
    (a.mergedWith b).mergedWith c = a.mergedWith (b.mergedWith c) ∧
    empty.mergedWith a = a ∧ a.mergedWith empty = a ∧ a.mergedWith a = a ∧
    (∀ rule, (a.mergedWith b).rules.find? rule =
      (b.rules.find? rule).or (a.rules.find? rule)) ∧
    (∀ name, (a.mergedWith b).settings.find? name =
      (b.settings.find? name).or (a.settings.find? name)) ∧
    (a.mergedWith b).rules.names =
      a.rules.names ++ b.rules.names.filter (· ∉ a.rules.names) :=
  ⟨mergedWith_assoc a b c, empty_mergedWith a, rfl, mergedWith_self a,
    Declared.find?_overlay a.rules b.rules, Sorted.find?_overlay a.settings b.settings,
    Declared.names_overlay a.rules b.rules⟩

end Config
end ParallelLint
