import Mathlib.Data.List.Induction
import ParallelLint.Path
import ParallelLint.Proofs.Collection.Sorted

set_option autoImplicit false

namespace ParallelLint
open Std

namespace Sorted
variable {κ α : Type} [Ord κ]

theorem find?_iff [TransOrd κ] (m : Sorted κ α) {key : κ} {value : α} :
    m.find? key = some value ↔ ∃ k, (k, value) ∈ m.entries ∧ compare key k = .eq := by
  unfold find?
  have increasing := m.increasing
  generalize m.entries = entries at increasing
  induction entries with
  | nil => simp
  | cons e rest ih =>
    obtain ⟨k, v⟩ := e
    obtain ⟨first, others⟩ := List.pairwise_cons.1 increasing
    rw [List.find?_cons]
    cases same : compare key k == .eq with
    | true =>
      have equal : compare key k = .eq := eq_of_beq same
      simp only [Option.map_some, Option.some.injEq, List.mem_cons, Prod.mk.injEq]
      constructor
      · rintro rfl
        exact ⟨k, .inl ⟨rfl, rfl⟩, equal⟩
      · rintro ⟨k', ⟨rfl, rfl⟩ | mem, equal'⟩
        · rfl
        · have less := first _ mem
          rw [← TransCmp.congr_left equal, equal'] at less
          cases less
    | false =>
      have other : compare key k ≠ .eq := by simpa using same
      refine (ih others).trans ?_
      simp only [List.mem_cons, Prod.mk.injEq]
      constructor
      · rintro ⟨k', mem, equal⟩
        exact ⟨k', .inr mem, equal⟩
      · rintro ⟨k', ⟨rfl, rfl⟩ | mem, equal⟩
        · exact absurd equal other
        · exact ⟨k', mem, equal⟩

/-- The spelling of a key that is there already, or its own. -/
def keyIn (key : κ) (entries : List (κ × α)) : κ :=
  ((entries.find? fun e => compare key e.1 == .eq).map Prod.fst).getD key

theorem keyIn_absent {key : κ} {entries : List (κ × α)}
    (other : ∀ e ∈ entries, compare key e.1 ≠ .eq) : keyIn key entries = key := by
  have none : entries.find? (fun e => compare key e.1 == .eq) = none :=
    List.find?_eq_none.2 fun e he => by simpa using other e he
  rw [keyIn, none]
  rfl

theorem keyIn_cons_same {key k : κ} {v : α} {rest : List (κ × α)} (same : compare key k = .eq) :
    keyIn key ((k, v) :: rest) = k := by
  rw [keyIn, List.find?_cons_of_pos (by simp [same])]
  rfl

theorem keyIn_cons_other {key k : κ} {v : α} {rest : List (κ × α)} (other : compare key k ≠ .eq) :
    keyIn key ((k, v) :: rest) = keyIn key rest := by
  rw [keyIn, List.find?_cons_of_neg (by simpa using other)]
  rfl

theorem compare_keyIn [TransOrd κ] (key : κ) (entries : List (κ × α)) :
    compare key (keyIn key entries) = .eq := by
  unfold keyIn
  cases found : entries.find? fun e => compare key e.1 == .eq with
  | none => exact ReflCmp.compare_self
  | some e =>
    have same := List.find?_some found
    exact eq_of_beq same

theorem keyIn_of_mem [TransOrd κ] {m : Sorted κ α} {key : κ} {e : κ × α} (mem : e ∈ m.entries)
    (same : compare key e.1 = .eq) : keyIn key m.entries = e.1 := by
  have increasing := m.increasing
  generalize m.entries = entries at mem increasing
  induction entries with
  | nil => cases mem
  | cons f rest ih =>
    obtain ⟨first, others⟩ := List.pairwise_cons.1 increasing
    rcases List.mem_cons.1 mem with rfl | mem
    · exact keyIn_cons_same same
    · have other : compare key f.1 ≠ .eq := by
        intro equal
        have less := first e mem
        rw [← TransCmp.congr_left equal, same] at less
        cases less
      exact (keyIn_cons_other other).trans (ih mem others)

theorem keyIn_cases (key : κ) (entries : List (κ × α)) :
    keyIn key entries = key ∨ ∃ v, (keyIn key entries, v) ∈ entries := by
  unfold keyIn
  cases found : entries.find? fun e => compare key e.1 == .eq with
  | none => exact .inl rfl
  | some e => exact .inr ⟨e.2, List.mem_of_find?_eq_some found⟩

theorem mem_put_iff [TransOrd κ] {key k : κ} {value v : α} {entries : List (κ × α)}
    (increasing : entries.Pairwise fun a b => compare a.1 b.1 = .lt) :
    (k, v) ∈ put key value entries ↔
      k = keyIn key entries ∧ v = value ∨ (k, v) ∈ entries ∧ compare key k ≠ .eq := by
  induction entries with
  | nil => simp [put, keyIn]
  | cons f rest ih =>
    obtain ⟨k', v'⟩ := f
    obtain ⟨first, others⟩ := List.pairwise_cons.1 increasing
    have above : ∀ e ∈ rest, compare key k' ≠ .gt → compare key e.1 = .lt := by
      intro e he notAbove
      have less := first e he
      cases order : compare key k' with
      | lt => exact TransCmp.lt_trans order less
      | eq => rwa [TransCmp.congr_left order]
      | gt => exact absurd order notAbove
    cases order : compare key k' with
    | lt =>
      have later : ∀ e ∈ (k', v') :: rest, compare key e.1 ≠ .eq := by
        intro e he
        rcases List.mem_cons.1 he with rfl | he
        · simp [order]
        · simp [above e he (by simp [order])]
      rw [keyIn_absent later, put, order, List.mem_cons, Prod.mk.injEq]
      exact or_congr_right ⟨fun mem => ⟨mem, later _ mem⟩, And.left⟩
    | eq =>
      rw [keyIn_cons_same order, put, order, List.mem_cons, Prod.mk.injEq]
      refine or_congr_right ⟨fun mem => ⟨List.mem_cons_of_mem _ mem, ?_⟩, ?_⟩
      · simp [above _ mem (by simp [order])]
      · rintro ⟨mem, other⟩
        rcases List.mem_cons.1 mem with same | mem
        · cases same
          exact absurd order other
        · exact mem
    | gt =>
      have different : compare key k' ≠ .eq := by simp [order]
      rw [keyIn_cons_other different, put, order, List.mem_cons, ih others, List.mem_cons]
      constructor
      · rintro (same | here | ⟨mem, other⟩)
        · cases same
          exact .inr ⟨.inl rfl, different⟩
        · exact .inl here
        · exact .inr ⟨.inr mem, other⟩
      · rintro (here | ⟨same | mem, other⟩)
        · exact .inr (.inl here)
        · exact .inl same
        · exact .inr (.inr ⟨mem, other⟩)

theorem mem_insert [TransOrd κ] {m : Sorted κ α} {key : κ} {value : α} {e : κ × α} :
    e ∈ (m.insert key value).entries ↔
      e.1 = keyIn key m.entries ∧ e.2 = value ∨ e ∈ m.entries ∧ compare key e.1 ≠ .eq :=
  mem_put_iff m.increasing

theorem find?_insert_same [TransOrd κ] (m : Sorted κ α) {key other : κ} (value : α)
    (same : compare other key = .eq) : (m.insert key value).find? other = some value :=
  (find?_iff _).2 ⟨keyIn key m.entries, mem_insert.2 (.inl ⟨rfl, rfl⟩),
    TransCmp.eq_trans same (compare_keyIn ..)⟩

theorem find?_insert_other [TransOrd κ] (m : Sorted κ α) {key other : κ} (value : α)
    (different : compare other key ≠ .eq) : (m.insert key value).find? other = m.find? other := by
  refine Option.ext fun v => ?_
  rw [find?_iff, find?_iff]
  constructor
  · rintro ⟨k, mem, same⟩
    rcases mem_insert.1 mem with ⟨rfl, -⟩ | ⟨mem, -⟩
    · exact absurd (TransCmp.eq_trans same (OrientedCmp.eq_symm (compare_keyIn ..))) different
    · exact ⟨k, mem, same⟩
  · rintro ⟨k, mem, same⟩
    refine ⟨k, mem_insert.2 (.inr ⟨mem, fun equal => different ?_⟩), same⟩
    exact TransCmp.eq_trans same (OrientedCmp.eq_symm equal)

theorem insert_found [TransOrd κ] (m : Sorted κ α) {key : κ} {value : α}
    (h : m.find? key = some value) : m.insert key value = m := by
  obtain ⟨k, mem, same⟩ := (find?_iff m).1 h
  refine ext ?_
  change put key value m.entries = m.entries
  have increasing := m.increasing
  generalize m.entries = entries at increasing mem
  induction entries with
  | nil => cases mem
  | cons f rest ih =>
    obtain ⟨k', v⟩ := f
    obtain ⟨first, others⟩ := List.pairwise_cons.1 increasing
    rw [put]
    rcases List.mem_cons.1 mem with here | mem
    · cases here
      rw [same]
    · have below : compare k' key = .lt := by
        rw [TransCmp.congr_right same]
        exact first _ mem
      rw [OrientedCmp.gt_iff_lt.2 below]
      simp only
      rw [ih others mem]

theorem find?_filter [TransOrd κ] (m : Sorted κ α) {keep : κ → Bool} {key : κ} {value : α} :
    (m.filter keep).find? key = some value ↔
      ∃ k, (k, value) ∈ m.entries ∧ compare key k = .eq ∧ keep k = true := by
  rw [find?_iff]
  simp only [filter, List.mem_filter]
  exact ⟨fun ⟨k, ⟨mem, kept⟩, same⟩ => ⟨k, mem, same, kept⟩,
    fun ⟨k, mem, same, kept⟩ => ⟨k, ⟨mem, kept⟩, same⟩⟩

theorem filter_all {m : Sorted κ α} {keep : κ → Bool} (all : ∀ e ∈ m.entries, keep e.1 = true) :
    m.filter keep = m :=
  ext (List.filter_eq_self.2 all)

theorem mem_ofList [TransOrd κ] {entries : List (κ × α)} {e : κ × α}
    (h : e ∈ (ofList entries).entries) : ∃ k, (k, e.2) ∈ entries := by
  induction entries using List.reverseRecOn with
  | nil => cases h
  | append_singleton before last ih =>
    have split : ofList (before ++ [last]) = (ofList before).insert last.1 last.2 :=
      List.foldl_append
    rw [split] at h
    rcases mem_insert.1 h with ⟨-, value⟩ | ⟨h, -⟩
    · exact ⟨last.1, by simp [value]⟩
    · obtain ⟨k, mem⟩ := ih h
      exact ⟨k, List.mem_append_left _ mem⟩

theorem find?_ofList [TransOrd κ] (entries : List (κ × α)) (key : κ) :
    (ofList entries).find? key =
      (entries.reverse.find? fun e => compare key e.1 == .eq).map Prod.snd := by
  induction entries using List.reverseRecOn with
  | nil => rfl
  | append_singleton before e ih =>
    have last : ofList (before ++ [e]) = (ofList before).insert e.1 e.2 := List.foldl_append
    rw [last, List.reverse_append, List.reverse_singleton, List.singleton_append, List.find?_cons]
    cases same : compare key e.1 == .eq with
    | true => exact find?_insert_same _ _ (eq_of_beq same)
    | false => rw [find?_insert_other _ _ (by simpa using same), ih]

theorem mem_ofList_key [TransOrd κ] {entries : List (κ × α)} {e : κ × α}
    (h : e ∈ (ofList entries).entries) : ∃ f ∈ entries, compare e.1 f.1 = .eq ∧ f.2 = e.2 := by
  have found := (find?_iff _).2 ⟨e.1, h, ReflCmp.compare_self⟩
  rw [find?_ofList] at found
  obtain ⟨f, listed, value⟩ := Option.map_eq_some_iff.1 found
  have same := List.find?_some listed
  exact ⟨f, List.mem_reverse.1 (List.mem_of_find?_eq_some listed), eq_of_beq same, value⟩

def insertAll [TransOrd κ] (m : Sorted κ α) (news : List (κ × α)) : Sorted κ α :=
  news.foldl (fun m e => m.insert e.1 e.2) m

theorem keyIn_put [TransOrd κ] {key other : κ} {value : α} {entries : List (κ × α)}
    (increasing : entries.Pairwise fun a b => compare a.1 b.1 = .lt)
    (different : compare other key ≠ .eq) :
    keyIn other (put key value entries) = keyIn other entries := by
  induction entries with
  | nil => rw [put, keyIn_cons_other different]
  | cons f rest ih =>
    obtain ⟨k, v⟩ := f
    obtain ⟨-, others⟩ := List.pairwise_cons.1 increasing
    rw [put]
    split
    · exact keyIn_cons_other different
    · by_cases same : compare other k = .eq
      · rw [keyIn_cons_same same, keyIn_cons_same same]
      · rw [keyIn_cons_other same, keyIn_cons_other same]
    · by_cases same : compare other k = .eq
      · rw [keyIn_cons_same same, keyIn_cons_same same]
      · rw [keyIn_cons_other same, keyIn_cons_other same, ih others]

theorem mem_insertAll [TransOrd κ] {m : Sorted κ α} {news : List (κ × α)} (distinct : Distinct news)
    {k : κ} {v : α} : (k, v) ∈ (m.insertAll news).entries ↔
      (∃ e ∈ news, k = keyIn e.1 m.entries ∧ v = e.2) ∨
        (k, v) ∈ m.entries ∧ ∀ e ∈ news, compare e.1 k ≠ .eq := by
  induction news generalizing m with
  | nil => simp [insertAll]
  | cons f rest ih =>
    obtain ⟨first, others⟩ := List.pairwise_cons.1 distinct
    have keys : ∀ e ∈ rest, keyIn e.1 (m.insert f.1 f.2).entries = keyIn e.1 m.entries :=
      fun e he => keyIn_put m.increasing fun same => first e he (OrientedCmp.eq_symm same)
    change (k, v) ∈ ((m.insert f.1 f.2).insertAll rest).entries ↔ _
    rw [ih others]
    rw [mem_insert]
    constructor
    · rintro (⟨e, he, rfl, rfl⟩ | ⟨⟨rfl, rfl⟩ | ⟨mem, other⟩, apart⟩)
      · exact .inl ⟨e, List.mem_cons_of_mem _ he, keys e he, rfl⟩
      · exact .inl ⟨f, List.mem_cons_self .., rfl, rfl⟩
      · refine .inr ⟨mem, fun e he => ?_⟩
        rcases List.mem_cons.1 he with rfl | he
        · exact other
        · exact apart e he
    · rintro (⟨e, he, rfl, rfl⟩ | ⟨mem, apart⟩)
      · rcases List.mem_cons.1 he with rfl | he
        · refine .inr ⟨.inl ⟨rfl, rfl⟩, fun e' he' same => first e' he' ?_⟩
          exact TransCmp.eq_trans (compare_keyIn _ _) (OrientedCmp.eq_symm same)
        · exact .inl ⟨e, he, (keys e he).symm, rfl⟩
      · exact .inr ⟨.inr ⟨mem, apart f (List.mem_cons_self ..)⟩,
          fun e he => apart e (List.mem_cons_of_mem _ he)⟩

theorem insertAll_found [TransOrd κ] {m : Sorted κ α} {news : List (κ × α)}
    (known : ∀ e ∈ news, m.find? e.1 = some e.2) : m.insertAll news = m := by
  induction news with
  | nil => rfl
  | cons e rest ih =>
    change (m.insert e.1 e.2).insertAll rest = m
    rw [insert_found m (known e (List.mem_cons_self ..))]
    exact ih fun f hf => known f (List.mem_cons_of_mem _ hf)

end Sorted

namespace Path

instance : LawfulEqOrd Part where
  eq_of_compare {a b} h := by
    have both : (compareOn Part.rank a b).then (compareOn Part.text a b) = .eq := h
    rw [Ordering.then_eq_eq] at both
    obtain ⟨rank, text⟩ := both
    have rank : a.rank = b.rank := LawfulEqCmp.eq_of_compare rank
    have text : a.text = b.text := LawfulEqCmp.eq_of_compare text
    cases a <;> cases b <;> simp_all [Part.rank, Part.text]

theorem compare_eq {p q : Path} : compare p q = .eq ↔ p.parts = q.parts :=
  @LawfulEqCmp.compare_eq_iff_eq _ (compare : List Part → List Part → Ordering) _ _ _

end Path
end ParallelLint
