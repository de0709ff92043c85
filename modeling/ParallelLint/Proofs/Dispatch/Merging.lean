import ParallelLint.Proofs.Dispatch.Merge

set_option autoImplicit false

namespace ParallelLint
open Std

/-- There is a report, and one of so many tasks is its task. -/
def Outcome.Placed (count : Nat) (o : Outcome) : Prop := o.report.isSome ∧ o.index < count

def placed (outcomes : List Outcome) (count : Nat) : List Merged :=
  (outcomes.filterMap Outcome.merged?).filter fun m => m.index < count

/-- No two outcomes place a report at one task. -/
def Unshared (count : Nat) (outcomes : List Outcome) : Prop :=
  outcomes.Pairwise fun a b => a.Placed count → b.Placed count → a.index ≠ b.index

section Placed
variable {outcomes more : List Outcome} {count : Nat} {m : Merged}

theorem Outcome.merged?_eq {o : Outcome} :
    o.merged? = some m ↔
      o.report = some m.report ∧ o.index = m.index ∧ o.signature = m.signature := by
  obtain ⟨index, report, signature⟩ := m
  simp [merged?]

theorem mem_placed :
    m ∈ placed outcomes count ↔ ∃ o ∈ outcomes, o.merged? = some m ∧ o.index < count := by
  simp only [placed, List.mem_filter, List.mem_filterMap, decide_eq_true_eq]
  constructor
  · rintro ⟨⟨o, mem, merged⟩, below⟩
    exact ⟨o, mem, merged, merged_index merged ▸ below⟩
  · rintro ⟨o, mem, merged, below⟩
    exact ⟨⟨o, mem, merged⟩, (merged_index merged).symm ▸ below⟩

theorem placed_append :
    placed (outcomes ++ more) count = placed outcomes count ++ placed more count := by
  simp [placed]

theorem placed_perm (h : outcomes.Perm more) (count : Nat) :
    (placed outcomes count).Perm (placed more count) :=
  (h.filterMap _).filter _

theorem placed_strays (strays : ∀ o ∈ outcomes, ¬ o.Placed count) : placed outcomes count = [] := by
  refine List.eq_nil_iff_forall_not_mem.2 fun m mem => ?_
  obtain ⟨o, listed, merged, below⟩ := mem_placed.1 mem
  exact strays o listed ⟨by simp [(Outcome.merged?_eq.1 merged).1], below⟩

theorem Unshared.placed (unshared : Unshared count outcomes) :
    (placed outcomes count).Pairwise fun m n => m.index ≠ n.index := by
  rw [ParallelLint.placed, List.pairwise_filter, List.pairwise_filterMap]
  refine unshared.imp fun {a b} apart m hm n hn below below' => ?_
  have here := merged_index hm
  have there := merged_index hn
  simp only [decide_eq_true_eq] at below below'
  rw [here] at below
  rw [there] at below'
  have := apart ⟨by simp [(Outcome.merged?_eq.1 hm).1], below⟩
    ⟨by simp [(Outcome.merged?_eq.1 hn).1], below'⟩
  omega

def keyed (outcomes : List Outcome) (count : Nat) : List (Nat × Merged) :=
  (placed outcomes count).map fun m => (m.index, m)

theorem Unshared.keyed (unshared : Unshared count outcomes) :
    Sorted.Distinct (keyed outcomes count) :=
  List.pairwise_map.2 (unshared.placed.imp fun apart same => apart (Nat.compare_eq_eq.1 same))

theorem mergeOutcomes_placed (unshared : Unshared count outcomes) :
    (mergeOutcomes outcomes count).Perm (placed outcomes count) := by
  have sorted := (Sorted.ofList_perm unshared.keyed).map Prod.snd
  have values : (keyed outcomes count).map Prod.snd = placed outcomes count := by
    simp [keyed, Function.comp_def]
  rwa [values] at sorted

theorem keyed_entry {e : Nat × Merged} (mem : e ∈ (Sorted.ofList (keyed outcomes count)).entries) :
    e.1 = e.2.index ∧ e.1 < count := by
  obtain ⟨f, mem, same, value⟩ := Sorted.mem_ofList_key mem
  obtain ⟨m, listed, rfl⟩ := List.mem_map.1 mem
  obtain ⟨o, -, merged, below⟩ := mem_placed.1 listed
  rw [Nat.compare_eq_eq.1 same, ← value]
  exact ⟨rfl, by rwa [merged_index merged]⟩

theorem mergeOutcomes_increasing (outcomes : List Outcome) (count : Nat) :
    (mergeOutcomes outcomes count).Pairwise fun m n => m.index < n.index := by
  let sorted := Sorted.ofList (keyed outcomes count)
  refine List.pairwise_map.2 (sorted.increasing.imp_of_mem fun {e f} he hf less => ?_)
  rw [← (keyed_entry he).1, ← (keyed_entry hf).1]
  exact Nat.compare_eq_lt.1 less

theorem mergeOutcomes_strays {strays strays' : List Outcome} (unshared : Unshared count outcomes)
    (none : ∀ o ∈ strays, ¬ o.Placed count) (none' : ∀ o ∈ strays', ¬ o.Placed count)
    (h : (more ++ strays').Perm (outcomes ++ strays)) :
    mergeOutcomes more count = mergeOutcomes outcomes count := by
  have same : (placed more count).Perm (placed outcomes count) := by
    have all := placed_perm h count
    rwa [placed_append, placed_append, placed_strays none, placed_strays none', List.append_nil,
      List.append_nil] at all
  have entries : (keyed outcomes count).Perm (keyed more count) := same.symm.map _
  change (Sorted.ofList (keyed more count)).entries.map Prod.snd = _
  rw [← Sorted.ofList_eq_of_perm entries unshared.keyed]
  rfl

end Placed

/-- A report goes into the slot of its task, over what is there; one without a slot is dropped. -/
def place (slots : List (Option Merged)) (o : Outcome) : List (Option Merged) :=
  match o.merged? with
  | none => slots
  | some m => slots.set m.index (some m)

def slots (outcomes : List Outcome) (count : Nat) : List (Option Merged) :=
  outcomes.foldl place (List.replicate count none)

theorem place_length (slots : List (Option Merged)) (o : Outcome) :
    (place slots o).length = slots.length := by
  unfold place
  split
  · rfl
  · exact List.length_set

theorem slots_length (outcomes : List Outcome) (count : Nat) :
    (slots outcomes count).length = count := by
  induction outcomes using List.reverseRecOn with
  | nil => exact List.length_replicate
  | append_singleton before o ih =>
    rw [slots, List.foldl_append]
    exact (place_length ..).trans ih

theorem slots_find? (outcomes : List Outcome) {count i : Nat} (inside : i < count) :
    (slots outcomes count)[i]? = some ((Sorted.ofList (keyed outcomes count)).find? i) := by
  induction outcomes using List.reverseRecOn with
  | nil => exact List.getElem?_replicate_of_lt inside
  | append_singleton before o ih =>
    have last : slots (before ++ [o]) count = place (slots before count) o := List.foldl_append
    have grown : Sorted.ofList (keyed (before ++ [o]) count) =
        (keyed [o] count).foldl (fun m e => m.insert e.1 e.2)
          (Sorted.ofList (keyed before count)) := by
      rw [keyed, placed_append, List.map_append]
      exact List.foldl_append
    rw [last, grown, place]
    cases merged : o.merged? with
    | none =>
      have nothing : keyed [o] count = [] := by simp [keyed, placed, merged]
      rw [nothing]
      exact ih
    | some m =>
      by_cases below : m.index < count
      · have one : keyed [o] count = [(m.index, m)] := by simp [keyed, placed, merged, below]
        simp only [one, List.foldl_cons, List.foldl_nil]
        by_cases here : m.index = i
        · subst here
          rw [List.getElem?_set_self (by rwa [slots_length]),
            Sorted.find?_insert_same _ _ ReflCmp.compare_self]
        · rw [List.getElem?_set_ne here, ih, Sorted.find?_insert_other _ _ fun same =>
            here (Nat.compare_eq_eq.1 same).symm]
      · have nothing : keyed [o] count = [] := by simp [keyed, placed, merged, below]
        simp only [nothing, List.foldl_nil]
        rw [List.getElem?_set_ne (by omega), ih]

theorem Sorted.filterMap_range {α : Type} (m : Sorted Nat α) {count : Nat}
    (below : ∀ e ∈ m.entries, e.1 < count) :
    (List.range count).filterMap m.find? = m.entries.map Prod.snd := by
  let paired := (List.range count).filterMap fun i => (m.find? i).map fun v => (i, v)
  have found : ∀ i v, (i, v) ∈ paired ↔ i < count ∧ m.find? i = some v := by
    intro i v
    simp only [paired, List.mem_filterMap, List.mem_range, Option.map_eq_some_iff, Prod.mk.injEq]
    constructor
    · rintro ⟨i, inside, v, found, rfl, rfl⟩
      exact ⟨inside, found⟩
    · rintro ⟨inside, found⟩
      exact ⟨i, inside, v, found, rfl, rfl⟩
  have increasing : paired.Pairwise fun a b => compare a.1 b.1 = .lt := by
    refine List.pairwise_filterMap.2 (List.pairwise_lt_range.imp fun {i j} less a ha b hb => ?_)
    obtain ⟨v, -, rfl⟩ := Option.map_eq_some_iff.1 ha
    obtain ⟨w, -, rfl⟩ := Option.map_eq_some_iff.1 hb
    exact Nat.compare_eq_lt.2 less
  have all : paired = m.entries := by
    have same : paired.Perm m.entries := by
      refine (List.perm_ext_iff_of_nodup (increasing.imp ?_) (m.increasing.imp ?_)).2 ?_
      · rintro a b less rfl
        simp at less
      · rintro a b less rfl
        simp at less
      · rintro ⟨i, v⟩
        rw [found, m.find?_iff]
        constructor
        · rintro ⟨-, k, mem, equal⟩
          rwa [Nat.compare_eq_eq.1 equal]
        · exact fun mem => ⟨below _ mem, i, mem, ReflCmp.compare_self⟩
    exact congrArg Sorted.entries (@Sorted.eq_of_perm _ _ _ _ ⟨paired, increasing⟩ _ same)
  rw [← all, List.map_filterMap]
  simp [Function.comp_def]

theorem mergeOutcomes_slots (outcomes : List Outcome) (count : Nat) :
    mergeOutcomes outcomes count = (slots outcomes count).filterMap id := by
  let sorted := Sorted.ofList (keyed outcomes count)
  have below : ∀ e ∈ sorted.entries, e.1 < count := fun e mem => (keyed_entry mem).2
  have filled : slots outcomes count = (List.range count).map sorted.find? := by
    refine List.ext_getElem? fun i => ?_
    by_cases inside : i < count
    · rw [slots_find? outcomes inside, List.getElem?_map, List.getElem?_range inside]
      rfl
    · rw [List.getElem?_eq_none (by rw [slots_length]; omega),
        List.getElem?_eq_none (by simp; omega)]
  calc mergeOutcomes outcomes count = sorted.entries.map Prod.snd := rfl
    _ = (List.range count).filterMap sorted.find? := (sorted.filterMap_range below).symm
    _ = (slots outcomes count).filterMap id := by
        rw [filled, List.filterMap_map]
        rfl

/-- Merging gives exactly the reports that belong to a task, each as it came and in the order of the
tasks, however the outcomes are ordered and whatever strays are among them. -/
theorem mergeOutcomes_exact {outcomes : List Outcome} {count : Nat}
    (unshared : Unshared count outcomes) :
    (∀ m, m ∈ mergeOutcomes outcomes count ↔ ∃ o ∈ outcomes, o.report = some m.report ∧
      o.index = m.index ∧ o.signature = m.signature ∧ o.index < count) ∧
    (mergeOutcomes outcomes count).Pairwise (fun m n => m.index < n.index) ∧
    (∀ more strays strays' : List Outcome, (∀ o ∈ strays ++ strays', ¬ o.Placed count) →
      (more ++ strays').Perm (outcomes ++ strays) →
      mergeOutcomes more count = mergeOutcomes outcomes count) ∧
    mergeReports outcomes count = (mergeOutcomes outcomes count).map Merged.report := by
  refine ⟨fun m => ?_, mergeOutcomes_increasing outcomes count, ?_, rfl⟩
  · rw [(mergeOutcomes_placed unshared).mem_iff, mem_placed]
    simp only [Outcome.merged?_eq, and_assoc]
  · intro more strays strays' none h
    refine mergeOutcomes_strays unshared ?_ ?_ h
    · exact fun o mem => none o (List.mem_append_left _ mem)
    · exact fun o mem => none o (List.mem_append_right _ mem)

def mixedBatch : List Outcome :=
  [⟨3, some (LintResult.ofMessages ⟨"d"⟩ []).alone, some ⟨1, some 7, none⟩⟩, ⟨1, none, none⟩,
    ⟨0, some (LintResult.ofMessages ⟨"a"⟩ []).alone, none⟩,
    ⟨4, some (LintResult.ofMessages ⟨"e"⟩ []).alone, none⟩]

theorem mergeOutcomes_mixed : Unshared 4 mixedBatch ∧
    ∀ more, more.Perm mixedBatch → mergeOutcomes more 4 =
      [⟨0, (LintResult.ofMessages ⟨"a"⟩ []).alone, none⟩,
        ⟨3, (LintResult.ofMessages ⟨"d"⟩ []).alone, some ⟨1, some 7, none⟩⟩] := by
  have unshared : Unshared 4 mixedBatch := by
    simp [Unshared, mixedBatch, Outcome.Placed]
  have free := (mergeOutcomes_exact unshared).2.2.1
  refine ⟨unshared, fun more h => ?_⟩
  rw [free more [] [] (by simp) (by simpa using h)]
  rfl

end ParallelLint
