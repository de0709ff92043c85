import Mathlib.Algebra.BigOperators.Group.List.Basic
import Mathlib.Data.List.Perm.Basic
import ParallelLint.Dispatch.Merge
import ParallelLint.Dispatch.Supervisor
import ParallelLint.Proofs.Collection.Lookup

set_option autoImplicit false

namespace ParallelLint
variable {σ : Type}

theorem Context.cached_index {ctx : Context σ} {fs : FileSystem} {task : Task}
    {config : ResolvedConfig} {outcome : Outcome}
    (h : ctx.cached fs task config = some outcome) : outcome.index = task.index := by
  unfold Context.cached at h
  split at h
  · cases h
  split at h
  · cases h
  split at h
  · cases h
  · cases h
    rfl

theorem Context.analyzed_index {ctx : Context σ} {task : Task} {config : ResolvedConfig}
    {see : Moments} {outcome : Outcome} {stats : Stats}
    (h : (ctx.analyzed task config see).1 = .ok (outcome, stats)) :
    outcome.index = task.index := by
  unfold Context.analyzed at h
  split at h
  · cases h
    rfl
  split at h
  · cases h
  · cases h
    rfl

theorem Context.processAcross_index {ctx : Context σ} {task : Task} {see : Moments} {state : σ}
    {outcome : Outcome} {stats : Stats}
    (h : (ctx.processAcross task see state).1 = .ok (outcome, stats)) :
    outcome.index = task.index := by
  unfold Context.processAcross at h
  split at h
  · split at h
    · cases h
      rfl
    · cases h
      rfl
  split at h
  · cases h
  · cases h
    rfl
  · split at h
    · rename_i found
      cases h
      exact cached_index found
    · exact analyzed_index h

theorem Context.process_index {ctx : Context σ} {task : Task} {world : World σ}
    {outcome : Outcome} {stats : Stats}
    (h : (ctx.process task world).1 = .ok (outcome, stats)) : outcome.index = task.index :=
  processAcross_index h

theorem Task.index_eq {tasks : List Task} (numbered : Task.misnumbered? tasks = none) {i : Nat}
    {task : Task} (found : tasks[i]? = some task) : task.index = i := by
  rw [misnumbered?, Option.map_eq_none_iff, List.find?_eq_none] at numbered
  have right := numbered (task, i) (List.mk_mem_zipIdx_iff_getElem?.2 found)
  simpa using right

theorem Task.indices {tasks : List Task} (numbered : Task.misnumbered? tasks = none) :
    tasks.map Task.index = List.range tasks.length := by
  refine List.ext_getElem (by simp) fun i inside _ => ?_
  rw [List.getElem_map, List.getElem_range]
  exact index_eq numbered (List.getElem?_eq_getElem (by simpa using inside))

theorem merged_index {outcome : Outcome} {m : Merged} (h : outcome.merged? = some m) :
    m.index = outcome.index := by
  obtain ⟨report, -, rfl⟩ := Option.map_eq_some_iff.1 h
  rfl

theorem mem_mergeOutcomes {outcomes : List Outcome} {count : Nat} {m : Merged}
    (h : m ∈ mergeOutcomes outcomes count) : ∃ o ∈ outcomes, o.merged? = some m := by
  obtain ⟨e, he, rfl⟩ := List.mem_map.1 h
  obtain ⟨k, listed⟩ := Sorted.mem_ofList he
  obtain ⟨m, hm, same⟩ := List.mem_map.1 listed
  cases same
  exact List.mem_filterMap.1 (List.mem_filter.1 hm).1

theorem mergeOutcomes_perm {outcomes more : List Outcome} (h : outcomes.Perm more)
    (distinct : (outcomes.map Outcome.index).Nodup) (count : Nat) :
    mergeOutcomes outcomes count = mergeOutcomes more count := by
  let keyed := fun outcomes : List Outcome =>
    ((outcomes.filterMap Outcome.merged?).filter fun m => m.index < count).map fun m => (m.index, m)
  have same : (keyed outcomes).Perm (keyed more) := ((h.filterMap _).filter _).map _
  have apart : Sorted.Distinct (keyed outcomes) := by
    have pairs : outcomes.Pairwise fun a b => a.index ≠ b.index := List.pairwise_map.1 distinct
    refine List.pairwise_map.2 (List.Pairwise.filter _ (List.pairwise_filterMap.2 ?_))
    refine pairs.imp fun different m hm n hn same => different ?_
    rw [← merged_index hm, ← merged_index hn]
    exact Nat.compare_eq_eq.1 same
  change (Sorted.ofList (keyed outcomes)).entries.map Prod.snd = _
  rw [Sorted.ofList_eq_of_perm same apart]
  rfl

namespace Stats

instance : Add Stats := ⟨Stats.add⟩

instance : Zero Stats := ⟨Stats.zero⟩

theorem add_eq (a b : Stats) : a.add b = a + b := rfl

theorem zero_eq : Stats.zero = 0 := rfl

instance : AddCommMonoid Stats where
  add_assoc a b c := by simp only [← add_eq, add, Nat.add_assoc]
  zero_add a := by simp only [← add_eq, ← zero_eq, add, zero, Nat.zero_add]
  add_zero a := by simp only [← add_eq, ← zero_eq, add, zero, Nat.add_zero]
  add_comm a b := by
    simp only [← add_eq, add, mk.injEq]
    omega
  nsmul := nsmulRec

theorem foldl_add (counts : List Stats) : counts.foldl Stats.add .zero = counts.sum := by
  rw [List.sum_eq_foldl]
  rfl

end Stats

namespace Output

theorem ofReports_stats (reports : List (List Outcome × Stats)) :
    (ofReports reports).stats = (reports.map Prod.snd).sum := Stats.foldl_add _

theorem ofReports_perm {reports more : List (List Outcome × Stats)} (h : reports.Perm more) :
    (ofReports reports).outcomes.Perm (ofReports more).outcomes ∧
      (ofReports reports).stats = (ofReports more).stats := by
  rw [ofReports_stats, ofReports_stats]
  exact ⟨h.flatMap_right _, (h.map _).sum_eq⟩

end Output
end ParallelLint
