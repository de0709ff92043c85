import ParallelLint.Dispatch.Run
import ParallelLint.Proofs.Dispatch.Steady

set_option autoImplicit false

namespace ParallelLint
variable {σ : Type}

namespace Cache

theorem storable_mem {tasks : List Task} {m : Merged} {task : Task} {signature : Signature}
    (h : storable? tasks m = some (task, signature)) :
    task ∈ tasks ∧ task.ignored = false := by
  unfold storable? at h
  split at h
  · rename_i found
    split at h
    · cases h
    · rename_i plain
      cases h
      simp only [Bool.or_eq_true, not_or, Bool.not_eq_true] at plain
      exact ⟨List.mem_of_getElem? found, plain.1⟩
  · cases h

variable {r : Resolver σ} {fs : FileSystem} {state : σ} {tasks : List Task}

theorem storeAll_steady (steady : r.Steady fs state (Context.asked tasks)) (merged : List Merged)
    {asked asked' : List Path} (listed : ∀ p ∈ asked, p ∈ Context.asked tasks)
    (listed' : ∀ p ∈ asked', p ∈ Context.asked tasks) (cache : Cache) (stored : Nat) :
    let s := storeAll r fs tasks ⟨cache, stored, r.after fs state asked⟩ merged
    let s' := storeAll r fs tasks ⟨cache, stored, r.after fs state asked'⟩ merged
    s.1 = s'.1 ∧ s.2.cache = s'.2.cache ∧ s.2.stored = s'.2.stored := by
  induction merged generalizing cache stored asked asked' with
  | nil => exact ⟨rfl, rfl, rfl⟩
  | cons m rest ih =>
    cases found : storable? tasks m with
    | none => simpa only [storeAll, found] using ih listed listed' cache stored
    | some wanted =>
      obtain ⟨task, signature⟩ := wanted
      obtain ⟨ht, plain⟩ := storable_mem found
      have mem := Context.mem_asked ht plain
      have same : (r.resolve fs (r.after fs state asked) task.path).1 =
          (r.resolve fs (r.after fs state asked') task.path).1 :=
        (steady asked listed _ mem).trans (steady asked' listed' _ mem).symm
      have grown : ∀ asked : List Path, (∀ p ∈ asked, p ∈ Context.asked tasks) →
          ∀ p ∈ asked ++ [task.path], p ∈ Context.asked tasks := by
        intro asked listed p hp
        rcases List.mem_append.1 hp with hp | hp
        · exact listed p hp
        · rwa [List.mem_singleton.1 hp]
      have next : ∀ asked : List Path, (r.resolve fs (r.after fs state asked) task.path).2 =
          r.after fs state (asked ++ [task.path]) := fun asked => by
        rw [Resolver.after_append, Resolver.after_single]
      simp only [storeAll, found]
      have second := next asked
      have second' := next asked'
      revert same second second'
      cases r.resolve fs (r.after fs state asked) task.path with
      | mk answer after =>
        cases r.resolve fs (r.after fs state asked') task.path with
        | mk answer' after' =>
          rintro rfl rfl rfl
          match answer with
          | .error e => exact ⟨rfl, rfl, rfl⟩
          | .ok none => exact ih (grown asked listed) (grown asked' listed') cache stored
          | .ok (some config) => exact ih (grown asked listed) (grown asked' listed') _ _

theorem reconcile_steady (steady : r.Steady fs state (Context.asked tasks)) (merged : List Merged)
    {asked asked' : List Path} (listed : ∀ p ∈ asked, p ∈ Context.asked tasks)
    (listed' : ∀ p ∈ asked', p ∈ Context.asked tasks) (cache : Cache) :
    let a := reconcile r fs tasks cache merged (r.after fs state asked)
    let b := reconcile r fs tasks cache merged (r.after fs state asked')
    a.1 = b.1 ∧ a.2.1 = b.2.1 := by
  have same := storeAll_steady steady merged listed listed' cache 0
  simp only [reconcile]
  revert same
  cases storeAll r fs tasks ⟨cache, 0, r.after fs state asked⟩ merged with
  | mk answer s =>
    cases storeAll r fs tasks ⟨cache, 0, r.after fs state asked'⟩ merged with
    | mk answer' s' =>
      rintro ⟨rfl, caches, counts⟩
      match answer with
      | .error e => exact ⟨rfl, caches⟩
      | .ok () =>
        simp only at caches counts ⊢
        rw [caches, counts]
        exact ⟨rfl, rfl⟩

end Cache

namespace Dispatcher
variable {d : Dispatcher σ} {fs : FileSystem} {state : σ} {tasks : List Task}

theorem openCache_unwanted (unwanted : d.options.cache = false) :
    d.openCache fs = ((Cache.delete fs (d.cacheFile fs)).1.map fun _ => none,
      (Cache.delete fs (d.cacheFile fs)).2) := by
  rw [openCache, unwanted, if_neg Bool.false_ne_true]
  cases Cache.delete fs (d.cacheFile fs) with
  | mk answer files => cases answer <;> rfl

theorem closeCache_steady (steady : d.resolver.Steady fs state (Context.asked tasks))
    (merged : List Merged) {asked asked' : List Path}
    (listed : ∀ p ∈ asked, p ∈ Context.asked tasks)
    (listed' : ∀ p ∈ asked', p ∈ Context.asked tasks) (cache : Cache) :
    let a := d.closeCache tasks merged cache ⟨fs, d.resolver.after fs state asked⟩
    let b := d.closeCache tasks merged cache ⟨fs, d.resolver.after fs state asked'⟩
    a.1 = b.1 ∧ a.2.files = b.2.files := by
  have same := Cache.reconcile_steady steady merged listed listed' cache
  simp only [closeCache]
  revert same
  cases cache.reconcile d.resolver fs tasks merged (d.resolver.after fs state asked) with
  | mk answer rest =>
    cases cache.reconcile d.resolver fs tasks merged (d.resolver.after fs state asked') with
    | mk answer' rest' =>
      obtain ⟨kept, after⟩ := rest
      obtain ⟨kept', after'⟩ := rest'
      rintro ⟨rfl, rfl⟩
      match answer with
      | .error e => exact ⟨rfl, rfl⟩
      | .ok changes =>
        simp only
        cases kept.save fs with
        | mk saved files =>
          match saved with
          | .error e => exact ⟨rfl, rfl⟩
          | .ok () => exact ⟨rfl, rfl⟩

end Dispatcher
end ParallelLint
