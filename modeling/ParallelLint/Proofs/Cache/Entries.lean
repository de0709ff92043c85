import ParallelLint.Proofs.Cache.Reading
import ParallelLint.Proofs.Cache.Saving
import ParallelLint.Proofs.Collection.Lookup
import ParallelLint.Proofs.Dispatch.Closing

set_option autoImplicit false

namespace ParallelLint
variable {σ : Type}

namespace Cache

def All (c : Cache) (holds : Path → CacheEntry → Prop) : Prop :=
  ∀ e ∈ c.entries.entries, holds e.1 e.2

/-- The entry that is stored for a result. -/
def entryOf (signature : Signature) (config : Fingerprint) (result : LintResult) : CacheEntry :=
  ⟨signature, config, { result with source := none }, result.source.isSome⟩

/-- It holds of an entry under a path and under all keys that the path may have been stored by. -/
def Holds (holds : Path → CacheEntry → Prop) (path : Path) (e : CacheEntry) : Prop :=
  holds path e ∧ ∀ key old, holds key old → key.parts = path.parts → holds key e

variable {holds : Path → CacheEntry → Prop} {cache : Cache}

theorem all_empty (path : Path) (strategy : CacheStrategy) : (empty path strategy).All holds := by
  intro e he
  cases he

theorem All.insert (h : cache.All holds) {path : Path} {e : CacheEntry}
    (new : Holds holds path e) :
    ({ cache with entries := cache.entries.insert path e } : Cache).All holds := by
  intro f hf
  rcases Sorted.mem_insert.1 hf with ⟨key, value⟩ | ⟨hf, -⟩
  · rw [key, value]
    rcases Sorted.keyIn_cases path cache.entries.entries with same | ⟨old, mem⟩
    · rw [same]
      exact new.1
    · exact new.2 _ old (h _ mem) (Path.compare_eq.1 (Sorted.compare_keyIn ..)).symm
  · exact h f hf

theorem All.store (h : cache.All holds) {path : Path} {signature : Signature}
    {config : Fingerprint} {result : LintResult}
    (new : Holds holds path (entryOf signature config result)) :
    (cache.store path signature config result).All holds :=
  h.insert new

theorem All.prune (h : cache.All holds) (fs : FileSystem) : (cache.prune fs).All holds :=
  fun e he => h e (List.mem_filter.1 he).1

theorem prune_size (c : Cache) (fs : FileSystem) :
    c.size - (c.prune fs).size = c.entries.entries.countP fun e => !fs.contains e.1 := by
  have all := @List.length_eq_countP_add_countP _ (fun e : Path × CacheEntry => fs.contains e.1)
    c.entries.entries
  have kept : (c.prune fs).size = c.entries.entries.countP fun e => fs.contains e.1 :=
    List.countP_eq_length_filter.symm
  calc c.size - (c.prune fs).size
      = c.entries.entries.countP fun e => ¬fs.contains e.1 = true := by
        rw [kept, Cache.size, Sorted.size, all, Nat.add_sub_cancel_left]
    _ = c.entries.entries.countP fun e => !fs.contains e.1 :=
        List.countP_congr fun e _ => by simp

variable {r : Resolver σ} {fs : FileSystem} {tasks : List Task} {kept : σ → Prop}

theorem All.storeAll {merged : List Merged}
    (step : ∀ state, kept state → ∀ t ∈ tasks, t.ignored = false →
      kept (r.resolve fs state t.path).2)
    (new : ∀ m ∈ merged, ∀ task signature, storable? tasks m = some (task, signature) →
      ∀ state, kept state → ∀ config, (r.resolve fs state task.path).1 = .ok (some config) →
        Holds holds task.path (entryOf signature config.fingerprint m.report.result))
    {s : Storing σ} (h : s.cache.All holds) (start : kept s.state) :
    let after := (Cache.storeAll r fs tasks s merged).2.cache
    after.All holds ∧ after.path = s.cache.path ∧ after.strategy = s.cache.strategy := by
  induction merged generalizing s with
  | nil => exact ⟨h, rfl, rfl⟩
  | cons m rest ih =>
    have ih := fun {s : Storing σ} => ih (s := s) fun m hm => new m (List.mem_cons_of_mem _ hm)
    cases found : storable? tasks m with
    | none => simpa only [Cache.storeAll, found] using ih h start
    | some wanted =>
      obtain ⟨task, signature⟩ := wanted
      obtain ⟨ht, plain⟩ := storable_mem found
      have next := step s.state start task ht plain
      have here := new m (List.mem_cons_self ..) task signature found s.state start
      simp only [Cache.storeAll, found]
      revert next here
      cases r.resolve fs s.state task.path with
      | mk answer state =>
        intro next here
        cases answer with
        | error e => exact ⟨h, rfl, rfl⟩
        | ok answer =>
          cases answer with
          | none => exact ih (s := { s with state }) h next
          | some config =>
            exact ih (s := ⟨s.cache.store task.path signature config.fingerprint m.report.result,
              s.stored + 1, state⟩) (h.store (here config rfl)) next

def Written (holds : CacheStrategy → Path → CacheEntry → Prop) (bytes : Text.Bytes) : Prop :=
  ∃ cache : Cache, cache.All (holds cache.strategy) ∧ bytes = cache.bytes

theorem Written.ofBytes {holds : CacheStrategy → Path → CacheEntry → Prop} {bytes : Text.Bytes}
    (h : Written holds bytes) (small : ∀ strategy path e, holds strategy path e → e.Small)
    (path : Path) (strategy : CacheStrategy) :
    (ofBytes path strategy bytes).All (holds strategy) := by
  obtain ⟨cache, all, rfl⟩ := h
  rw [ofBytes_bytes fun e he => small _ _ _ (all e he)]
  split
  · rename_i same
    subst same
    exact all
  · exact all_empty _ _

theorem load_place {path : Path} {strategy : CacheStrategy} {cache : Cache} (h : load fs path strategy = .ok cache) :
    cache.path = path ∧ cache.strategy = strategy := by
  unfold load at h
  split at h
  · cases h
    unfold ofBytes
    split
    · split <;> exact ⟨rfl, rfl⟩
    · exact ⟨rfl, rfl⟩
  · split at h <;> cases h
    exact ⟨rfl, rfl⟩

theorem load_all {path : Path} {strategy : CacheStrategy} {holds : CacheStrategy → Path → CacheEntry → Prop} {cache : Cache}
    (h : load fs path strategy = .ok cache)
    (small : ∀ strategy path e, holds strategy path e → e.Small)
    (written : ∀ bytes, fs.read path = .ok bytes → Written holds bytes) :
    cache.All (holds strategy) := by
  unfold load at h
  split at h
  · rename_i bytes read
    cases h
    exact (written bytes read).ofBytes small path strategy
  · split at h <;> cases h
    exact all_empty _ _

end Cache

namespace Dispatcher
variable {d : Dispatcher σ} {fs : FileSystem} {state : σ} {tasks : List Task} {kept : σ → Prop}
  {holds : Path → CacheEntry → Prop} {cache : Cache}

theorem conclude_cases {merged : List Merged} (workers : Nat) (stats : Stats)
    (h : cache.All holds) (start : kept state)
    (step : ∀ state, kept state → ∀ t ∈ tasks, t.ignored = false →
      kept (d.resolver.resolve fs state t.path).2)
    (new : ∀ m ∈ merged, ∀ task signature, Cache.storable? tasks m = some (task, signature) →
      ∀ state, kept state → ∀ config, (d.resolver.resolve fs state task.path).1 = .ok (some config) →
        Cache.Holds holds task.path (Cache.entryOf signature config.fingerprint m.report.result)) :
    let a := d.conclude tasks (some cache) workers merged stats ⟨fs, state⟩
    (∃ e, a.1 = .error e ∧ a.2.files = fs) ∨
      ∃ saved : Cache, saved.All holds ∧ saved.path = cache.path ∧
        saved.strategy = cache.strategy ∧ a.2.files = (saved.save fs).2 ∧
        ((∃ e, a.1 = .error e ∧ (saved.save fs).1 = .error e) ∨
          ∃ changes, a.1 = .ok ⟨merged.map Merged.report, stats, workers, some changes⟩ ∧
            (saved.save fs).1 = .ok ()) := by
  obtain ⟨all, path, strategy⟩ := h.storeAll (s := ⟨cache, 0, state⟩) step new start
  simp only [conclude, closeCache, Cache.reconcile]
  revert all path strategy
  cases Cache.storeAll d.resolver fs tasks ⟨cache, 0, state⟩ merged with
  | mk answer s =>
    intro all path strategy
    cases answer with
    | error e => exact .inl ⟨e, rfl, rfl⟩
    | ok done =>
      refine .inr ⟨s.cache.prune fs, all.prune fs, path, strategy, ?_⟩
      cases saved : (s.cache.prune fs).save fs with
      | mk answer files =>
        cases answer with
        | error e => exact ⟨by simp only [saved], .inl ⟨e, by simp only [saved, and_self]⟩⟩
        | ok done =>
          exact ⟨by simp only [saved],
            .inr ⟨⟨s.stored, s.cache.size - (s.cache.prune fs).size⟩, by simp [saved]⟩⟩

end Dispatcher
end ParallelLint
