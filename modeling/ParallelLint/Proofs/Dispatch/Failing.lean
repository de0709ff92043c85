import Mathlib
import ParallelLint.Proofs.Dispatch.Ending
import ParallelLint.Proofs.FileSystem.Contents
import ParallelLint.Proofs.FileSystem.Top
import ParallelLint.Proofs.Pool.Keeping
import ParallelLint.Proofs.Pool.Schedule

set_option autoImplicit false

namespace ParallelLint
variable {σ : Type}

/-- An analyzer that writes no files. -/
def Analyzer.KeepsFiles (a : Analyzer) : Prop :=
  ∀ request (fs : FileSystem), fs.SameFiles (a.analyze request fs).2

namespace Context
variable {ctx : Context σ}

theorem analyzed_sameFiles (keeps : ctx.analyzer.KeepsFiles) (task : Task)
    (config : ResolvedConfig) (see : Moments) :
    see.analysis.SameFiles (ctx.analyzed task config see).2 := by
  unfold analyzed
  split
  · exact .refl _
  · rename_i source signature _
    have same := keeps ⟨task.path, source, config, ctx.fix⟩ see.analysis
    split <;> rename_i found <;> rw [found] at same <;> exact same

theorem process_sameFiles (keeps : ctx.analyzer.KeepsFiles) (task : Task) (world : World σ) :
    world.files.SameFiles (ctx.process task world).2.files := by
  unfold process processAcross
  split
  · split <;> exact .refl _
  split
  · exact .refl _
  · exact .refl _
  · split
    · exact .refl _
    · exact analyzed_sameFiles keeps task _ _

end Context

namespace Dispatcher
variable {d : Dispatcher σ} {tasks : List Task} {cache : Option Cache} {world after : World σ}
  {e : LintError}

theorem conclude_failed {workers : Nat} {merged : List Merged} {stats : Stats}
    (h : d.conclude tasks cache workers merged stats world = (.error e, after)) :
    world.files.SameFiles after.files := by
  unfold conclude at h
  split at h
  · cases h
  rename_i cache
  unfold closeCache at h
  split at h
  · rename_i closed
    split at closed
    · cases closed
      cases h
      exact .refl _
    · rename_i changes cache state _
      cases saved : cache.save world.files with
      | mk answer files =>
        rw [saved] at closed
        cases answer with
        | error e =>
          cases closed
          cases h
          exact Cache.save_failed_same saved
        | ok => cases closed
  · cases h

theorem runWorkers_failed (keeps : d.analyzer.KeepsFiles)
    (h : d.runWorkers tasks cache world = (.error e, after)) :
    world.files.SameFiles after.files := by
  -- also the workers that go on when one has broken down
  have pool : world.files.SameFiles (d.pool tasks cache world).shared.world.files :=
    (@Pool.run_keeps _ _ (fun w => world.files.SameFiles w.files) (fun _ => True)
      (fun task _ w same => ⟨same.trans (Context.process_sameFiles keeps task w),
        fun _ _ _ => trivial⟩) d.schedule _ _ (.refl _)).world
  rw [runWorkers_pool] at h
  split at h
  · cases h
    exact pool
  · exact pool.trans (conclude_failed h)

/-- How a failure of a run leaves the files. With a cache they all are as before. Without one the
cache file may be gone, but only after the run has begun. -/
def FailsCleanly (d : Dispatcher σ) (begun : Prop) (before after : FileSystem) : Prop :=
  before.SameFiles after ∨
    d.options.cache = false ∧ begun ∧
      ∃ location, before.placeOfEntry (d.cacheFile before) = .ok (.found location) ∧
        before.LosesFile after location

theorem lintTasks_failed (keeps : d.analyzer.KeepsFiles) (tree : world.files.IsTree)
    (h : d.lintTasks tasks world = (.error e, after)) :
    d.FailsCleanly (Task.misnumbered? tasks = none) world.files after.files := by
  unfold lintTasks at h
  split at h
  · cases h
    exact .inl (.refl _)
  rename_i numbered
  cases wanted : d.options.cache with
  | true =>
    rw [openCache, wanted, if_pos rfl] at h
    cases loaded : Cache.load world.files (d.cacheFile world.files) d.options.cacheStrategy with
    | error e' =>
      rw [loaded] at h
      cases h
      exact .inl (.refl _)
    | ok cache =>
      rw [loaded] at h
      exact .inl (runWorkers_failed keeps h)
  | false =>
    rw [openCache_unwanted wanted] at h
    cases deleted : Cache.delete world.files (d.cacheFile world.files) with
    | mk answer files =>
      rw [deleted] at h
      rcases Cache.delete_loses tree deleted with rfl | ⟨⟨found, rfl⟩, location, place, loses⟩
      · cases answer with
        | error e' =>
          cases h
          exact .inl (.refl _)
        | ok found => exact .inl (runWorkers_failed keeps h)
      · exact .inr ⟨wanted, numbered, location, place, loses.trans (runWorkers_failed keeps h)⟩

theorem lintPatterns_failed (keeps : d.analyzer.KeepsFiles) (tree : world.files.IsTree)
    {patterns : List String} (h : d.lintPatterns patterns world = (.error e, after)) :
    d.FailsCleanly (∃ tasks, d.expand world.files patterns = .ok tasks ∧
      Task.misnumbered? tasks = none) world.files after.files := by
  unfold lintPatterns at h
  split at h
  · cases h
    exact .inl (.refl _)
  · rename_i tasks expanded
    refine (lintTasks_failed keeps tree h).imp_right ?_
    rintro ⟨wanted, numbered, rest⟩
    exact ⟨wanted, ⟨tasks, expanded, numbered⟩, rest⟩

/-- No failure leaves a part of its work behind: under an analyzer that writes no files nothing is
written or made, and only a cache that is not wanted is deleted, once the tasks are known. -/
theorem fails_cleanly (keeps : d.analyzer.KeepsFiles) (tree : world.files.IsTree) :
    (∀ patterns e after, d.lintPatterns patterns world = (.error e, after) →
      d.FailsCleanly (∃ tasks, d.expand world.files patterns = .ok tasks ∧
        Task.misnumbered? tasks = none) world.files after.files) ∧
    ∀ tasks e after, d.lintTasks tasks world = (.error e, after) →
      d.FailsCleanly (Task.misnumbered? tasks = none) world.files after.files :=
  ⟨fun _ _ _ h => lintPatterns_failed keeps tree h, fun _ _ _ h => lintTasks_failed keeps tree h⟩

def lost : Dispatcher Unit where
  options := { Options.standard ⟨"/"⟩ with cacheLocation := ⟨"c"⟩ }
  analyzer := textRules
  resolver := ⟨fun _ state path => (.error (.notFound path), state)⟩
  parallelism := 1
  schedule := []

def lostFiles (cache text : Text.Bytes) : FileSystem :=
  ⟨[(["c"], .file cache 0), (["b"], .file text 0)], [], 0⟩

theorem lostFiles_tree (cache text : Text.Bytes) : (lostFiles cache text).IsTree := by
  refine FileSystem.tree_of_listed fun f hf => ?_
  rcases List.mem_pair.1 hf with rfl | rfl <;> rfl

theorem lost_opens (cache text : Text.Bytes) : lost.openCache (lostFiles cache text) =
    (.ok none, (lostFiles cache text).erase ["c"]) := by
  have place : lost.cacheFile (lostFiles cache text) = FileSystem.top "c" :=
    FileSystem.FreeOrFile.locate (.inr ⟨cache, 0, rfl⟩) (by decide)
  have found : FileSystem.entry? (lostFiles cache text) ["c"] = some (.file cache 0) := rfl
  rw [openCache, place, Cache.delete_top (by decide) found]
  rfl

theorem fails_cleanly_lost :
    lost.analyzer.KeepsFiles ∧ (lostFiles [1] [2]).IsTree ∧
      ∃ e after, lost.lintTasks [⟨0, ⟨"/b"⟩, false⟩] ⟨lostFiles [1] [2], ()⟩ = (.error e, after) ∧
        ¬ (lostFiles [1] [2]).SameFiles after.files ∧
        ∃ location, (lostFiles [1] [2]).LosesFile after.files location := by
  have keeps : lost.analyzer.KeepsFiles := fun _ _ => .refl _
  have tree := lostFiles_tree [1] [2]
  let left := (lostFiles [1] [2]).erase ["c"]
  obtain ⟨e, state, failed⟩ : ∃ e state,
      lost.lintTasks [⟨0, ⟨"/b"⟩, false⟩] ⟨lostFiles [1] [2], ()⟩ =
        (.error e, ⟨left, state⟩) := by
    have ran := @lintTasks_opened _ lost [⟨0, ⟨"/b"⟩, false⟩] none (lostFiles [1] [2])
      ⟨left, ()⟩ rfl (lost_opens [1] [2])
    have quiet : lost.analyzer.Quiet := fun _ _ => rfl
    rcases @runWorkers_cases _ lost [⟨0, ⟨"/b"⟩, false⟩] none
      ⟨left, ()⟩ rfl (by decide) quiet (fun _ _ _ _ => rfl) with
      ⟨e, state, failed⟩ | ⟨done, -⟩
    · exact ⟨e, state, ran.trans failed⟩
    · cases done _ (List.mem_singleton.2 rfl)
  have gone : ¬ (lostFiles [1] [2]).SameFiles left := fun same => by
    cases same ["c"]
  refine ⟨keeps, tree, e, _, failed, gone, ?_⟩
  rcases (fails_cleanly keeps tree).2 _ _ _ failed with same | ⟨-, -, location, -, loses⟩
  · exact absurd same gone
  · exact ⟨location, loses⟩

end Dispatcher
end ParallelLint
