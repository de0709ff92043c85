import ParallelLint.Proofs.Cache.Entries
import ParallelLint.Proofs.Dispatch.Answers

set_option autoImplicit false

/-!
A cache as the history of what was done to it. Under every path it holds the last result that was
stored for the file of that path and not dropped since, and it answers with it as long as the file
and the configuration are those it was stored for.
-/
namespace ParallelLint.Cache
open Std

/-- What is done to a cache. Files are looked for in the file system of the moment. -/
inductive Edit where
  | store (path : Path) (signature : Signature) (config : Fingerprint) (result : LintResult)
  | prune (fs : FileSystem)

def edit (c : Cache) : Edit → Cache
  | .store path signature config result => c.store path signature config result
  | .prune fs => c.prune fs

/-- A new cache after a history of edits, of which the latest comes first. -/
def replay (place : Path) (strategy : CacheStrategy) : List Edit → Cache
  | [] => empty place strategy
  | last :: earlier => (replay place strategy earlier).edit last

/-- What a history leaves for a path. The file keeps the spelling of the first store until it is
not found under that spelling. -/
def held (path : Path) : List Edit → Option (Path × CacheEntry)
  | [] => none
  | .store p signature config result :: earlier =>
    if p.parts = path.parts then
      some (((held path earlier).map Prod.fst).getD p, entryOf signature config result)
    else held path earlier
  | .prune fs :: earlier => (held path earlier).filter fun e => fs.contains e.1

/-- The spelling that a store of a path is known by after a history. -/
def spelling (path : Path) (earlier : List Edit) : Path :=
  ((held path earlier).map Prod.fst).getD path

/-- An edit that leaves what is stored for a path alone, where it is known by some spelling. -/
def Edit.Spares (path known : Path) : Edit → Prop
  | .store p _ _ _ => p.parts ≠ path.parts
  | .prune fs => fs.contains known = true

section Histories
variable {path place : Path} {strategy : CacheStrategy} {log : List Edit}

theorem held_congr {other : Path} (same : other.parts = path.parts) (log : List Edit) :
    held other log = held path log := by
  induction log with
  | nil => rfl
  | cons last earlier ih => cases last <;> simp only [held, ih, same]

theorem held_iff {known : Path} {e : CacheEntry} : held path log = some (known, e) ↔
    ∃ later p signature config result earlier,
      log = later ++ .store p signature config result :: earlier ∧ p.parts = path.parts ∧
        known = spelling p earlier ∧ e = entryOf signature config result ∧
        ∀ edit ∈ later, edit.Spares path known := by
  induction log generalizing known e with
  | nil => simp [held]
  | cons last before ih =>
    cases last with
    | store p signature config result =>
      -- a store for the same file is the last one, whatever was held before it
      by_cases same : p.parts = path.parts
      · rw [held, if_pos same, ← held_congr same]
        constructor
        · intro h
          cases h
          exact ⟨[], p, signature, config, result, before, rfl, same, rfl, rfl, by simp⟩
        · rintro ⟨later, q, s, c, r, earlier, cut, parts, rfl, rfl, spared⟩
          cases later with
          | nil =>
            cases cut
            rfl
          | cons first later =>
            cases cut
            exact absurd same (spared _ (List.mem_cons_self ..))
      · rw [held, if_neg same, ih]
        constructor
        · rintro ⟨later, q, s, c, r, earlier, rfl, parts, rfl, rfl, spared⟩
          exact ⟨_ :: later, q, s, c, r, earlier, rfl, parts, rfl, rfl,
            List.forall_mem_cons.2 ⟨same, spared⟩⟩
        · rintro ⟨later, q, s, c, r, earlier, cut, parts, rfl, rfl, spared⟩
          cases later with
          | nil =>
            cases cut
            exact absurd parts same
          | cons first later =>
            cases cut
            exact ⟨later, q, s, c, r, earlier, rfl, parts, rfl, rfl,
              (List.forall_mem_cons.1 spared).2⟩
    | prune fs =>
      rw [held, Option.filter_eq_some_iff, ih]
      constructor
      · rintro ⟨⟨later, q, s, c, r, earlier, rfl, parts, rfl, rfl, spared⟩, there⟩
        exact ⟨_ :: later, q, s, c, r, earlier, rfl, parts, rfl, rfl,
          List.forall_mem_cons.2 ⟨there, spared⟩⟩
      · rintro ⟨later, q, s, c, r, earlier, cut, parts, rfl, rfl, spared⟩
        cases later with
        | nil => cases cut
        | cons first later =>
          cases cut
          obtain ⟨there, spared⟩ := List.forall_mem_cons.1 spared
          exact ⟨⟨later, q, s, c, r, earlier, rfl, parts, rfl, rfl, spared⟩, there⟩

theorem held_replay {known : Path} {e : CacheEntry} : held path log = some (known, e) ↔
    (known, e) ∈ (replay place strategy log).entries.entries ∧ known.parts = path.parts := by
  induction log generalizing path known e with
  | nil => simp [held, replay, empty, Sorted.empty]
  | cons last earlier ih =>
    cases last with
    | prune fs =>
      rw [held, Option.filter_eq_some_iff, ih]
      change _ ↔ _ ∈ List.filter _ _ ∧ _
      rw [List.mem_filter]
      exact and_right_comm
    | store p signature config result =>
      let entries := (replay place strategy earlier).entries
      -- the spelling is that of the key which is in the map already, if there is one
      have kept : Sorted.keyIn p entries.entries = spelling p earlier := by
        unfold spelling
        cases before : held p earlier with
        | none =>
          refine Sorted.keyIn_absent fun f hf same => ?_
          have found := ih.2 ⟨hf, (Path.compare_eq.1 same).symm⟩
          rw [before] at found
          cases found
        | some f =>
          obtain ⟨mem, same⟩ := ih.1 before
          exact Sorted.keyIn_of_mem mem (Path.compare_eq.2 same.symm)
      change _ ↔ (known, e) ∈ (entries.insert p (entryOf signature config result)).entries ∧ _
      rw [Sorted.mem_insert, kept]
      by_cases same : p.parts = path.parts
      · have known_parts : (spelling p earlier).parts = path.parts := by
          rw [← same, ← kept]
          exact (Path.compare_eq.1 (Sorted.compare_keyIn ..)).symm
        rw [held, if_pos same, ← held_congr same]
        constructor
        · intro h
          cases h
          exact ⟨.inl ⟨rfl, rfl⟩, known_parts⟩
        · rintro ⟨⟨rfl, rfl⟩ | ⟨-, other⟩, parts⟩
          · rfl
          · exact absurd (Path.compare_eq.2 (same.trans parts.symm)) other
      · rw [held, if_neg same, ih]
        constructor
        · rintro ⟨mem, parts⟩
          exact ⟨.inr ⟨mem, fun equal => same ((Path.compare_eq.1 equal).trans parts)⟩, parts⟩
        · rintro ⟨⟨rfl, -⟩ | ⟨mem, -⟩, parts⟩
          · rw [← kept, ← Path.compare_eq.1 (Sorted.compare_keyIn ..)] at parts
            exact absurd parts same
          · exact ⟨mem, parts⟩

theorem find?_replay {e : CacheEntry} :
    (replay place strategy log).entries.find? path = some e ↔
      ∃ known, held path log = some (known, e) := by
  rw [Sorted.find?_iff]
  refine exists_congr fun known => ?_
  rw [@held_replay _ place strategy, Path.compare_eq, eq_comm]

theorem replay_strategy : (replay place strategy log).strategy = strategy := by
  induction log with
  | nil => rfl
  | cons last earlier ih => cases last <;> exact ih

/-- The result that is stored, with the text that is there now if there was one. -/
def Renewed (fs : FileSystem) (path : Path) (stored result : LintResult) : Prop :=
  stored.source = none ∧ result = stored ∨
    stored.source.isSome = true ∧ ∃ bytes text, fs.read path = .ok bytes ∧
      Text.decode bytes = .ok text ∧ result = { stored with source := some text }

theorem restore_iff {fs : FileSystem} {signature : Signature} {config : Fingerprint}
    {stored result : LintResult} :
    restore fs path (entryOf signature config stored) = some result ↔
      Renewed fs path stored result := by
  unfold restore entryOf Renewed
  cases source : stored.source with
  | none =>
    have same : { stored with source := none } = stored := by rw [← source]
    simp [same, eq_comm]
  | some old =>
    unfold FileSystem.readText
    cases fs.read path with
    | error e => simp
    | ok bytes => cases decoded : Text.decode bytes <;> simp [decoded, eq_comm]

/-- A new cache answers for a path after any edits if and only if there is a last store for the file of
that path that no prune has dropped, of the signature that the file has and the configuration asked
for, and the file has a text where the result had one; it answers with that result and that text.
A prune drops just the entries whose files are not there, and they are counted. -/
theorem replay_guarded (place : Path) (strategy : CacheStrategy) (log : List Edit) :
    (∀ fs path config result,
      (replay place strategy log).lookup fs path config = some result ↔
        ∃ later p signature stored earlier,
          log = later ++ .store p signature config stored :: earlier ∧ p.parts = path.parts ∧
            (∀ edit ∈ later, edit.Spares path (spelling p earlier)) ∧
              Signature.compute fs path strategy = .ok signature ∧
                Renewed fs path stored result) ∧
      ∀ {σ : Type} (resolver : Resolver σ) fs tasks state,
        let cache := replay place strategy log
        let dropped := cache.entries.entries.filter fun e => !fs.contains e.1
        reconcile resolver fs tasks cache [] state =
            (.ok ⟨0, dropped.length⟩, cache.prune fs, state) ∧
          ∀ e, e ∈ (cache.prune fs).entries.entries ↔
            e ∈ cache.entries.entries ∧ fs.contains e.1 = true := by
  refine ⟨fun fs path config result => ?_, fun resolver fs tasks state => ?_⟩
  · rw [Context.lookup_iff, replay_strategy]
    constructor
    · rintro ⟨e, found, rfl, computed, restored⟩
      obtain ⟨known, holds⟩ := find?_replay.1 found
      obtain ⟨later, p, signature, config, stored, earlier, cut, parts, rfl, rfl, spared⟩ :=
        held_iff.1 holds
      exact ⟨later, p, signature, stored, earlier, cut, parts, spared, computed,
        restore_iff.1 restored⟩
    · rintro ⟨later, p, signature, stored, earlier, cut, parts, spared, computed, renewed⟩
      have holds := held_iff.2
        ⟨later, p, signature, config, stored, earlier, cut, parts, rfl, rfl, spared⟩
      exact ⟨entryOf signature config stored, find?_replay.2 ⟨_, holds⟩, rfl, computed,
        restore_iff.2 renewed⟩
  · refine ⟨?_, fun e => List.mem_filter⟩
    rw [← List.countP_eq_length_filter, ← prune_size]
    rfl

end Histories
end ParallelLint.Cache
