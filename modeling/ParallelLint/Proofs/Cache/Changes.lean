import ParallelLint.Proofs.Collection.Lookup
import ParallelLint.Proofs.Dispatch.Answers
import ParallelLint.Proofs.FileSystem.Top

set_option autoImplicit false

/-!
Changes of a file that its size and time tell. A time before the epoch counts as the epoch, and of a
later one only 64 bits are kept. What is left of a change is seen by every lookup.
-/
namespace ParallelLint

namespace Signature
variable {t u : Int}

/-- Times that are told apart. -/
def Apart (t u : Int) : Prop := ¬(UInt64.size : Int) ∣ max t 0 - max u 0

theorem timeStamp_ne (apart : Apart t u) : timeStamp t ≠ timeStamp u := by
  intro same
  have size : UInt64.size = 18446744073709551616 := rfl
  rw [timeStamp, timeStamp, size] at same
  rw [Apart, size] at apart
  omega

theorem apart_of_ne (ht : 0 ≤ t ∧ t < UInt64.size) (hu : 0 ≤ u ∧ u < UInt64.size) (ne : t ≠ u) :
    Apart t u := by
  have size : UInt64.size = 18446744073709551616 := rfl
  rw [size] at ht hu
  rw [Apart, size]
  omega

theorem ofStatus_ne {s s' : Status} (changed : s.size ≠ s'.size ∨ Apart s.modified s'.modified) :
    ofStatus s ≠ ofStatus s' := by
  intro same
  rw [ofStatus, ofStatus, Signature.mk.injEq, Option.some.injEq] at same
  rcases changed with sizes | times
  · exact sizes same.1
  · exact timeStamp_ne times same.2.1

end Signature

namespace Cache
variable {c : Cache} {fs fs' : FileSystem} {path : Path}

/-- There is an entry for the file as it is in this state. -/
def Knows (c : Cache) (fs : FileSystem) (path : Path) : Prop :=
  ∃ e, c.entry? path = some e ∧ Signature.compute fs path c.strategy = .ok e.signature

theorem knows_store {signature : Signature}
    (computed : Signature.compute fs path c.strategy = .ok signature) (config : Fingerprint)
    (result : LintResult) : (c.store path signature config result).Knows fs path := by
  refine ⟨⟨signature, config, { result with source := none }, result.source.isSome⟩, ?_, computed⟩
  rw [ entry?, store, Sorted.find?_insert_same _ _ (Path.compare_eq.2 rfl)]

theorem Knows.lookup_none (known : c.Knows fs path)
    (changed : Signature.compute fs path c.strategy ≠ Signature.compute fs' path c.strategy)
    (config : Fingerprint) : c.lookup fs' path config = none := by
  obtain ⟨e, entry, computed⟩ := known
  cases found : c.lookup fs' path config with
  | none => rfl
  | some result =>
    obtain ⟨e', entry', -, computed', -⟩ := Context.lookup_iff.1 found
    cases entry.symm.trans entry'
    exact absurd (computed.trans computed'.symm) changed

/-- What has another size or time than before has another signature, and no entry that was stored
before answers for it. -/
theorem lookup_changed {s s' : Status} (before : fs.status path = .ok s)
    (after : fs'.status path = .ok s')
    (changed : s.size ≠ s'.size ∨ Signature.Apart s.modified s'.modified) :
    (∃ signature signature', Signature.compute fs path .metadata = .ok signature ∧
      Signature.compute fs' path .metadata = .ok signature' ∧ signature ≠ signature') ∧
    ∀ c : Cache, c.strategy = .metadata → c.Knows fs path →
      ∀ config, c.lookup fs' path config = none := by
  have first := Context.compute_metadata.2 ⟨s, before, rfl⟩
  have last := Context.compute_metadata.2 ⟨s', after, rfl⟩
  have ne := Signature.ofStatus_ne changed
  refine ⟨⟨_, _, first, last, ne⟩, fun c metadata known config => known.lookup_none ?_ config⟩
  rw [metadata, first, last]
  exact fun same => ne (Except.ok.inj same)

def dated (t : Int) : FileSystem := ⟨[(["b"], .file [] t)], [], 0⟩

theorem dated_status (t : Int) : (dated t).status (FileSystem.top "b") = .ok (.file [] t) :=
  FileSystem.status_top (by decide) rfl

def recorded (t : Int) (config : Fingerprint) : Cache :=
  (Cache.empty (FileSystem.top "c") .metadata).store (FileSystem.top "b")
    (.ofFile .metadata [] t) config (.ofMessages (FileSystem.top "b") [])

theorem recorded_knows (t : Int) (config : Fingerprint) :
    (recorded t config).Knows (dated t) (FileSystem.top "b") :=
  knows_store (Context.compute_file (dated_status t) .metadata) config _

theorem lookup_touched :
    (recorded 1 default).lookup (dated 2) (FileSystem.top "b") default = none :=
  (lookup_changed (dated_status 1) (dated_status 2)
    (.inr (Signature.apart_of_ne (by decide) (by decide) (by decide)))).2 _ rfl
      (recorded_knows 1 default) default

/-- Every change from the one time to the other is seen. -/
def Seen (t u : Int) : Prop :=
  ∀ (fs fs' : FileSystem) (path : Path) (bytes bytes' : Text.Bytes),
    fs.status path = .ok (.file bytes t) → fs'.status path = .ok (.file bytes' u) →
      Signature.compute fs path .metadata ≠ Signature.compute fs' path .metadata ∧
      ∀ c : Cache, c.strategy = .metadata → c.Knows fs path →
        ∀ config, c.lookup fs' path config = none

theorem lookup_unseen {t u : Int} (same : Signature.timeStamp t = Signature.timeStamp u)
    (config : Fingerprint) :
    (recorded t config).lookup (dated u) (FileSystem.top "b") config =
      some (.ofMessages (FileSystem.top "b") []) := by
  have entry : Cache.entry? (recorded t config) (FileSystem.top "b") =
      some ⟨.ofFile .metadata [] t, config, .ofMessages (FileSystem.top "b") [], false⟩ :=
    Sorted.find?_insert_same _ _ (Path.compare_eq.2 rfl)
  have signature : Signature.ofFile .metadata [] t = Signature.ofFile .metadata [] u := by
    simp only [Signature.ofFile, Signature.ofStatus, Status.modified, same]
    rfl
  have computed := Context.compute_file (dated_status u) .metadata
  exact Context.lookup_iff.2 ⟨_, entry, rfl, signature ▸ computed, rfl⟩

theorem not_seen {t u : Int} (same : Signature.timeStamp t = Signature.timeStamp u) :
    ¬Seen t u := by
  intro seen
  have missed := (seen _ _ _ _ _ (dated_status t) (dated_status u)).2 _ rfl
    (recorded_knows t default) default
  rw [lookup_unseen same] at missed
  cases missed

/-- Not every change of the time is seen, not even after the epoch. -/
theorem changes_unseen :
    (¬∀ t u : Int, t ≠ u → Seen t u) ∧
    ¬∀ t u : Int, 0 ≤ t → 0 ≤ u → t ≠ u → Seen t u :=
  ⟨fun seen => not_seen (t := -1) (u := -2) rfl (seen _ _ (by decide)),
    fun seen => not_seen (t := 0) (u := UInt64.size) rfl
      (seen _ _ (by decide) (by decide) (by decide))⟩

end Cache
end ParallelLint
