import Mathlib
import ParallelLint.Proofs.Cache.Reading
import ParallelLint.Proofs.Collection.Lookup

set_option autoImplicit false

namespace ParallelLint
open Json

namespace Cache

/-- The entry of a document for a path: the last one whose path has the same parts. -/
def Document.entry? (d : Document) (path : Path) : Option CacheEntry :=
  (d.entries.reverse.find? fun e => compare path ⟨e.1⟩ == .eq).map Prod.snd

theorem ofBytes_none {bytes : Text.Bytes} (none : decode? Document.read bytes = none) (path : Path)
    (strategy : CacheStrategy) : ofBytes path strategy bytes = empty path strategy := by
  rw [ofBytes, none]

theorem ofBytes_other {bytes : Text.Bytes} {document : Document} {strategy : CacheStrategy}
    (found : decode? Document.read bytes = some document)
    (other : document.version ≠ formatVersion ∨ document.strategy ≠ strategy) (path : Path) :
    ofBytes path strategy bytes = empty path strategy := by
  have refused : ¬(decide (document.version = formatVersion) &&
      decide (document.strategy = strategy)) = true := by
    simp only [Bool.and_eq_true, decide_eq_true_eq, not_and_or]
    exact other
  rw [ofBytes, found]
  exact if_neg refused

theorem ofBytes_entry? {bytes : Text.Bytes} {document : Document}
    (found : decode? Document.read bytes = some document)
    (version : document.version = formatVersion) (path p : Path) :
    Cache.entry? (ofBytes path document.strategy bytes) p = document.entry? p := by
  let entries : List (Path × CacheEntry) := document.entries.map fun e => (⟨e.1⟩, e.2)
  calc Cache.entry? (ofBytes path document.strategy bytes) p
      = (Sorted.ofList entries).find? p := by
        rw [ofBytes, found]
        simp only [version, decide_true, Bool.and_self, ite_true, Cache.entry?]
        rfl
    _ = (entries.reverse.find? fun e => compare p e.1 == .eq).map Prod.snd := Sorted.find?_ofList ..
    _ = document.entry? p := by
        rw [← List.map_reverse, List.find?_map, Option.map_map]
        rfl

/-- A cache that was saved is loaded with the same entries, to be saved as the same bytes. Under
another strategy, from a document of another version or from what is no document, the cache that is
loaded is empty; from a document it has all the entries or none. -/
theorem load_saved {c : Cache} (small : c.Small) (fs : FileSystem) (path : Path)
    (strategy : CacheStrategy) :
    (fs.read path = .ok c.bytes →
      if strategy = c.strategy then
        ∃ loaded, load fs path strategy = .ok loaded ∧ loaded.path = path ∧
          loaded.strategy = strategy ∧ loaded.entries = c.entries ∧ loaded.bytes = c.bytes
      else load fs path strategy = .ok (empty path strategy)) ∧
    (∀ version < UInt64.size, version ≠ formatVersion →
      fs.read path = .ok (Text.bytesOf (c.document version).compact) →
        load fs path strategy = .ok (empty path strategy)) ∧
    ∀ bytes, fs.read path = .ok bytes →
      (decode? Document.read bytes = none → load fs path strategy = .ok (empty path strategy)) ∧
      ∀ document, decode? Document.read bytes = some document →
        if document.version = formatVersion ∧ document.strategy = strategy then
          ∃ loaded, load fs path strategy = .ok loaded ∧
            ∀ p, loaded.entry? p = document.entry? p
        else load fs path strategy = .ok (empty path strategy) := by
  refine ⟨fun read => ?_, fun version few other read => ?_, fun bytes read => ⟨fun none => ?_,
    fun document found => ?_⟩⟩
  · rw [load_read read, ofBytes_bytes small]
    split
    · rename_i same
      subst same
      exact ⟨⟨path, c.strategy, c.entries⟩, by rw [if_pos rfl], rfl, rfl, rfl, rfl⟩
    · rename_i other
      rw [if_neg (Ne.symm other)]
  · rw [load_read read, ofBytes_other (decode_document small few) (.inl other)]
  · rw [load_read read, ofBytes_none none]
  · rw [load_read read]
    split
    · rename_i accepted
      obtain ⟨version, rfl⟩ := accepted
      exact ⟨_, rfl, fun p => ofBytes_entry? found version path p⟩
    · rename_i refused
      rw [ofBytes_other found (not_and_or.1 refused)]

def sample : Cache :=
  let message := (Message.ofRule "no-tabs" .error "tab\t" 1 (UInt64.size - 1)).endingAt 1 4
  (empty ⟨"c"⟩ .content).store ⟨"é/\n.txt"⟩ ⟨4, none, some "0f"⟩ ⟨"1e"⟩
    { LintResult.ofMessages ⟨"é/\n.txt"⟩ [message.withFix ⟨2, 3, "\"é\""⟩] with source := some "é\t" }

def sampleFiles : FileSystem := ⟨[(["c"], .file sample.bytes 0)], [], 0⟩

theorem load_saved_sample :
    sample.Small ∧ ∃ loaded, load sampleFiles ⟨"c"⟩ .content = .ok loaded ∧
      loaded.entries = sample.entries ∧ loaded.bytes = sample.bytes := by
  have small : sample.Small := by
    intro e he
    rw [List.mem_singleton.1 he]
    refine ⟨⟨by decide, by rintro n ⟨⟩⟩, ⟨?_, by rintro m ⟨⟩, ?_, ?_, ?_, ?_, ?_⟩⟩
    · intro m hm
      rw [List.mem_singleton.1 hm]
      refine ⟨by decide, by decide, ?_, ?_, ?_⟩
      · rintro n ⟨⟩
        decide
      · rintro n ⟨⟩
        decide
      · rintro f ⟨⟩
        exact ⟨by decide, by decide⟩
    all_goals decide
  have read : sampleFiles.read ⟨"c"⟩ = .ok sample.bytes := by
    have place : ∀ bytes, FileSystem.place ⟨[(["c"], .file bytes 0)], [], 0⟩ ⟨"c"⟩ .content =
        .ok (.found ["c"]) := by
      intro bytes
      cbv
    rw [FileSystem.read, FileSystem.status, FileSystem.locate, sampleFiles, place]
    rfl
  obtain ⟨loaded, ok, -, -, entries, bytes⟩ :=
    (load_saved small sampleFiles ⟨"c"⟩ .content).1 read
  exact ⟨small, loaded, ok, entries, bytes⟩

end Cache
end ParallelLint
