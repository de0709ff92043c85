import Mathlib.Data.List.Nodup
import ParallelLint.Proofs.Config.Canonical
import ParallelLint.Proofs.Json.Values

set_option autoImplicit false

namespace ParallelLint
open Json

theorem RuleEntry.toJson_injective {a b : RuleEntry} (same : a.toJson = b.toJson) : a = b := by
  match a, b with
  | .plain _, .plain _ =>
    rw [RuleLevel.text_injective (Json.string.inj same)]
  | .detailed _ _, .detailed _ _ =>
    obtain ⟨level, options⟩ := List.cons.inj (Json.object.inj same)
    rw [RuleLevel.text_injective (Json.string.inj (Prod.mk.inj level).2),
      (Prod.mk.inj (List.cons.inj options).1).2]

theorem lookup_mem_iff {α : Type} {entries : List (String × α)}
    (distinct : (entries.map Prod.fst).Nodup) {name : String} {value : α} :
    entries.lookup name = some value ↔ (name, value) ∈ entries := by
  induction entries with
  | nil => simp
  | cons e rest ih =>
    obtain ⟨k, v⟩ := e
    obtain ⟨new, others⟩ := List.nodup_cons.1 distinct
    rw [List.lookup_cons, List.mem_cons, Prod.mk.injEq]
    cases same : name == k with
    | true =>
      obtain rfl := eq_of_beq same
      refine ⟨fun h => .inl ⟨rfl, (Option.some.inj h).symm⟩, ?_⟩
      rintro (⟨-, rfl⟩ | mem)
      · rfl
      · exact absurd (List.mem_map_of_mem (f := Prod.fst) mem) new
    | false => simp [ih others, ne_of_beq_false same]

namespace Config
variable {c d : Config}

theorem sortedRules_iff :
    c.sortedRules = d.sortedRules ↔ ∀ rule, c.rules.find? rule = d.rules.find? rule := by
  constructor
  · intro same rule
    rw [find?_sorted, find?_sorted, same]
  · intro same
    have members : ∀ e, e ∈ c.rules.entries ↔ e ∈ d.rules.entries := by
      rintro ⟨rule, entry⟩
      rw [← lookup_mem_iff c.rules.distinct, ← lookup_mem_iff d.rules.distinct]
      exact Eq.congr_left (same rule)
    have perm : c.rules.entries.Perm d.rules.entries :=
      (List.perm_ext_iff_of_nodup (List.Nodup.of_map _ c.rules.distinct)
        (List.Nodup.of_map _ d.rules.distinct)).2 members
    exact Sorted.ofList_eq_of_perm perm c.rules.distinct_entries

theorem document_injective {rules rules' : List (String × RuleEntry)}
    {settings settings' : List (String × Json)}
    (same : document rules settings = document rules' settings') :
    rules = rules' ∧ settings = settings' := by
  obtain ⟨first, rest⟩ := List.cons.inj (Json.object.inj same)
  refine ⟨?_, Json.object.inj (Prod.mk.inj (List.cons.inj rest).1).2⟩
  refine (List.map_injective_iff.2 fun f g alike => ?_) (Json.object.inj (Prod.mk.inj first).2)
  exact Prod.ext (Prod.mk.inj alike).1 (RuleEntry.toJson_injective (Prod.mk.inj alike).2)

theorem canonicalJson_iff : c.canonicalJson = d.canonicalJson ↔
    (∀ rule, c.rules.find? rule = d.rules.find? rule) ∧ c.settings = d.settings := by
  rw [← sortedRules_iff]
  constructor
  · intro same
    obtain ⟨rules, settings⟩ := document_injective same
    exact ⟨Sorted.ext rules, Sorted.ext settings⟩
  · rintro ⟨rules, settings⟩
    rw [canonicalJson, canonicalJson, rules, settings]

def canonicalBytes (c : Config) : Text.Bytes := Text.bytesOf c.canonicalJson.compact

theorem canonicalBytes_injective (told : Told c.canonicalJson.floats d.canonicalJson.floats)
    (same : c.canonicalBytes = d.canonicalBytes) : c.canonicalJson = d.canonicalJson :=
  compactChars_injective _ _ told (String.ofList_injective (Text.bytesOf_injective same))

/-- Two configurations have one fingerprint if and only if they have the same rules with the same
entries and the same settings, where the digest does not collide on them and their binary64
numbers are told apart by their spelling. -/
theorem fingerprint_iff
    (resists : Blake3.hashHex c.canonicalBytes = Blake3.hashHex d.canonicalBytes →
      c.canonicalBytes = d.canonicalBytes)
    (told : Told c.canonicalJson.floats d.canonicalJson.floats) :
    c.fingerprint = d.fingerprint ↔
      (∀ rule, c.rules.find? rule = d.rules.find? rule) ∧ c.settings = d.settings := by
  rw [← canonicalJson_iff]
  constructor
  · intro same
    exact canonicalBytes_injective told (resists (Fingerprint.mk.inj same))
  · intro same
    rw [fingerprint, fingerprint, same]

def nested (x : Number.Binary64) : Config :=
  empty.withRule "tab" (.detailed .off (.array [.number (.float x)]))

def half : Number.Binary64 := ⟨false, 1 <<< 52, -53⟩

def quarter : Number.Binary64 := ⟨false, 1 <<< 52, -54⟩

set_option maxRecDepth 100000 in
theorem fingerprint_nested : (nested half).fingerprint ≠ (nested quarter).fingerprint := by
  have resists : Blake3.hashHex (nested half).canonicalBytes =
      Blake3.hashHex (nested quarter).canonicalBytes →
        (nested half).canonicalBytes = (nested quarter).canonicalBytes := by
    decide +kernel
  have told : Told (nested half).canonicalJson.floats (nested quarter).canonicalJson.floats := by
    unfold Told
    decide +kernel
  intro same
  obtain ⟨rules, -⟩ := (fingerprint_iff resists told).1 same
  have options := congrArg (Option.map fun e => e.options.floats) (rules "tab")
  exact absurd options (by decide +kernel)

end Config
end ParallelLint
