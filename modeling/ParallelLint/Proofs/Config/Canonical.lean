import ParallelLint.Analyzer.TextRules
import ParallelLint.Config.Written
import ParallelLint.Proofs.Collection.Sorted
import ParallelLint.Proofs.Json.Unique

set_option autoImplicit false

namespace ParallelLint
open Json

theorem RuleLevel.text_injective {a b : RuleLevel} (h : a.text = b.text) : a = b := by
  revert h
  cases a <;> cases b <;> decide

theorem RuleEntry.toJson_congr {a b : RuleEntry}
    (same : compactChars a.toJson = compactChars b.toJson) :
    a.level = b.level ∧ compactChars a.options = compactChars b.options := by
  have kinds := kind_of_same (congrArg (· ++ []) same)
  match a, b with
  | .plain _, .plain _ =>
    obtain ⟨text, -⟩ := quoted_cancel (congrArg (· ++ []) same)
    exact ⟨RuleLevel.text_injective text, rfl⟩
  | .detailed _ _, .detailed _ _ =>
    rcases sameFields same with _ | ⟨⟨-, level⟩, _ | ⟨⟨-, options⟩, -⟩⟩
    obtain ⟨text, -⟩ := quoted_cancel (congrArg (· ++ []) level)
    exact ⟨RuleLevel.text_injective text, options⟩

/-- Entries of one canonical form. -/
def RuleEntry.Same (a b : RuleEntry) : Prop := compactChars a.toJson = compactChars b.toJson

namespace TextRules
variable {a b : RuleEntry}

theorem severity_congr (same : a.Same b) : severity a = severity b := by
  rw [severity, severity, (RuleEntry.toJson_congr same).1]

theorem maxLengthOf_congr (same : a.Same b) : maxLengthOf a = maxLengthOf b := by
  have fields := field?_congr (RuleEntry.toJson_congr same).2 "max"
  have numbers : (a.options.field? "max").bind Json.natural? =
      (b.options.field? "max").bind Json.natural? := by
    revert fields
    cases a.options.field? "max" <;> cases b.options.field? "max" <;> intro fields
    · rfl
    · cases fields
    · cases fields
    · exact natural?_congr (Option.some.inj fields)
  rw [maxLengthOf, maxLengthOf, numbers]

end TextRules

theorem lookup_perm {α : Type} {xs ys : List (String × α)} (h : xs.Perm ys)
    (distinct : (xs.map Prod.fst).Nodup) (name : String) : xs.lookup name = ys.lookup name := by
  induction h with
  | nil => rfl
  | cons x _ ih =>
    rw [List.lookup_cons, List.lookup_cons, ih (List.nodup_cons.1 distinct).2]
  | swap x y rest =>
    obtain ⟨n, v⟩ := x
    obtain ⟨m, w⟩ := y
    have other : m ≠ n := by
      rintro same
      simp [same] at distinct
    simp only [List.lookup_cons]
    cases first : name == m with
    | false => rfl
    | true =>
      cases second : name == n with
      | false => rfl
      | true => exact absurd ((eq_of_beq first).symm.trans (eq_of_beq second)) other
  | trans h _ ih ih' =>
    rw [ih distinct, ih' ((h.map Prod.fst).nodup_iff.1 distinct)]

theorem Declared.distinct_entries {α : Type} (m : Declared α) : Sorted.Distinct m.entries :=
  (List.pairwise_map.1 m.distinct).imp fun different same =>
    different (Std.LawfulEqCmp.eq_of_compare same)

namespace Config

theorem find?_sorted (c : Config) (rule : String) :
    c.rules.find? rule = c.sortedRules.entries.lookup rule :=
  lookup_perm (Sorted.ofList_perm c.rules.distinct_entries).symm c.rules.distinct rule

variable {c d : Config}

theorem rules_congr (same : compactChars c.canonicalJson = compactChars d.canonicalJson) :
    List.Forall₂ (fun f g : String × RuleEntry => f.1 = g.1 ∧ f.2.Same g.2)
      c.sortedRules.entries d.sortedRules.entries := by
  rcases sameFields same with _ | ⟨⟨-, rules⟩, -⟩
  have fields := sameFields rules
  rwa [SameFields, List.forall₂_map_left_iff, List.forall₂_map_right_iff] at fields

theorem enabledRule_congr (same : compactChars c.canonicalJson = compactChars d.canonicalJson)
    (rule : String) : Option.Rel RuleEntry.Same (c.enabledRule rule) (d.enabledRule rule) := by
  have rules := rules_congr same
  rw [enabledRule, enabledRule, find?_sorted, find?_sorted]
  generalize c.sortedRules.entries = xs at rules
  generalize d.sortedRules.entries = ys at rules
  induction rules with
  | nil => exact .none
  | @cons f g _ _ first _ ih =>
    obtain ⟨name, entry⟩ := f
    obtain ⟨name', entry'⟩ := g
    obtain ⟨rfl, alike⟩ := first
    rw [List.lookup_cons, List.lookup_cons]
    simp only
    cases rule == name with
    | false => exact ih
    | true =>
      have levels : entry.isEnabled = entry'.isEnabled := by
        rw [RuleEntry.isEnabled, RuleEntry.isEnabled, (RuleEntry.toJson_congr alike).1]
      simp only [Option.filter, ← levels]
      split
      · exact .some alike
      · exact .none

end Config

theorem TextRules.enabled_congr {c d : Config}
    (same : Text.bytesOf c.canonicalJson.compact = Text.bytesOf d.canonicalJson.compact) :
    enabled c = enabled d := by
  have text := Text.bytesOf_injective same
  have chars : compactChars c.canonicalJson = compactChars d.canonicalJson := by
    rw [compact, compact] at text
    simpa using congrArg String.toList text
  have mapped : ∀ {β : Type} (f : RuleEntry → β) (rule : String),
      (∀ a b : RuleEntry, a.Same b → f a = f b) →
        (c.enabledRule rule).map f = (d.enabledRule rule).map f := by
    intro β f rule alike
    have related := Config.enabledRule_congr chars rule
    generalize c.enabledRule rule = found at related ⊢
    generalize d.enabledRule rule = found' at related ⊢
    cases related with
    | none => rfl
    | some same => exact congrArg some (alike _ _ same)
  have named : ∀ c : Config, (enabled c).trailing =
      ((c.enabledRule noTrailingSpaces).map fun e => (noTrailingSpaces, severity e)).or
        ((c.enabledRule noTrailingWhitespace).map fun e => (noTrailingWhitespace, severity e)) := by
    intro c
    simp only [enabled]
    cases c.enabledRule noTrailingSpaces <;> rfl
  have trailing : (enabled c).trailing = (enabled d).trailing := by
    rw [named, named, mapped _ noTrailingSpaces fun _ _ same => by rw [severity_congr same],
      mapped _ noTrailingWhitespace fun _ _ same => by rw [severity_congr same]]
  have maxLength : (enabled c).maxLength = (enabled d).maxLength :=
    mapped _ _ fun _ _ same => by rw [severity_congr same, maxLengthOf_congr same]
  have tabs : (enabled c).tabs = (enabled d).tabs := mapped _ _ fun _ _ => severity_congr
  cases first : enabled c
  cases second : enabled d
  rw [first, second] at trailing maxLength tabs
  simp only at trailing maxLength tabs
  rw [trailing, maxLength, tabs]

end ParallelLint
