import ParallelLint.Config.Written
import ParallelLint.Error
import ParallelLint.Toml.Reader

set_option autoImplicit false

namespace ParallelLint
open Toml (Value Fields)

/-- A date or time reads as a table with this one key. -/
def Toml.datetimeKey : String := "$__toml_private_datetime"

mutual

/-- Integers must fit 64 bits, with or without a sign; what is no number is null. -/
def Toml.Value.toJson : Value → Option Json
  | .string text => some (.string text)
  | .integer n =>
    if 0 ≤ n then if n.toNat < UInt64.size then some (.ofNat n.toNat) else none
    else if n.natAbs ≤ 1 <<< 63 then some (.number (.negative n.natAbs))
    else none
  | .float (.finite x) => some (.number (.float x))
  | .float _ => some .null
  | .boolean b => some (.bool b)
  | .datetime text => some (.object [(Toml.datetimeKey, .string text)])
  | .array items => (Toml.itemsJson items).map .array
  | .tables items => (Toml.tablesJson items).map .array
  | .table _ fields => (Toml.fieldsJson fields).map fun fields => .object (Json.sortFields fields)

def Toml.itemsJson : List Value → Option (List Json)
  | [] => some []
  | item :: rest => do
    let value ← item.toJson
    let values ← Toml.itemsJson rest
    pure (value :: values)

def Toml.tablesJson : List (List (String × Value)) → Option (List Json)
  | [] => some []
  | fields :: rest => do
    let fields ← Toml.fieldsJson fields
    let values ← Toml.tablesJson rest
    pure (.object (Json.sortFields fields) :: values)

def Toml.fieldsJson : List (String × Value) → Option (List (String × Json))
  | [] => some []
  | (name, item) :: rest => do
    let value ← item.toJson
    let values ← Toml.fieldsJson rest
    pure ((name, value) :: values)

end

mutual

/-- What is not looked at may hold integers of 128 bits, with or without a sign. -/
def Toml.Value.isSkippable : Value → Bool
  | .integer n => if 0 ≤ n then n.toNat < 1 <<< 128 else n.natAbs ≤ 1 <<< 127
  | .array items => Toml.itemsSkippable items
  | .tables items => Toml.tablesSkippable items
  | .table _ fields => Toml.fieldsSkippable fields
  | _ => true

def Toml.itemsSkippable : List Value → Bool
  | [] => true
  | item :: rest => item.isSkippable && Toml.itemsSkippable rest

def Toml.tablesSkippable : List (List (String × Value)) → Bool
  | [] => true
  | fields :: rest => Toml.fieldsSkippable fields && Toml.tablesSkippable rest

def Toml.fieldsSkippable : List (String × Value) → Bool
  | [] => true
  | (_, item) :: rest => item.isSkippable && Toml.fieldsSkippable rest

end

def RuleLevel.ofToml? : Value → Option RuleLevel
  | .string text => RuleLevel.choices.lookup text
  | _ => none

def RuleEntry.ofToml? : Value → Option RuleEntry
  | .table _ fields => do
    let values ← Toml.fieldsJson fields
    let level ← (fields.lookup "level").bind RuleLevel.ofToml?
    pure (.detailed level ((values.lookup "options").getD .null))
  | value => (RuleLevel.ofToml? value).map .plain

def Config.rulesOfToml? : Option Value → Option (Declared RuleEntry)
  | none => some .empty
  | some (.table _ fields) => do
    let rules ← fields.mapM fun field => (RuleEntry.ofToml? field.2).map fun e => (field.1, e)
    pure (.ofList rules)
  | some _ => none

def Config.settingsOfToml? : Option Value → Option (Sorted String Json)
  | none => some .empty
  | some (.table _ fields) => (Toml.fieldsJson fields).map Sorted.ofList
  | some (.datetime text) => some (.ofList [(Toml.datetimeKey, .string text)])
  | some _ => none

/-- Only the rules and the settings of a document count. -/
def Config.ofToml? (text : String) : Option Config := do
  let fields ← Toml.read? text
  let rules ← rulesOfToml? (fields.lookup "rules")
  let settings ← settingsOfToml? (fields.lookup "settings")
  if fields.all fun field => field.1 = "rules" || field.1 = "settings" || field.2.isSkippable then
    pure ⟨rules, settings⟩
  else none

def Config.load (path : Path) (text : String) : Except LintError Config :=
  match Config.ofToml? text with
  | some config => .ok config
  | none => .error (.configLoad path "TOML parse error")

end ParallelLint
