import ParallelLint.Config.Basic
import ParallelLint.Digest.Blake3
import ParallelLint.Json.Decode

set_option autoImplicit false

namespace ParallelLint
open Json

def RuleEntry.toJson : RuleEntry → Json
  | .plain level => .string level.text
  | .detailed level options => .object [("level", .string level.text), ("options", options)]

namespace Config

def document (rules : List (String × RuleEntry)) (settings : List (String × Json)) : Json :=
  .object
    [("rules", .object (rules.map fun rule => (rule.1, rule.2.toJson))),
      ("settings", .object settings)]

def toJson (c : Config) : Json := document c.rules.entries c.settings.entries

def sortedRules (c : Config) : Sorted String RuleEntry := .ofList c.rules.entries

/-- The same for all declaration orders of the rules. -/
def canonicalJson (c : Config) : Json := document c.sortedRules.entries c.settings.entries

end Config

structure Fingerprint where
  hex : String
  deriving DecidableEq, Repr, Inhabited

def Fingerprint.ofBytes (bytes : Text.Bytes) : Fingerprint := ⟨Blake3.hashHex bytes⟩

def Config.fingerprint (c : Config) : Fingerprint :=
  .ofBytes (Text.bytesOf c.canonicalJson.compact)

structure ResolvedConfig where
  config : Config
  fingerprint : Fingerprint
  source : Option Path
  deriving Inhabited

def ResolvedConfig.ofConfig (config : Config) (source : Option Path) : ResolvedConfig :=
  ⟨config, config.fingerprint, source⟩

def RuleLevel.read : Decoder RuleLevel := readChoice RuleLevel.choices

def namedFields (fields : List (List Piece × Tree)) : Option (List (String × Tree)) :=
  fields.mapM fun field => (text? field.1).map fun name => (name, field.2)

def RuleEntry.readDetailed : Decoder RuleEntry
  | depth + 1, .object fields => do
    let fields ← namedFields fields
    if ["level", "options"].any fun name => 1 < fields.countP fun field => field.1 = name then none
    else
      let level ← (fields.lookup "level").bind (RuleLevel.read depth)
      let options ← defaulted .null readAny depth (fields.lookup "options")
      pure (.detailed level options)
  | _, _ => none

/-- A level alone, or with options. Whatever is skipped must be well-formed too. -/
def RuleEntry.read : Decoder RuleEntry := fun depth tree => do
  let _ ← readAny depth tree
  match RuleLevel.read depth tree with
  | some level => pure (.plain level)
  | none => RuleEntry.readDetailed depth tree

def Config.read : Decoder Config := fun depth tree =>
  match readRecord ["rules", "settings"] 0 depth tree with
  | some (depth, [rules, settings]) => do
    let rules ← defaulted [] (readFields RuleEntry.read) depth rules
    let settings ← defaulted [] (readFields readAny) depth settings
    pure ⟨.ofList rules, .ofList settings⟩
  | _ => none

end ParallelLint
