import ParallelLint.Collection.Declared
import ParallelLint.Collection.Sorted
import ParallelLint.Json.Value
import ParallelLint.Path

set_option autoImplicit false

namespace ParallelLint

inductive RuleLevel where
  | off | warn | error
  deriving DecidableEq, Repr, Inhabited

def RuleLevel.text : RuleLevel → String
  | .off => "off"
  | .warn => "warn"
  | .error => "error"

def RuleLevel.choices : List (String × RuleLevel) :=
  [("off", .off), ("warn", .warn), ("error", .error)]

inductive RuleEntry where
  | plain (level : RuleLevel)
  | detailed (level : RuleLevel) (options : Json)
  deriving Repr, Inhabited

namespace RuleEntry

def level : RuleEntry → RuleLevel
  | .plain level => level
  | .detailed level _ => level

def options : RuleEntry → Json
  | .plain _ => .null
  | .detailed _ options => options

def isEnabled (e : RuleEntry) : Bool := e.level ≠ .off

end RuleEntry

structure Config where
  rules : Declared RuleEntry
  settings : Sorted String Json
  deriving Inhabited

namespace Config

def empty : Config := ⟨.empty, .empty⟩

def withRule (c : Config) (rule : String) (entry : RuleEntry) : Config :=
  { c with rules := c.rules.insert rule entry }

/-- What the second one says replaces what the first one says of the same name. -/
def mergedWith (c other : Config) : Config :=
  ⟨c.rules.overlay other.rules, c.settings.overlay other.settings⟩

def enabledRule (c : Config) (rule : String) : Option RuleEntry :=
  (c.rules.find? rule).filter RuleEntry.isEnabled

end Config
end ParallelLint
