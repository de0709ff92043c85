import ParallelLint.Config.Written
import ParallelLint.FileSystem.Basic
import ParallelLint.Options.FixMode
import ParallelLint.Result

set_option autoImplicit false

namespace ParallelLint

structure Request where
  path : Path
  source : String
  config : ResolvedConfig
  fix : FixMode

/-- How an analysis can end without a result. -/
inductive Breakdown where
  | failed (error : LintError)
  | crashed (detail : Option String)
  deriving DecidableEq, Repr

/-- An analyzer sees the file system and may change it. -/
structure Analyzer where
  replacements : String → Option (List String)
  analyze : Request → FileSystem → Except Breakdown LintResult × FileSystem

def Config.deprecatedRules (c : Config) (replacements : String → Option (List String)) :
    List DeprecatedRule :=
  (c.rules.entries.filter fun rule => rule.2.isEnabled).filterMap fun rule =>
    (replacements rule.1).map fun others => ⟨rule.1, others⟩

end ParallelLint
