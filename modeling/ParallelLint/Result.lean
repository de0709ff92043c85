import ParallelLint.Error
import ParallelLint.Message

set_option autoImplicit false

namespace ParallelLint
open Json

structure Counts where
  errors : Nat
  fatalErrors : Nat
  warnings : Nat
  fixableErrors : Nat
  fixableWarnings : Nat
  deriving DecidableEq, Repr, Inhabited

def Counts.zero : Counts := ⟨0, 0, 0, 0, 0⟩

/-- Every message is an error or a warning. -/
def Counts.ofMessages (messages : List Message) : Counts where
  errors := messages.countP fun m => m.isError
  fatalErrors := messages.countP fun m => m.fatal
  warnings := messages.countP fun m => !m.isError
  fixableErrors := messages.countP fun m => m.isError && m.fix.isSome
  fixableWarnings := messages.countP fun m => !m.isError && m.fix.isSome

structure LintResult where
  path : Path
  messages : List Message
  suppressed : List Message
  counts : Counts
  output : Option String
  source : Option String
  deriving DecidableEq, Repr, Inhabited

/-- An enabled rule that is out of use, and the rules to use instead. -/
structure DeprecatedRule where
  ruleId : String
  replacedBy : List String
  deriving DecidableEq, Repr

namespace LintResult

def recount (r : LintResult) : LintResult := { r with counts := .ofMessages r.messages }

@[simp]
theorem recount_messages (r : LintResult) : r.recount.messages = r.messages := rfl

@[simp]
theorem recount_output (r : LintResult) : r.recount.output = r.output := rfl

def ofMessages (path : Path) (messages : List Message) : LintResult :=
  recount ⟨path, messages, [], .zero, none, none⟩

@[simp]
theorem ofMessages_messages (path : Path) (messages : List Message) :
    (ofMessages path messages).messages = messages := rfl

def hasMessages (r : LintResult) : Bool := !r.messages.isEmpty

def ignoredText (path : Path) : String :=
  if path.hasName "node_modules" then
    "File ignored by default because it is located under the node_modules directory. " ++
    "Use ignore pattern \"!**/node_modules/\" to disable file ignore settings or use " ++
    "\"--no-warn-ignored\" to suppress this warning."
  else
    "File ignored because of a matching ignore pattern. Use \"--no-ignore\" to disable " ++
    "file ignore settings or use \"--no-warn-ignored\" to suppress this warning."

def ignored (path : Path) : LintResult := ofMessages path [.notice (ignoredText path)]

def unconfigured (path : Path) : LintResult :=
  ofMessages path [.notice "File ignored because no matching configuration was supplied."]

def readFailure (path : Path) (error : FileError) : LintResult :=
  ofMessages path [.fatalError s!"Could not read {path.text}: {error.message}"]

def fields (r : LintResult) : List (String × Json) :=
  [("file_path", .string r.path.text),
    ("messages", .array (r.messages.map Message.toJson)),
    ("suppressed_messages", .array (r.suppressed.map Message.toJson)),
    ("error_count", .ofNat r.counts.errors),
    ("fatal_error_count", .ofNat r.counts.fatalErrors),
    ("warning_count", .ofNat r.counts.warnings),
    ("fixable_error_count", .ofNat r.counts.fixableErrors),
    ("fixable_warning_count", .ofNat r.counts.fixableWarnings)] ++
  optionalField "output" .string r.output ++
  optionalField "source" .string r.source

def toJson (r : LintResult) : Json := .object r.fields

def read : Decoder LintResult := fun depth tree =>
  match readRecord ["file_path", "messages", "suppressed_messages", "error_count",
      "fatal_error_count", "warning_count", "fixable_error_count", "fixable_warning_count",
      "output", "source"] 8 depth tree with
  | some (depth, [path, messages, suppressed, errors, fatalErrors, warnings, fixableErrors,
      fixableWarnings, output, source]) => do
    let path ← required readString depth path
    let messages ← required (readList Message.read) depth messages
    let suppressed ← defaulted [] (readList Message.read) depth suppressed
    let errors ← required readNatural depth errors
    let fatalErrors ← required readNatural depth fatalErrors
    let warnings ← required readNatural depth warnings
    let fixableErrors ← required readNatural depth fixableErrors
    let fixableWarnings ← required readNatural depth fixableWarnings
    let output ← defaulted none (readOption readString) depth output
    let source ← defaulted none (readOption readString) depth source
    pure ⟨⟨path⟩, messages, suppressed,
      ⟨errors, fatalErrors, warnings, fixableErrors, fixableWarnings⟩, output, source⟩
  | _ => none

def total (count : Counts → Nat) (results : List LintResult) : Nat :=
  results.foldr (fun result sum => count result.counts + sum) 0

end LintResult

def DeprecatedRule.toJson (d : DeprecatedRule) : Json :=
  .object [("rule_id", .string d.ruleId), ("replaced_by", .array (d.replacedBy.map .string))]

structure FileReport where
  result : LintResult
  deprecated : List DeprecatedRule
  deriving DecidableEq, Repr, Inhabited

def LintResult.alone (r : LintResult) : FileReport := ⟨r, []⟩

def FileReport.toJson (r : FileReport) : Json :=
  .object (r.result.fields ++
    [("used_deprecated_rules", .array (r.deprecated.map DeprecatedRule.toJson))])

end ParallelLint
