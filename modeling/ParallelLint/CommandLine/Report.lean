import ParallelLint.Dispatch.Run

set_option autoImplicit false

namespace ParallelLint.CommandLine
open Number (naturalText)

def padLeft (width : Nat) (text : String) : String :=
  String.ofList (List.replicate (width - text.length) ' ') ++ text

def padRight (width : Nat) (text : String) : String :=
  text ++ String.ofList (List.replicate (width - text.length) ' ')

def lines (texts : List String) : String := String.join (texts.map (· ++ "\n"))

def plural (count : Nat) : String := if count = 1 then "" else "s"

def kind (m : Message) : String := if m.fatal then "fatal" else m.severity.text

def messageLine (m : Message) : String :=
  "  " ++ padLeft 4 (naturalText m.line) ++ ":" ++ padRight 4 (naturalText m.column) ++ " " ++
    padRight 8 (kind m) ++ " " ++ m.text ++ "  " ++ m.ruleId.getD ""

/-- Paths below the working directory are shown as seen from there. -/
def shownPath (directory path : Path) : String := ((path.relativeTo? directory).getD path).text

def fileLines (directory : Path) (result : LintResult) : List String :=
  if result.hasMessages then
    "" :: shownPath directory result.path :: result.messages.map messageLine
  else []

def fixableCount (report : RunReport) : Nat :=
  LintResult.total (fun c => c.fixableErrors + c.fixableWarnings) report.results

def summaryLines (report : RunReport) : List String :=
  let errors := report.errors
  let warnings := report.warnings
  let total := errors + warnings
  let fixable := fixableCount report
  if total = 0 then []
  else
    ["", s!"{total} problem{plural total} ({errors} error{plural errors}, " ++
      s!"{warnings} warning{plural warnings})"] ++
    if fixable = 0 then []
    else [s!"  {fixable} potentially fixable with the \x60--fix\x60 option."]

def textReport (directory : Path) (report : RunReport) : String :=
  lines (report.results.flatMap (fileLines directory) ++ summaryLines report)

def jsonReport (report : RunReport) : String :=
  lines [(Json.array (report.files.map FileReport.toJson)).pretty]

def deprecatedUses (report : RunReport) : List DeprecatedRule :=
  (report.files.flatMap FileReport.deprecated).foldl (fun uses d =>
    if uses.any fun used => used.ruleId = d.ruleId then uses else uses ++ [d]) []

def deprecationNote (d : DeprecatedRule) : String :=
  if d.replacedBy.isEmpty then s!"Rule \"{d.ruleId}\" is deprecated."
  else
    let others := String.intercalate ", " d.replacedBy
    s!"Rule \"{d.ruleId}\" is deprecated; use {others} instead."

/-- The closing note, before and after the place of the time that the run took. -/
def linted (report : RunReport) : String × String :=
  let files := report.files.length
  (s!"Linted {files} file{plural files} with {report.workers} worker{plural report.workers}",
    s!" ({report.stats.cacheHits} from cache)")

end ParallelLint.CommandLine
