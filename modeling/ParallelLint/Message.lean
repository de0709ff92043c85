import ParallelLint.Json.Decode

set_option autoImplicit false

namespace ParallelLint
open Json

inductive Severity where
  | warning | error
  deriving DecidableEq, Repr, Inhabited

def Severity.text : Severity → String
  | .warning => "warning"
  | .error => "error"

/-- Puts a text in the place of the bytes from `start` to before `stop`. -/
structure Fix where
  start : Nat
  stop : Nat
  text : String
  deriving DecidableEq, Repr, Inhabited

/-- Lines and columns count from one; a message about the whole file has zeros. -/
structure Message where
  ruleId : Option String
  severity : Severity
  fatal : Bool
  text : String
  line : Nat
  column : Nat
  endLine : Option Nat
  endColumn : Option Nat
  fix : Option Fix
  deriving DecidableEq, Repr, Inhabited

namespace Message

def ofRule (rule : String) (severity : Severity) (text : String) (line column : Nat) : Message :=
  ⟨some rule, severity, false, text, line, column, none, none, none⟩

def aboutFile (severity : Severity) (fatal : Bool) (text : String) : Message :=
  ⟨none, severity, fatal, text, 0, 0, none, none, none⟩

def fatalError (text : String) : Message := aboutFile .error true text

def notice (text : String) : Message := aboutFile .warning false text

def endingAt (m : Message) (line column : Nat) : Message :=
  { m with endLine := some line, endColumn := some column }

def withFix (m : Message) (fix : Fix) : Message := { m with fix := some fix }

def isError (m : Message) : Bool := m.fatal || m.severity = .error

end Message

def optionalField {α : Type} (name : String) (toJson : α → Json) (value : Option α) :
    List (String × Json) :=
  match value with
  | some v => [(name, toJson v)]
  | none => []

def Fix.toJson (f : Fix) : Json :=
  .object [("range", .array [.ofNat f.start, .ofNat f.stop]), ("text", .string f.text)]

def Message.toJson (m : Message) : Json :=
  .object <|
    [("rule_id", m.ruleId.elim .null .string), ("severity", .string m.severity.text)] ++
    (if m.fatal then [("fatal", .bool true)] else []) ++
    [("message", .string m.text), ("line", .ofNat m.line), ("column", .ofNat m.column)] ++
    optionalField "end_line" .ofNat m.endLine ++
    optionalField "end_column" .ofNat m.endColumn ++
    optionalField "fix" Fix.toJson m.fix

def Severity.read : Decoder Severity := readChoice [("warning", .warning), ("error", .error)]

def readRange : Decoder (Nat × Nat) := fun depth tree =>
  match readList readNatural depth tree with
  | some [start, stop] => some (start, stop)
  | _ => none

def Fix.read : Decoder Fix := fun depth tree =>
  match readRecord ["range", "text"] 2 depth tree with
  | some (depth, [range, text]) => do
    let (start, stop) ← required readRange depth range
    let text ← required readString depth text
    pure ⟨start, stop, text⟩
  | _ => none

def Message.read : Decoder Message := fun depth tree =>
  match readRecord ["rule_id", "severity", "fatal", "message", "line", "column", "end_line",
      "end_column", "fix"] 6 depth tree with
  | some (depth, [rule, severity, fatal, text, line, column, endLine, endColumn, fix]) => do
    let ruleId ← defaulted none (readOption readString) depth rule
    let severity ← required Severity.read depth severity
    let fatal ← defaulted false readBool depth fatal
    let text ← required readString depth text
    let line ← required readNatural depth line
    let column ← required readNatural depth column
    let endLine ← defaulted none (readOption readNatural) depth endLine
    let endColumn ← defaulted none (readOption readNatural) depth endColumn
    let fix ← defaulted none (readOption Fix.read) depth fix
    pure ⟨ruleId, severity, fatal, text, line, column, endLine, endColumn, fix⟩
  | _ => none

end ParallelLint
