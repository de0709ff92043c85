import ParallelLint.Analyzer.Basic
import ParallelLint.Analyzer.Fixing
import ParallelLint.Text.Blank

set_option autoImplicit false

namespace ParallelLint.TextRules
open Text Fixing

def noTrailingSpaces : String := "no-trailing-spaces"
def maxLineLength : String := "max-line-length"
def noTabs : String := "no-tabs"

/-- The old name of `noTrailingSpaces`. -/
def noTrailingWhitespace : String := "no-trailing-whitespace"

def standardMaxLength : Nat := 100

def defaultConfig : Config :=
  (Config.empty.withRule noTrailingSpaces (.plain .error)).withRule maxLineLength (.plain .warn)

def replacements (rule : String) : Option (List String) :=
  if rule = noTrailingWhitespace then some [noTrailingSpaces] else none

structure Enabled where
  trailing : Option (String × Severity)
  maxLength : Option (Severity × Nat)
  tabs : Option Severity

def severity (e : RuleEntry) : Severity := if e.level = .error then .error else .warning

def maxLengthOf (e : RuleEntry) : Nat :=
  ((e.options.field? "max").bind Json.natural?).getD standardMaxLength

/-- Under both of its names the newer one of a rule counts. -/
def enabled (c : Config) : Enabled where
  trailing :=
    match c.enabledRule noTrailingSpaces with
    | some e => some (noTrailingSpaces, severity e)
    | none => (c.enabledRule noTrailingWhitespace).map fun e => (noTrailingWhitespace, severity e)
  maxLength := (c.enabledRule maxLineLength).map fun e => (severity e, maxLengthOf e)
  tabs := (c.enabledRule noTabs).map severity

def splitLines : List Char → List (List Char)
  | [] => []
  | c :: rest =>
    if c = '\n' then [c] :: splitLines rest
    else match splitLines rest with
      | [] => [[c]]
      | line :: lines => (c :: line) :: lines

def isLineEnd (c : Char) : Bool := c = '\n' || c = '\r'
def isTrailing (c : Char) : Bool := c = ' ' || c = '\t'

def body (raw : List Char) : List Char := dropEndWhile isLineEnd raw

def content (line : List Char) : List Char := dropEndWhile isTrailing line

def trailingMessage (number start : Nat) (line : List Char) (rule : String × Severity) :
    Option Message :=
  let kept := content line
  if kept.length < line.length then
    let message := Message.ofRule rule.1 rule.2 "Trailing spaces not allowed." number
      (kept.length + 1)
    let fix : Fix := ⟨start + byteLength kept, start + byteLength line, ""⟩
    some ((message.endingAt number (line.length + 1)).withFix fix)
  else none

def lengthMessage (number : Nat) (line : List Char) (rule : Severity × Nat) : Option Message :=
  if rule.2 < line.length then
    some (Message.ofRule maxLineLength rule.1
      s!"This line has a length of {line.length}. Maximum allowed is {rule.2}." number 1)
  else none

def tabMessage (number : Nat) (line : List Char) (severity : Severity) : Option Message :=
  (line.findIdx? (· = '\t')).map fun before =>
    Message.ofRule noTabs severity "Unexpected tab character." number (before + 1)

def lineMessages (on : Enabled) (number start : Nat) (line : List Char) : List Message :=
  (on.trailing.bind (trailingMessage number start line)).toList ++
  (on.maxLength.bind (lengthMessage number line)).toList ++
  (on.tabs.bind (tabMessage number line)).toList

def messagesFrom (on : Enabled) (number start : Nat) : List (List Char) → List Message
  | [] => []
  | raw :: rest =>
    lineMessages on number start (body raw) ++
      messagesFrom on (number + 1) (start + byteLength raw) rest

def messages (c : Config) (source : String) : List Message :=
  messagesFrom (enabled c) 1 0 (splitLines source.toList)

def analyze (path : Path) (source : String) (c : Config) (fix : FixMode) : LintResult :=
  let (output, remaining) := Fixing.run fix source (messages c source)
  { LintResult.ofMessages path [] with output, messages := remaining }.recount

end TextRules

def textRules : Analyzer where
  replacements := TextRules.replacements
  analyze request fs :=
    (.ok (TextRules.analyze request.path request.source request.config.config request.fix), fs)

end ParallelLint
