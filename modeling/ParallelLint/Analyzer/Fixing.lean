import ParallelLint.Options.FixMode

set_option autoImplicit false

/-!
Applying fixes to a text. Fixes are taken in the order of their ranges; one that begins before the
last one ended, or ends after the text, is left and its message stays.
-/
namespace ParallelLint.Fixing

def byteLength : List Char → Nat
  | [] => 0
  | c :: rest => c.utf8Size + byteLength rest

/-- The characters within the first `n` bytes, and the others. -/
def splitAtByte : Nat → List Char → List Char × List Char
  | _, [] => ([], [])
  | 0, chars => ([], chars)
  | n, c :: rest =>
    let parts := splitAtByte (n - c.utf8Size) rest
    (c :: parts.1, parts.2)

abbrev Fixable := Message × Fix

def fixable? (mode : FixMode) (m : Message) : Option Fixable :=
  if mode.allows m then m.fix.map fun fix => (m, fix) else none

def inOrder (a b : Fixable) : Bool :=
  a.2.start < b.2.start || (a.2.start = b.2.start && a.2.stop ≤ b.2.stop)

def earlier (a b : Message) : Bool := a.line < b.line || (a.line = b.line && a.column ≤ b.column)

/-- Applies fixes to the text from the byte `position` on, in a text of `length` bytes: the new text
and the messages whose fixes do not apply. -/
def applyFrom (length position : Nat) (rest : List Char) :
    List Fixable → List Char × List Message
  | [] => (rest, [])
  | (m, fix) :: more =>
    if fix.start < position || length < fix.stop then
      let applied := applyFrom length position rest more
      (applied.1, m :: applied.2)
    else
      let kept := splitAtByte (fix.start - position) rest
      let replaced := splitAtByte (fix.stop - fix.start) kept.2
      let applied := applyFrom length fix.stop replaced.2 more
      (kept.1 ++ fix.text.toList ++ applied.1, applied.2)

/-- The fixed text if it is another one, and the messages that remain, sorted by their place. -/
def run (mode : FixMode) (source : String) (messages : List Message) :
    Option String × List Message :=
  if !mode.isRequested then (none, messages)
  else
    let fixes := (messages.filterMap (fixable? mode)).mergeSort inOrder
    let applied := applyFrom (byteLength source.toList) 0 source.toList fixes
    let output := String.ofList applied.1
    let remaining := messages.filter fun m => !mode.allows m
    (if output = source then none else some output, (remaining ++ applied.2).mergeSort earlier)

end ParallelLint.Fixing
