import ParallelLint.Glob.Reader
import ParallelLint.Path
import ParallelLint.Text.Utf8

set_option autoImplicit false

/-!
Matching globs against the bytes of a path. Every end of the path has a mark that says whether the
tokens so far can match all that precedes it; a token moves the marks, and a glob matches if the
empty end is marked at last.
-/
namespace ParallelLint.Glob
open ParallelLint.Text

abbrev Marks := List Bool

def through (p : UInt8 → Bool) (path : Bytes) (marks : Marks) : Marks :=
  false :: List.zipWith (fun b mark => mark && p b) path marks

def onward : Marks → Marks
  | [] => []
  | true :: rest => true :: rest.map fun _ => true
  | false :: rest => false :: onward rest

def either (marks others : Marks) : Marks := List.zipWith (· || ·) marks others

def nowhere (path : Bytes) : Marks := false :: path.map fun _ => false

def start (path : Bytes) : Marks := true :: path.map fun _ => false

def throughSlash : Bytes → Marks → Marks := through (· = 0x2F)

def throughText (text path : Bytes) (marks : Marks) : Marks :=
  text.foldl (fun marks b => through (· = b) path marks) marks

/-- A class lists bytes: the bytes of the low end but its last, those from there up to the first
byte of the high end, and the other bytes of the high end. -/
def inRange (b : UInt8) (range : Char × Char) : Bool :=
  let low := String.utf8EncodeChar range.1
  let high := String.utf8EncodeChar range.2
  if range.1 = range.2 then low.contains b
  else low.dropLast.contains b || high.tail.contains b ||
    (low.getLastD 0 ≤ b && b ≤ high.headD 0)

def inClass (negated : Bool) (ranges : List (Char × Char)) (b : UInt8) : Bool :=
  ranges.any (inRange b) != negated

mutual

/-- A group of alternates without any pattern in it. -/
def Token.isSilent : Token → Bool
  | .alternates branches => allSilent branches
  | _ => false

def isSilent : List Token → Bool
  | [] => true
  | t :: rest => t.isSilent && isSilent rest

def allSilent : List (List Token) → Bool
  | [] => true
  | branch :: rest => isSilent branch && allSilent rest

end

mutual

def Token.move (path : Bytes) (marks : Marks) : Token → Marks
  | .literal c => throughText (String.utf8EncodeChar c) path marks
  | .any => through (fun _ => true) path marks
  | .zeroOrMore => onward marks
  | .recursivePrefix => either marks (throughSlash path (onward marks))
  | .recursiveSuffix => onward (throughSlash path marks)
  | .recursiveMiddle =>
    let after := throughSlash path marks
    either after (throughSlash path (onward after))
  | .charClass negated ranges => through (inClass negated ranges) path marks
  | .alternates branches => if allSilent branches then marks else moveAny path marks branches

def moveAll (path : Bytes) (marks : Marks) : List Token → Marks
  | [] => marks
  | t :: rest => moveAll path (t.move path marks) rest

def moveAny (path : Bytes) (marks : Marks) : List (List Token) → Marks
  | [] => nowhere path
  | branch :: rest =>
    if isSilent branch then moveAny path marks rest
    else either (moveAll path marks branch) (moveAny path marks rest)

end

def fits (g : Glob) (path : Path) : Bool :=
  match g.tokens with
  | [.recursivePrefix] => true
  | tokens =>
    let bytes := bytesOf path.text
    (moveAll bytes (start bytes) tokens).getLastD false

def Token.isLiteral : Token → Bool
  | .literal _ => true
  | _ => false

/-- Literal text, with `**/` or `*` or both before it. -/
def isTail : List Token → Bool
  | .recursivePrefix :: .zeroOrMore :: rest | .zeroOrMore :: rest => rest.all Token.isLiteral
  | .recursivePrefix :: rest => rest.all Token.isLiteral
  | rest => rest.all Token.isLiteral

def endsInDot (tokens : List Token) : Bool :=
  match tokens.getLast? with
  | some (.literal '.') => true
  | _ => false

/-- Whether a glob that fits a path ending in `..` asks for the name or the extension of the
file. Such a path has neither. -/
def asksForName : List Token → Bool
  | [.recursivePrefix, .literal '.', .literal '.'] | [.zeroOrMore, .literal '.']
  | [.recursivePrefix, .zeroOrMore, .literal '.'] => true
  | tokens => endsInDot tokens && !isTail tokens

def anyFits (globs : List Glob) (path : Path) : Bool :=
  let nameless := path.segments.getLast? = some ".."
  globs.any fun g => g.fits path && !(nameless && asksForName g.tokens)

end ParallelLint.Glob
