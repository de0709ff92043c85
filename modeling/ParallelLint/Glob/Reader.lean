import ParallelLint.Glob.Token

set_option autoImplicit false

namespace ParallelLint.Glob

/-- A group of alternates that is still open: what stands before it, and its finished branches.
Both are in reverse. -/
structure Group where
  before : List Token
  finished : List (List Token)

structure Draft where
  current : List Token
  groups : List Group

namespace Draft

def push (d : Draft) (t : Token) : Draft := { d with current := t :: d.current }

def inGroup (d : Draft) : Bool := !d.groups.isEmpty

def openGroup (d : Draft) : Draft := ⟨[], ⟨d.current, []⟩ :: d.groups⟩

def comma (d : Draft) : Draft :=
  match d.groups with
  | [] => d.push (.literal ',')
  | g :: outer => ⟨[], ⟨g.before, d.current.reverse :: g.finished⟩ :: outer⟩

def closeGroup (d : Draft) : Except Fault Draft :=
  match d.groups with
  | [] => .error .unopenedAlternates
  | g :: outer =>
    .ok ⟨.alternates (d.current.reverse :: g.finished).reverse :: g.before, outer⟩

def twoStars (d : Draft) : Draft := (d.push .zeroOrMore).push .zeroOrMore

def atComponent (d : Draft) (previous : Option Char) : Bool :=
  previous = some '/' || (d.inGroup && (previous = some ',' || previous = some '{'))

def endsBefore (d : Draft) (next : Option Char) : Bool :=
  next = none || (d.inGroup && (next = some ',' || next = some '}'))

/-- Puts `**` in the place of the slash before it; more of them in a row are one. -/
def recursive (d : Draft) (t : Token) : Draft :=
  match d.current with
  | .recursivePrefix :: _ | .recursiveSuffix :: _ => d
  | current => { d with current := t :: current.drop 1 }

def starsSlash (d : Draft) (previous : Option Char) : Draft :=
  if d.current.isEmpty then d.push .recursivePrefix
  else if d.atComponent previous then d.recursive .recursiveMiddle
  else d.twoStars.push (.literal '/')

def stars (d : Draft) (previous next : Option Char) : Draft :=
  if d.current.isEmpty then if next.isNone then d.push .recursivePrefix else d.twoStars
  else if d.atComponent previous && d.endsBefore next then d.recursive .recursiveSuffix
  else d.twoStars

end Draft

/-- A character class that is still open, with its ranges in reverse. A `-` waits for the end of
its range. -/
structure ClassDraft where
  negated : Bool
  ranges : List (Char × Char)
  waiting : Bool

namespace ClassDraft

def add (k : ClassDraft) (c : Char) : Except Fault ClassDraft :=
  match k.waiting, k.ranges with
  | true, (low, _) :: rest =>
    if c < low then .error (.invalidRange low c)
    else .ok { k with ranges := (low, c) :: rest, waiting := false }
  | _, ranges => .ok { k with ranges := (c, c) :: ranges, waiting := false }

def token (k : ClassDraft) : Token :=
  .charClass k.negated (if k.waiting then ('-', '-') :: k.ranges else k.ranges).reverse

end ClassDraft

mutual

def readTokens (d : Draft) (previous : Option Char) : List Char → Except Fault Draft
  | [] => .ok d
  | '?' :: rest => readTokens (d.push .any) (some '?') rest
  | '*' :: '*' :: '/' :: rest => readTokens (d.starsSlash previous) (some '/') rest
  | '*' :: '*' :: rest => readTokens (d.stars previous rest.head?) (some '*') rest
  | '*' :: rest => readTokens (d.push .zeroOrMore) (some '*') rest
  | '[' :: '!' :: rest | '[' :: '^' :: rest => readClass d ⟨true, [], false⟩ rest
  | '[' :: rest => readClass d ⟨false, [], false⟩ rest
  | '{' :: rest => readTokens d.openGroup (some '{') rest
  | '}' :: rest =>
    match d.closeGroup with
    | .ok d => readTokens d (some '}') rest
    | .error e => .error e
  | ',' :: rest => readTokens d.comma (some ',') rest
  | ['\\'] => .error .danglingEscape
  | '\\' :: c :: rest => readTokens (d.push (.literal c)) (some c) rest
  | c :: rest => readTokens (d.push (.literal c)) (some c) rest

/-- Reads on inside a character class. The first `]` or `-` of a class is a plain character. -/
def readClass (d : Draft) (k : ClassDraft) : List Char → Except Fault Draft
  | [] => .error .unclosedClass
  | c :: rest =>
    if c = ']' && !k.ranges.isEmpty then readTokens (d.push k.token) (some ']') rest
    else if c = '-' && !k.ranges.isEmpty && !k.waiting then
      readClass d { k with waiting := true } rest
    else match k.add c with
      | .ok k => readClass d k rest
      | .error e => .error e

end

end Glob

structure Glob where
  pattern : String
  tokens : List Glob.Token
  deriving Repr, Inhabited

def Glob.read (pattern : String) : Except Glob.Fault Glob :=
  match readTokens ⟨[], []⟩ none pattern.toList with
  | .error e => .error e
  | .ok d => if d.inGroup then .error .unclosedAlternates else .ok ⟨pattern, d.current.reverse⟩

end ParallelLint
