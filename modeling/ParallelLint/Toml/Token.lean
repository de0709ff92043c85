import ParallelLint.Text.Hex

set_option autoImplicit false

namespace ParallelLint.Toml
open ParallelLint.Text

inductive Token where
  | word (chars : List Char)
  | string (text : List Char)
  /-- A string in triple quotes, which cannot be a key. -/
  | longString (text : List Char)
  | dot | equals | comma
  | openBracket | closeBracket
  | openBrace | closeBrace
  /-- Blanks within a line, with whether they are just one space. -/
  | blank (isSpace : Bool)
  | newline
  deriving DecidableEq, Repr

def isLineBlank (c : Char) : Bool := c = ' ' || c = '\t'

def isPlain (c : Char) : Bool := c = '\t' || (' ' ≤ c && c ≠ '\x7f')

def isWordChar (c : Char) : Bool := c.isAlphanum || c = '_' || c = '-' || c = '+' || c = ':'

def simpleEscape : Char → Option Char
  | 'b' => some '\x08'
  | 't' => some '\t'
  | 'n' => some '\n'
  | 'f' => some '\x0c'
  | 'r' => some '\r'
  | 'e' => some '\x1b'
  | '"' => some '"'
  | '\\' => some '\\'
  | _ => none

def namedChar (digits : List Char) : Option Char :=
  (hexNumber? digits).bind fun n => if Nat.isValidChar n then some (Char.ofNat n) else none

def readBasic : List Char → Option (List Char × List Char)
  | [] => none
  | '"' :: rest => some ([], rest)
  | '\\' :: 'x' :: a :: b :: rest => (namedChar [a, b]).bind fun c => add c (readBasic rest)
  | '\\' :: 'u' :: a :: b :: c :: d :: rest =>
    (namedChar [a, b, c, d]).bind fun c => add c (readBasic rest)
  | '\\' :: 'U' :: a :: b :: c :: d :: e :: f :: g :: h :: rest =>
    (namedChar [a, b, c, d, e, f, g, h]).bind fun c => add c (readBasic rest)
  | '\\' :: e :: rest => (simpleEscape e).bind fun c => add c (readBasic rest)
  | c :: rest => if isPlain c then add c (readBasic rest) else none
where
  add (c : Char) (s : Option (List Char × List Char)) : Option (List Char × List Char) :=
    s.map fun s => (c :: s.1, s.2)

def readLiteral : List Char → Option (List Char × List Char)
  | [] => none
  | '\'' :: rest => some ([], rest)
  | c :: rest =>
    if isPlain c then (readLiteral rest).map fun s => (c :: s.1, s.2) else none

def startsLine : List Char → Bool
  | '\n' :: _ | '\r' :: '\n' :: _ => true
  | _ => false

/-- The quotes that close a long string: up to two more of them belong to the text. -/
def closeLong (quote : Char) : List Char → Option (List Char × List Char)
  | a :: b :: c :: d :: e :: rest =>
    if a = quote && b = quote && c = quote then
      if d = quote && e = quote then some ([quote, quote], rest)
      else if d = quote then some ([quote], e :: rest)
      else some ([], d :: e :: rest)
    else none
  | [a, b, c, d] =>
    if a = quote && b = quote && c = quote then
      if d = quote then some ([quote], []) else some ([], [d])
    else none
  | [a, b, c] => if a = quote && b = quote && c = quote then some ([], []) else none
  | _ => none

def isLongPlain (c : Char) (rest : List Char) : Bool :=
  isPlain c || c = '\n' || (c = '\r' && rest.head? = some '\n')

/-- A long string with escapes. A backslash at the end of a line drops all blanks and line ends
that follow, which is what `dropping` says. -/
def readLongBasic (dropping : Bool) : List Char → Option (List Char × List Char)
  | [] => none
  | c :: rest =>
    if dropping && (isLineBlank c || startsLine (c :: rest)) then readLongBasic true rest
    else match closeLong '"' (c :: rest) with
    | some closed => some closed
    | none =>
      match c, rest with
      | '\\', 'x' :: a :: b :: rest =>
        (namedChar [a, b]).bind fun c => add c (readLongBasic false rest)
      | '\\', 'u' :: a :: b :: c :: d :: rest =>
        (namedChar [a, b, c, d]).bind fun c => add c (readLongBasic false rest)
      | '\\', 'U' :: a :: b :: c :: d :: e :: f :: g :: h :: rest =>
        (namedChar [a, b, c, d, e, f, g, h]).bind fun c => add c (readLongBasic false rest)
      | '\\', e :: rest =>
        if startsLine ((e :: rest).dropWhile isLineBlank) then readLongBasic true (e :: rest)
        else (simpleEscape e).bind fun c => add c (readLongBasic false rest)
      | c, rest => if isLongPlain c rest then add c (readLongBasic false rest) else none
where
  add (c : Char) (s : Option (List Char × List Char)) : Option (List Char × List Char) :=
    s.map fun s => (c :: s.1, s.2)

def readLongLiteral : List Char → Option (List Char × List Char)
  | [] => none
  | c :: rest =>
    match closeLong '\'' (c :: rest) with
    | some closed => some closed
    | none =>
      if isLongPlain c rest then (readLongLiteral rest).map fun s => (c :: s.1, s.2) else none

def dropFirstLineEnd : List Char → List Char
  | '\n' :: rest | '\r' :: '\n' :: rest => rest
  | rest => rest

def punctuation? : Char → Option Token
  | '.' => some .dot
  | '=' => some .equals
  | ',' => some .comma
  | '[' => some .openBracket
  | ']' => some .closeBracket
  | '{' => some .openBrace
  | '}' => some .closeBrace
  | _ => none

/-- A comment ends before the line end. -/
def dropComment (chars : List Char) : Option (List Char) :=
  let rest := chars.dropWhile isPlain
  if rest.isEmpty || startsLine rest then some rest else none

def scanOne : List Char → Option (Token × List Char)
  | '"' :: '"' :: '"' :: rest =>
    (readLongBasic false (dropFirstLineEnd rest)).map fun s => (.longString s.1, s.2)
  | '"' :: rest => (readBasic rest).map fun s => (.string s.1, s.2)
  | '\'' :: '\'' :: '\'' :: rest =>
    (readLongLiteral (dropFirstLineEnd rest)).map fun s => (.longString s.1, s.2)
  | '\'' :: rest => (readLiteral rest).map fun s => (.string s.1, s.2)
  | '\n' :: rest | '\r' :: '\n' :: rest => some (.newline, rest)
  | c :: rest =>
    if isLineBlank c then
      let after := rest.dropWhile isLineBlank
      some (.blank (c = ' ' && after.length = rest.length), after)
    else if isWordChar c then
      some (.word (c :: rest.takeWhile isWordChar), rest.dropWhile isWordChar)
    else (punctuation? c).map fun t => (t, rest)
  | [] => none

def scan : Nat → List Char → Option (List Token)
  | _, [] => some []
  | 0, _ => none
  | fuel + 1, '#' :: rest => (dropComment rest).bind (scan fuel)
  | fuel + 1, chars =>
    match scanOne chars with
    | some (t, rest) => (scan fuel rest).map (t :: ·)
    | none => none

/-- A byte order mark in front is skipped. Every token takes a character or more. -/
def tokens? (text : String) : Option (List Token) :=
  match text.toList with
  | '\ufeff' :: rest => scan rest.length rest
  | chars => scan chars.length chars

end ParallelLint.Toml
