set_option autoImplicit false

namespace ParallelLint.Glob

inductive Token where
  | literal (c : Char)
  | any
  | zeroOrMore
  /-- `**` and its slash at the beginning of a branch. -/
  | recursivePrefix
  /-- `**` at the end, with the slash before it. -/
  | recursiveSuffix
  /-- `**` in the middle, with both its slashes. -/
  | recursiveMiddle
  | charClass (negated : Bool) (ranges : List (Char × Char))
  | alternates (branches : List (List Token))
  deriving Repr, Inhabited

inductive Fault where
  | unclosedClass
  | invalidRange (low high : Char)
  | unopenedAlternates
  | unclosedAlternates
  | danglingEscape
  deriving DecidableEq, Repr

def Fault.message : Fault → String
  | .unclosedClass => "unclosed character class; missing ']'"
  | .invalidRange low high => s!"invalid range; '{low}' > '{high}'"
  | .unopenedAlternates =>
    "unopened alternate group; missing '\x7b' (maybe escape '\x7d' with '[\x7d]'?)"
  | .unclosedAlternates =>
    "unclosed alternate group; missing '\x7d' (maybe escape '\x7b' with '[\x7b]'?)"
  | .danglingEscape => "dangling '\\'"

def faultText (pattern : String) (fault : Fault) : String :=
  s!"error parsing glob '{pattern}': {fault.message}"

end ParallelLint.Glob
