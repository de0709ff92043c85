import ParallelLint.Options.Basic

set_option autoImplicit false

namespace ParallelLint.CommandLine

inductive Format where
  | text | json
  deriving DecidableEq, Repr, Inhabited

inductive Switch where
  | cache | fix | fixDryRun | noWarnIgnored | noIgnore | noErrorOnUnmatchedPattern
  | help | longHelp | version
  deriving DecidableEq, Repr

inductive Setting where
  | concurrency | cacheLocation | cacheStrategy | ignorePattern | extension | config | format
  deriving DecidableEq, Repr

def switches : List (String × Switch) :=
  [("cache", .cache), ("fix", .fix), ("fix-dry-run", .fixDryRun),
    ("no-warn-ignored", .noWarnIgnored), ("no-ignore", .noIgnore),
    ("no-error-on-unmatched-pattern", .noErrorOnUnmatchedPattern), ("help", .longHelp),
    ("version", .version)]

def settings : List (String × Setting) :=
  [("concurrency", .concurrency), ("cache-location", .cacheLocation),
    ("cache-strategy", .cacheStrategy), ("ignore-pattern", .ignorePattern), ("ext", .extension),
    ("config", .config), ("format", .format)]

structure Arguments where
  patterns : List String
  switches : List Switch
  concurrency : Option Concurrency
  cacheLocation : Option Path
  cacheStrategy : Option CacheStrategy
  ignorePatterns : List String
  extensions : Option (List String)
  config : Option Path
  format : Option Format
  deriving Inhabited

def Arguments.none : Arguments :=
  ⟨[], [], Option.none, Option.none, Option.none, [], Option.none, Option.none, Option.none⟩

inductive Stop where
  | help
  | longHelp
  | version
  | refused (argument : String)
  deriving DecidableEq, Repr

inductive Word where
  | switch (s : Switch)
  | setting (s : Setting)
  | given (s : Setting) (value : String)
  | pattern (text : String)
  | unknown

def longWord (body : List Char) : Word :=
  let name := String.ofList (body.takeWhile (· ≠ '='))
  match body.dropWhile (· ≠ '=') with
  | [] =>
    match switches.lookup name, settings.lookup name with
    | some s, _ => .switch s
    | _, some s => .setting s
    | _, _ => .unknown
  | _ :: value =>
    match settings.lookup name with
    | some s => .given s (String.ofList value)
    | none => .unknown

def shortSetting (s : Setting) : List Char → Word
  | [] => .setting s
  | '=' :: value | value => .given s (String.ofList value)

def word (argument : String) : Word :=
  match argument.toList with
  | '-' :: '-' :: body => longWord body
  | '-' :: 'h' :: _ => .switch .help
  | '-' :: 'V' :: _ => .switch .version
  | '-' :: 'c' :: rest => shortSetting .config rest
  | '-' :: 'f' :: rest => shortSetting .format rest
  | '-' :: _ :: _ => .unknown
  | _ => .pattern argument

/-- An argument that looks like an option is no value, except for a lone dash. -/
def isValue (argument : String) : Bool :=
  match argument.toList with
  | '-' :: _ :: _ => false
  | _ => true

def splitCommas (text : String) : List String :=
  (text.toList.splitOn ',').map String.ofList

namespace Arguments

def turnOn (a : Arguments) (s : Switch) : Option Arguments :=
  if a.switches.contains s then Option.none else some { a with switches := s :: a.switches }

def path? (value : String) : Option Path := if value = "" then Option.none else some ⟨value⟩

def format? : String → Option Format
  | "text" => some .text
  | "json" => some .json
  | _ => Option.none

/-- Ignore patterns and extensions add up; any other setting may be given once. -/
def put (a : Arguments) (s : Setting) (value : String) : Option Arguments :=
  match s with
  | .concurrency =>
    if a.concurrency.isSome then Option.none
    else (Concurrency.parse value).map fun c => { a with concurrency := some c }
  | .cacheLocation =>
    if a.cacheLocation.isSome then Option.none
    else (path? value).map fun p => { a with cacheLocation := some p }
  | .cacheStrategy =>
    if a.cacheStrategy.isSome then Option.none
    else (CacheStrategy.parse value).map fun c => { a with cacheStrategy := some c }
  | .ignorePattern => some { a with ignorePatterns := a.ignorePatterns ++ [value] }
  | .extension =>
    some { a with extensions := some (a.extensions.getD [] ++ splitCommas value) }
  | .config =>
    if a.config.isSome then Option.none
    else (path? value).map fun p => { a with config := some p }
  | .format =>
    if a.format.isSome then Option.none
    else (format? value).map fun f => { a with format := some f }

def has (a : Arguments) (s : Switch) : Bool := a.switches.contains s

end Arguments

def orRefuse (argument : String) : Option Arguments → Except Stop Arguments
  | some a => .ok a
  | none => .error (.refused argument)

/-- A switch that asks for help or the version ends the reading at once. -/
def readSwitch (a : Arguments) (argument : String) : Switch → Except Stop Arguments
  | .help => .error .help
  | .longHelp => .error .longHelp
  | .version => .error .version
  | s => orRefuse argument (a.turnOn s)

def readFrom (a : Arguments) : List String → Except Stop Arguments
  | [] => .ok a
  | [argument] =>
    if argument = "--" then .ok a
    else match word argument with
      | .pattern text => .ok { a with patterns := a.patterns ++ [text] }
      | .switch s => readSwitch a argument s
      | .given s value => orRefuse argument (a.put s value)
      | .setting _ | .unknown => .error (.refused argument)
  | argument :: next :: rest =>
    if argument = "--" then .ok { a with patterns := a.patterns ++ next :: rest }
    else match word argument with
      | .pattern text => readFrom { a with patterns := a.patterns ++ [text] } (next :: rest)
      | .switch s =>
        match readSwitch a argument s with
        | .ok a => readFrom a (next :: rest)
        | .error stop => .error stop
      | .given s value =>
        match a.put s value with
        | some a => readFrom a (next :: rest)
        | none => .error (.refused argument)
      | .setting s =>
        if isValue next then
          match a.put s next with
          | some a => readFrom a rest
          | none => .error (.refused next)
        else .error (.refused argument)
      | .unknown => .error (.refused argument)

/-- Fixing for good and fixing on trial exclude each other. -/
def Arguments.read (arguments : List String) : Except Stop Arguments :=
  match readFrom .none arguments with
  | .ok a => if a.has .fix && a.has .fixDryRun then .error (.refused "--fix-dry-run") else .ok a
  | .error stop => .error stop

def Arguments.options (a : Arguments) (directory : Path) : Options where
  directory
  concurrency := a.concurrency.getD .off
  cache := a.has .cache
  cacheLocation := a.cacheLocation.getD defaultCacheFile
  cacheStrategy := a.cacheStrategy.getD .metadata
  fix := if a.has .fix || a.has .fixDryRun then .all else .off
  warnIgnored := !a.has .noWarnIgnored
  ignorePatterns := if a.has .noIgnore then [] else a.ignorePatterns
  extensions := a.extensions.getD defaultExtensions
  errorOnUnmatchedPattern := !a.has .noErrorOnUnmatchedPattern

def Arguments.patternsOrHere (a : Arguments) : List String :=
  if a.patterns.isEmpty then ["."] else a.patterns

end ParallelLint.CommandLine
