import ParallelLint.Analyzer.TextRules
import ParallelLint.CommandLine.Arguments
import ParallelLint.CommandLine.Help

set_option autoImplicit false

namespace ParallelLint.CommandLine

structure Screen where
  code : Nat
  stdout : String
  notes : List String
  closing : Option (String × String)
  causes : List String
  deriving Repr, Inhabited

namespace Screen

def failure (causes : List String) : Screen := ⟨2, "", [], none, causes⟩

def plain (text : String) : Screen := ⟨0, text, [], none, []⟩

end Screen

def causesOf : LintError → List String
  | .io path cause => [(LintError.io path cause).message, cause.message]
  | e => [e.message]

def baseConfig (fs : FileSystem) : Option Path → Except (List String) Config
  | none => .ok TextRules.defaultConfig
  | some path =>
    match fs.readText path with
    | .error e => .error [s!"Cannot read config {path.text}", e.message]
    | .ok text =>
      match Config.load path text with
      | .error e => .error (causesOf e)
      | .ok own => .ok (TextRules.defaultConfig.mergedWith own)

def dispatcher (options : Options) (parallelism : Nat) (schedule : List Nat) :
    Dispatcher Nearest :=
  ⟨options, textRules, .nearest, parallelism, schedule⟩

def screen (a : Arguments) (directory : Path) (report : RunReport) : Screen :=
  let code := if report.errors = 0 then 0 else 1
  match a.format.getD .text with
  | .text =>
    ⟨code, textReport directory report, (deprecatedUses report).map deprecationNote,
      some (linted report), []⟩
  | .json => ⟨code, jsonReport report, [], none, []⟩

def applyFixes (a : Arguments) (fs : FileSystem) (report : RunReport) :
    Except LintError Unit × FileSystem :=
  if a.has .fix then
    match writeFixes fs 0 report.results with
    | (.ok _, fs) => (.ok (), fs)
    | (.error e, fs) => (.error e, fs)
  else (.ok (), fs)

def lint (a : Arguments) (options : Options) (base : Config) (parallelism : Nat)
    (schedule : List Nat) (fs : FileSystem) : Screen × FileSystem :=
  let directory := options.directory
  let world := World.mk fs (Nearest.fresh base (some directory))
  match (dispatcher options parallelism schedule).lintPatterns a.patternsOrHere world with
  | (.error e, world) => (.failure ("Lint failed" :: causesOf e), world.files)
  | (.ok report, world) =>
    match applyFixes a world.files report with
    | (.error e, fs) => (.failure ("Failed to write fixes" :: causesOf e), fs)
    | (.ok (), fs) => (screen a directory report, fs)

def runWith (a : Arguments) (parallelism : Nat) (schedule : List Nat) (fs : FileSystem) :
    Screen × FileSystem :=
  match baseConfig fs a.config with
  | .error causes => (.failure causes, fs)
  | .ok base =>
    match (a.options fs.currentDirectory).check with
    | .error fault => (.failure ["Invalid options", fault.message], fs)
    | .ok options => lint a options base parallelism schedule fs

/-- Arguments that are refused end the program without any of the causes of a failure. -/
def run (arguments : List String) (parallelism : Nat) (schedule : List Nat) (fs : FileSystem) :
    Screen × FileSystem :=
  match Arguments.read arguments with
  | .ok a => runWith a parallelism schedule fs
  | .error .help => (.plain shortHelp, fs)
  | .error .longHelp => (.plain longHelp, fs)
  | .error .version => (.plain versionText, fs)
  | .error (.refused argument) =>
    (⟨2, "", [s!"error: unexpected or invalid argument '{argument}'"], none, []⟩, fs)

end ParallelLint.CommandLine
