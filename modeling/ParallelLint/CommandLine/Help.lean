import ParallelLint.CommandLine.Report

set_option autoImplicit false

namespace ParallelLint.CommandLine

structure HelpEntry where
  usage : String
  summary : String
  standard : String
  choices : String

namespace HelpEntry

def remarks (e : HelpEntry) : List String :=
  (if e.standard = "" then [] else ["[default: " ++ e.standard ++ "]"]) ++
    if e.choices = "" then [] else ["[possible values: " ++ e.choices ++ "]"]

def indented (text : String) : String := "          " ++ text

def shortLines (e : HelpEntry) : List String :=
  [e.usage, indented (String.intercalate " " (e.summary :: e.remarks))]

def longLines (e : HelpEntry) : List String :=
  let paragraphs := if e.remarks.isEmpty then [] else "" :: e.remarks
  e.usage :: (e.summary :: paragraphs).map indented ++ [""]

end HelpEntry

def about : List String := ["Lint text files in parallel"]

def longAbout : List String :=
  ["lintpool checks files against line-oriented rules, spreading the work over a pool of workers.",
    "",
    "Rules are configured per directory with \x60.lintpool.toml\x60 files; " ++
      "the nearest one applies."]

def usageLines : List String := ["", "Usage: lintpool [OPTIONS] [PATHS]...", "", "Arguments:"]

def patternSummary : String := "Files, directories or glob patterns to lint"

def optionEntries : List HelpEntry :=
  [⟨"      --concurrency <CONCURRENCY>", "Worker count: \"off\", \"auto\", or a number", "off", ""⟩,
    ⟨"      --cache", "Only lint files that changed since the last run", "", ""⟩,
    ⟨"      --cache-location <CACHE_LOCATION>", "Cache file or directory",
      defaultCacheFile.text, ""⟩,
    ⟨"      --cache-strategy <CACHE_STRATEGY>", "How the cache detects changed files",
      "metadata", ""⟩,
    ⟨"      --fix", "Fix problems automatically and write the files", "", ""⟩,
    ⟨"      --fix-dry-run", "Fix problems without writing the files", "", ""⟩,
    ⟨"      --no-warn-ignored", "Don't warn about explicitly named files that are ignored", "", ""⟩,
    ⟨"      --ignore-pattern <GLOB>", "Additional ignore glob, relative to the working directory",
      "", ""⟩,
    ⟨"      --no-ignore", "Disable ignore patterns", "", ""⟩,
    ⟨"      --ext <EXTENSIONS>", "File extensions to lint when walking directories",
      String.intercalate " " defaultExtensions, ""⟩,
    ⟨"  -c, --config <CONFIG>",
      "Base configuration file, overridden by \x60.lintpool.toml\x60 files", "", ""⟩,
    ⟨"      --no-error-on-unmatched-pattern", "Succeed even when a pattern matches no files",
      "", ""⟩,
    ⟨"  -f, --format <FORMAT>", "Output format", "text", "text, json"⟩]

def versionEntry : HelpEntry := ⟨"  -V, --version", "Print version", "", ""⟩

def shortHelp : String :=
  let help : HelpEntry := ⟨"  -h, --help", "Print help (see more with '--help')", "", ""⟩
  let entries := optionEntries ++ [help, versionEntry]
  lines <| about ++ usageLines ++ ["  [PATHS]...  " ++ patternSummary ++ " [default: .]"] ++
    ["", "Options:"] ++ entries.flatMap HelpEntry.shortLines

def longHelp : String :=
  let patterns : HelpEntry := ⟨"  [PATHS]...", patternSummary, ".", ""⟩
  let help : HelpEntry := ⟨"  -h, --help", "Print help (see a summary with '-h')", "", ""⟩
  let entries := optionEntries ++ [help, versionEntry]
  lines <| longAbout ++ usageLines ++ patterns.longLines ++
    "Options:" :: (entries.flatMap HelpEntry.longLines).dropLast

def versionText : String := "lintpool 0.1.0\n"

end ParallelLint.CommandLine
