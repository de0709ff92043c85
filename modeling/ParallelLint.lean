import ParallelLint.Dispatch.Lifecycle
import ParallelLint.Main
import ParallelLint.Proofs.Analyzer.Bounds
import ParallelLint.Proofs.Analyzer.Fixes
import ParallelLint.Proofs.Analyzer.Lines
import ParallelLint.Proofs.Analyzer.Ranges
import ParallelLint.Proofs.Analyzer.Remaining
import ParallelLint.Proofs.Analyzer.Selected
import ParallelLint.Proofs.Analyzer.Settling
import ParallelLint.Proofs.Cache.Changes
import ParallelLint.Proofs.Cache.Entries
import ParallelLint.Proofs.Cache.Paths
import ParallelLint.Proofs.Cache.Reading
import ParallelLint.Proofs.Cache.Replaying
import ParallelLint.Proofs.Cache.RoundTrip
import ParallelLint.Proofs.Cache.Saving
import ParallelLint.Proofs.Cache.Staying
import ParallelLint.Proofs.Collection.Lookup
import ParallelLint.Proofs.Collection.Sorted
import ParallelLint.Proofs.CommandLine.Agreement
import ParallelLint.Proofs.CommandLine.Counting
import ParallelLint.Proofs.CommandLine.Outcome
import ParallelLint.Proofs.CommandLine.Reading
import ParallelLint.Proofs.CommandLine.Trial
import ParallelLint.Proofs.Config.Canonical
import ParallelLint.Proofs.Config.Enclosing
import ParallelLint.Proofs.Config.Fingerprints
import ParallelLint.Proofs.Config.Memory
import ParallelLint.Proofs.Config.Overlay
import ParallelLint.Proofs.Config.Resolving
import ParallelLint.Proofs.Config.Searching
import ParallelLint.Proofs.Config.Spelling
import ParallelLint.Proofs.Dispatch.Account
import ParallelLint.Proofs.Dispatch.Again
import ParallelLint.Proofs.Dispatch.Alone
import ParallelLint.Proofs.Dispatch.Answers
import ParallelLint.Proofs.Dispatch.Clean
import ParallelLint.Proofs.Dispatch.Closing
import ParallelLint.Proofs.Dispatch.Ending
import ParallelLint.Proofs.Dispatch.Failing
import ParallelLint.Proofs.Dispatch.Fixing
import ParallelLint.Proofs.Dispatch.Histories
import ParallelLint.Proofs.Dispatch.Location
import ParallelLint.Proofs.Dispatch.Merge
import ParallelLint.Proofs.Dispatch.Merging
import ParallelLint.Proofs.Dispatch.Racing
import ParallelLint.Proofs.Dispatch.Renewal
import ParallelLint.Proofs.Dispatch.Repeating
import ParallelLint.Proofs.Dispatch.Rerun
import ParallelLint.Proofs.Dispatch.Settled
import ParallelLint.Proofs.Dispatch.Steady
import ParallelLint.Proofs.Dispatch.Stored
import ParallelLint.Proofs.Dispatch.Transparency
import ParallelLint.Proofs.Dispatch.Unreadable
import ParallelLint.Proofs.FileSystem.Contents
import ParallelLint.Proofs.FileSystem.Landing
import ParallelLint.Proofs.FileSystem.Paths
import ParallelLint.Proofs.FileSystem.Replacing
import ParallelLint.Proofs.FileSystem.Straight
import ParallelLint.Proofs.FileSystem.Top
import ParallelLint.Proofs.FileSystem.Walks
import ParallelLint.Proofs.FileSystem.Writes
import ParallelLint.Proofs.Glob.Dotted
import ParallelLint.Proofs.Glob.Reading
import ParallelLint.Proofs.Json.Compact
import ParallelLint.Proofs.Json.Numbers
import ParallelLint.Proofs.Json.Records
import ParallelLint.Proofs.Json.Strings
import ParallelLint.Proofs.Json.Tree
import ParallelLint.Proofs.Json.Unique
import ParallelLint.Proofs.Json.Values
import ParallelLint.Proofs.Path.Parents
import ParallelLint.Proofs.Path.Spelling
import ParallelLint.Proofs.Pool.Claims
import ParallelLint.Proofs.Pool.Cursor
import ParallelLint.Proofs.Pool.Failures
import ParallelLint.Proofs.Pool.Keeping
import ParallelLint.Proofs.Pool.Ledger
import ParallelLint.Proofs.Pool.Lifecycle
import ParallelLint.Proofs.Pool.Lockstep
import ParallelLint.Proofs.Pool.Moves
import ParallelLint.Proofs.Pool.Numbers
import ParallelLint.Proofs.Pool.Schedule
import ParallelLint.Proofs.Pool.Turns
import ParallelLint.Proofs.Task.Dotted
import ParallelLint.Proofs.Task.Expansion
import ParallelLint.Proofs.Task.Naming
import ParallelLint.Proofs.Text.Utf8
