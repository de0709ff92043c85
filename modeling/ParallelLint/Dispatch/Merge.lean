import ParallelLint.Collection.Sorted
import ParallelLint.Dispatch.Processing

set_option autoImplicit false

namespace ParallelLint

structure Merged where
  index : Nat
  report : FileReport
  signature : Option Signature
  deriving DecidableEq, Repr, Inhabited

def Outcome.merged? (o : Outcome) : Option Merged :=
  o.report.map fun report => ⟨o.index, report, o.signature⟩

/-- The reports there are, by the numbers of their tasks; numbers without a task are dropped. -/
def mergeOutcomes (outcomes : List Outcome) (taskCount : Nat) : List Merged :=
  let known := (outcomes.filterMap Outcome.merged?).filter fun m => m.index < taskCount
  (Sorted.ofList (known.map fun m => (m.index, m))).entries.map Prod.snd

def mergeReports (outcomes : List Outcome) (taskCount : Nat) : List FileReport :=
  (mergeOutcomes outcomes taskCount).map Merged.report

end ParallelLint
