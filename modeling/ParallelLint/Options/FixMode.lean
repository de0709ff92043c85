import ParallelLint.Message

set_option autoImplicit false

namespace ParallelLint

inductive FixMode where
  | off
  | all
  | only (wanted : Message → Bool)
  deriving Inhabited

namespace FixMode

def isRequested : FixMode → Bool
  | .off => false
  | _ => true

/-- Only a message that has a fix can be fixed. -/
def allows (mode : FixMode) (m : Message) : Bool :=
  match mode with
  | .off => false
  | .all => m.fix.isSome
  | .only wanted => m.fix.isSome && wanted m

def text : FixMode → String
  | .off => "Off"
  | .all => "All"
  | .only _ => "Only(<filter>)"

end FixMode
end ParallelLint
