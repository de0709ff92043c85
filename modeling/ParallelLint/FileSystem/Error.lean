set_option autoImplicit false

namespace ParallelLint

inductive FailureKind where
  | notFound | permissionDenied | alreadyExists | invalidInput | invalidData | unexpectedEnd
  | interrupted | readOnlyFilesystem | other
  deriving DecidableEq, Repr

def FailureKind.text : FailureKind → String
  | .notFound => "entity not found"
  | .permissionDenied => "permission denied"
  | .alreadyExists => "entity already exists"
  | .invalidInput => "invalid input parameter"
  | .invalidData => "invalid data"
  | .unexpectedEnd => "unexpected end of file"
  | .interrupted => "operation interrupted"
  | .readOnlyFilesystem => "read-only filesystem or storage medium"
  | .other => "other error"

inductive FileError where
  | system (code : Nat)
  | plain (kind : FailureKind)
  | described (kind : FailureKind) (text : String)
  deriving DecidableEq, Repr

namespace FileError

def notFound : FileError := .system 2
def alreadyExists : FileError := .system 17
def notADirectory : FileError := .system 20
def isADirectory : FileError := .system 21
def invalidArgument : FileError := .system 22
def busy : FileError := .system 16
def nameTooLong : FileError := .system 36
def tooManyLinks : FileError := .system 40
def zeroInName : FileError :=
  .described .invalidInput "file name contained an unexpected NUL byte"

def systemText : Nat → String
  | 1 => "Operation not permitted"
  | 2 => "No such file or directory"
  | 4 => "Interrupted system call"
  | 5 => "Input/output error"
  | 9 => "Bad file descriptor"
  | 11 => "Resource temporarily unavailable"
  | 12 => "Cannot allocate memory"
  | 13 => "Permission denied"
  | 16 => "Device or resource busy"
  | 17 => "File exists"
  | 18 => "Invalid cross-device link"
  | 20 => "Not a directory"
  | 21 => "Is a directory"
  | 22 => "Invalid argument"
  | 23 => "Too many open files in system"
  | 24 => "Too many open files"
  | 26 => "Text file busy"
  | 27 => "File too large"
  | 28 => "No space left on device"
  | 30 => "Read-only file system"
  | 31 => "Too many links"
  | 36 => "File name too long"
  | 39 => "Directory not empty"
  | 40 => "Too many levels of symbolic links"
  | code => s!"Unknown error {code}"

def message : FileError → String
  | .system code => s!"{systemText code} (os error {code})"
  | .plain kind => kind.text
  | .described _ text => text

/-- Other numbers are not told apart. -/
def kind : FileError → FailureKind
  | .system code =>
    if code = 2 then .notFound
    else if code = 1 || code = 13 then .permissionDenied
    else if code = 30 then .readOnlyFilesystem
    else .other
  | .plain kind => kind
  | .described kind _ => kind

end FileError
end ParallelLint
