import ParallelLint.Digest.Blake3
import ParallelLint.Error
import ParallelLint.FileSystem.Change

set_option autoImplicit false

namespace ParallelLint.Cache

def namesDirectory (fs : FileSystem) (location directory : Path) : Bool :=
  location.text.toList.getLast? = some '/' || fs.isDirectory (directory.join location)

/-- The name in a shared directory: a digest of the working directory in sixteen digits. -/
def sharedName (directory : Path) : Path :=
  let digits := (Blake3.hashHex (Text.bytesOf directory.text)).toList.take 16
  ⟨".lintpoolcache_" ++ String.ofList digits⟩

def locate (fs : FileSystem) (location directory : Path) : Path :=
  if namesDirectory fs location directory then
    (directory.join location).join (sharedName directory)
  else directory.join location

/-- Whether a cache file that was not deleted is none. -/
def isGone (fs : FileSystem) (path : Path) (e : FileError) : Bool :=
  e.kind = .notFound || e.kind = .readOnlyFilesystem && !fs.isFile path

def delete (fs : FileSystem) (path : Path) : Except LintError Bool × FileSystem :=
  match fs.remove path with
  | .ok fs => (.ok true, fs)
  | .error e => if isGone fs path e then (.ok false, fs) else (.error (.ofFile path e), fs)

end ParallelLint.Cache
