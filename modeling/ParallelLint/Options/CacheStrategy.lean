import ParallelLint.Json.Decode
import ParallelLint.Text.Blank

set_option autoImplicit false

namespace ParallelLint

inductive CacheStrategy where
  /-- The size and the modification time. -/
  | metadata
  /-- The size and a digest of the bytes. -/
  | content
  deriving DecidableEq, Repr, Inhabited

namespace CacheStrategy

def text : CacheStrategy → String
  | .metadata => "metadata"
  | .content => "content"

def parse (text : String) : Option CacheStrategy :=
  [("metadata", metadata), ("content", content)].lookup (Text.lowerAscii (Text.trim text))

def refusal (text : String) : String :=
  s!"invalid cache strategy \"{text}\": expected \"metadata\" or \"content\""

def read : Json.Decoder CacheStrategy :=
  Json.readChoice [("metadata", metadata), ("content", content)]

end CacheStrategy
end ParallelLint
