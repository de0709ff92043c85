import ParallelLint.Text.Hex

set_option autoImplicit false

/-!
The BLAKE3 hash of a byte string. Chunks of 1024 bytes are the leaves of a binary tree whose left
subtrees are complete and as large as possible; every node is a compression that is either
shortened to a chaining value for its parent or, at the root, read out as the digest.
-/
namespace ParallelLint.Blake3
open ParallelLint.Text

abbrev Words (n : Nat) := Vector UInt32 n

def iv : Words 8 :=
  #v[0x6A09E667, 0xBB67AE85, 0x3C6EF372, 0xA54FF53A, 0x510E527F, 0x9B05688C, 0x1F83D9AB, 0x5BE0CD19]

def chunkStart : UInt32 := 1
def chunkEnd : UInt32 := 2
def parentNode : UInt32 := 4
def rootNode : UInt32 := 8

def rotateRight (x n : UInt32) : UInt32 := (x >>> n) ||| (x <<< (32 - n))

def mix (v : Words 16) (a b c d : Fin 16) (x y : UInt32) : Words 16 :=
  let v := v.set a (v[a] + v[b] + x)
  let v := v.set d (rotateRight (v[d] ^^^ v[a]) 16)
  let v := v.set c (v[c] + v[d])
  let v := v.set b (rotateRight (v[b] ^^^ v[c]) 12)
  let v := v.set a (v[a] + v[b] + y)
  let v := v.set d (rotateRight (v[d] ^^^ v[a]) 8)
  let v := v.set c (v[c] + v[d])
  v.set b (rotateRight (v[b] ^^^ v[c]) 7)

def round (v m : Words 16) : Words 16 :=
  let v := mix v 0 4 8 12 m[0] m[1]
  let v := mix v 1 5 9 13 m[2] m[3]
  let v := mix v 2 6 10 14 m[4] m[5]
  let v := mix v 3 7 11 15 m[6] m[7]
  let v := mix v 0 5 10 15 m[8] m[9]
  let v := mix v 1 6 11 12 m[10] m[11]
  let v := mix v 2 7 8 13 m[12] m[13]
  mix v 3 4 9 14 m[14] m[15]

def permute (m : Words 16) : Words 16 :=
  #v[m[2], m[6], m[3], m[10], m[7], m[0], m[4], m[13],
    m[1], m[11], m[12], m[5], m[9], m[14], m[15], m[8]]

def rounds : Nat → Words 16 → Words 16 → Words 16
  | 0, v, _ => v
  | n + 1, v, m => rounds n (round v m) (permute m)

/-- The input of one compression. -/
structure Node where
  chaining : Words 8
  block : Words 16
  counter : UInt64
  blockLength : Nat
  flags : UInt32

def Node.compress (n : Node) (flags : UInt32) : Words 16 :=
  let h := n.chaining
  let v : Words 16 :=
    #v[h[0], h[1], h[2], h[3], h[4], h[5], h[6], h[7], iv[0], iv[1], iv[2], iv[3],
      n.counter.toUInt32, (n.counter >>> 32).toUInt32, n.blockLength.toUInt32, n.flags ||| flags]
  rounds 7 v n.block

def Node.chainingValue (n : Node) : Words 8 :=
  let v := n.compress 0
  Vector.ofFn fun i : Fin 8 => v[i.val] ^^^ v[i.val + 8]

def wordBytes (w : UInt32) : Bytes :=
  [w.toUInt8, (w >>> 8).toUInt8, (w >>> 16).toUInt8, (w >>> 24).toUInt8]

def Node.digest (n : Node) : Bytes :=
  let v := n.compress rootNode
  (Vector.ofFn fun i : Fin 8 => v[i.val] ^^^ v[i.val + 8]).toList.flatMap wordBytes

def wordOf : Bytes → UInt32
  | [] => 0
  | b :: rest => b.toUInt32 ||| (wordOf rest <<< 8)

def blockWords (bytes : Bytes) : Words 16 :=
  let padded := bytes.toArray
  Vector.ofFn fun i : Fin 16 =>
    wordOf ((List.range 4).map fun j => padded[4 * i.val + j]?.getD 0)

/-- The last block of a chunk, all blocks before it being compressed into the chaining value. -/
def chunkNode (counter : UInt64) (chaining : Words 8) (start : UInt32) (bytes : Bytes) : Node :=
  if _h : bytes.length ≤ 64 then
    ⟨chaining, blockWords bytes, counter, bytes.length, start ||| chunkEnd⟩
  else
    let block : Node := ⟨chaining, blockWords (bytes.take 64), counter, 64, start⟩
    chunkNode counter block.chainingValue 0 (bytes.drop 64)
termination_by bytes.length
decreasing_by simp; omega

def parent (left right : Node) : Node :=
  ⟨iv, left.chainingValue ++ right.chainingValue, 0, 64, parentNode⟩

/-- The greatest power of two of chunks that leaves something to the right. -/
def leftLength (length : Nat) : Nat := 1024 <<< Nat.log2 ((length - 1) / 1024)

theorem leftLength_pos (length : Nat) : 0 < leftLength length := by
  rw [leftLength, Nat.shiftLeft_eq]
  exact Nat.mul_pos (Nat.zero_lt_succ 1023) (Nat.two_pow_pos _)

theorem leftLength_lt {length : Nat} (h : 1024 < length) : leftLength length < length := by
  have positive : (length - 1) / 1024 ≠ 0 := by omega
  have power := Nat.log2_self_le positive
  rw [leftLength, Nat.shiftLeft_eq]
  omega

def tree (counter : UInt64) (bytes : Bytes) : Node :=
  if _small : bytes.length ≤ 1024 then chunkNode counter iv chunkStart bytes
  else
    let n := leftLength bytes.length
    parent (tree counter (bytes.take n)) (tree (counter + (n / 1024).toUInt64) (bytes.drop n))
termination_by bytes.length
decreasing_by
  · have := leftLength_lt (Nat.lt_of_not_le _small)
    simp only [List.length_take]
    omega
  · have := leftLength_pos bytes.length
    simp only [List.length_drop]
    omega

def hash (bytes : Bytes) : Bytes := (tree 0 bytes).digest

def hashHex (bytes : Bytes) : String := hex (hash bytes)

end ParallelLint.Blake3
