import MatrixPlan.Number.Natural
/-!
# Blake3 — a 256-bit digest of bytes

The input is cut into chunks of 1024 bytes and these into blocks of 64.  The blocks of a chunk are compressed one after
another; the chunks are the leaves of a binary tree in which each left subtree is the largest full one.  The digest is
the last compression, marked as the root.
-/
namespace MatrixPlan
namespace Blake3

abbrev Chain := Vector UInt32 8

abbrev Block := Vector UInt32 16

def initial : Chain :=
  #v[0x6A09E667, 0xBB67AE85, 0x3C6EF372, 0xA54FF53A, 0x510E527F, 0x9B05688C, 0x1F83D9AB, 0x5BE0CD19]

/-- How the words of a block are rearranged between rounds. -/
def permutation : Vector (Fin 16) 16 := #v[2, 6, 3, 10, 7, 0, 4, 13, 1, 11, 12, 5, 9, 14, 15, 8]

def rotateRight (x n : UInt32) : UInt32 := (x >>> n) ||| (x <<< (32 - n))

def mix (v : Block) (a b c d : Fin 16) (x y : UInt32) : Block :=
  let va := v[a] + v[b] + x
  let vd := rotateRight (v[d] ^^^ va) 16
  let vc := v[c] + vd
  let vb := rotateRight (v[b] ^^^ vc) 12
  let va := va + vb + y
  let vd := rotateRight (vd ^^^ va) 8
  let vc := vc + vd
  let vb := rotateRight (vb ^^^ vc) 7
  (((v.set a va).set b vb).set c vc).set d vd

/-- Mixes the columns of the state, then its diagonals. -/
def round (v m : Block) : Block :=
  let v := mix v 0 4 8 12 m[0] m[1]
  let v := mix v 1 5 9 13 m[2] m[3]
  let v := mix v 2 6 10 14 m[4] m[5]
  let v := mix v 3 7 11 15 m[6] m[7]
  let v := mix v 0 5 10 15 m[8] m[9]
  let v := mix v 1 6 11 12 m[10] m[11]
  let v := mix v 2 7 8 13 m[12] m[13]
  mix v 3 4 9 14 m[14] m[15]

def rearrange (m : Block) : Block := permutation.map fun i => m[i]

def rounds : Nat → Block → Block → Block
  | 0, v, _ => v
  | n + 1, v, m => rounds n (round v m) (rearrange m)

/-- A compression that has not been carried out. -/
structure Output where
  chain : Chain
  block : Block
  counter : UInt64
  length : UInt32
  flags : UInt32

def chunkStart : UInt32 := 1

def chunkEnd : UInt32 := 2

def parentFlag : UInt32 := 4

def rootFlag : UInt32 := 8

def Output.compress (o : Output) : Chain :=
  let start : Block := o.chain ++ #v[initial[0], initial[1], initial[2], initial[3],
    o.counter.toUInt32, (o.counter >>> 32).toUInt32, o.length, o.flags]
  let v := rounds 7 start o.block
  Vector.ofFn fun i : Fin 8 => v[i.val] ^^^ v[i.val + 8]

def wordOf (bytes : List UInt8) (i : Nat) : UInt32 :=
  let byte (k : Nat) : UInt32 := (bytes.getD (4 * i + k) 0).toUInt32
  byte 0 ||| (byte 1 <<< 8) ||| (byte 2 <<< 16) ||| (byte 3 <<< 24)

/-- A block of at most 64 bytes, filled up with zeros. -/
def blockOf (bytes : List UInt8) : Block := Vector.ofFn fun i : Fin 16 => wordOf bytes i

/-- The blocks of a chunk from one on, after the chaining value of those before. -/
def chunkFrom (chain : Chain) (counter : UInt64) (flags : UInt32) (bytes : List UInt8) : Output :=
  if _h : bytes.length ≤ 64 then
    ⟨chain, blockOf bytes, counter, UInt32.ofNat bytes.length, flags ||| chunkEnd⟩
  else
    let o : Output := ⟨chain, blockOf (bytes.take 64), counter, 64, flags⟩
    chunkFrom o.compress counter 0 (bytes.drop 64)
termination_by bytes.length
decreasing_by simp only [List.length_drop]; omega

def parent (left right : Chain) : Output := ⟨initial, left ++ right, 0, 64, parentFlag⟩

/-- The bytes of the left subtree: a power of two of whole chunks, fewer than all. -/
def leftLength (length : Nat) : Nat := 2 ^ ((length - 1) / 1024).log2 * 1024

theorem leftLength_bounds {length : Nat} (h : 1024 < length) :
    0 < leftLength length ∧ leftLength length < length := by
  have hpos : (length - 1) / 1024 ≠ 0 := by omega
  have := Nat.log2_self_le hpos
  have := Nat.two_pow_pos ((length - 1) / 1024).log2
  unfold leftLength
  omega

/-- The subtree of some bytes, `counter` chunks after the first. -/
def subtree (counter : Nat) (bytes : List UInt8) : Output :=
  if h : bytes.length ≤ 1024 then chunkFrom initial (UInt64.ofNat counter) chunkStart bytes
  else
    have := leftLength_bounds (Nat.lt_of_not_le h)
    let cut := leftLength bytes.length
    parent (subtree counter (bytes.take cut)).compress
      (subtree (counter + cut / 1024) (bytes.drop cut)).compress
termination_by bytes.length
decreasing_by
  all_goals simp only [List.length_take, List.length_drop]; omega

def digest (bytes : List UInt8) : Chain :=
  let o := subtree 0 bytes
  { o with flags := o.flags ||| rootFlag }.compress

def bytesOf (w : UInt32) : List UInt8 := [w.toUInt8, (w >>> 8).toUInt8, (w >>> 16).toUInt8, (w >>> 24).toUInt8]

end Blake3
end MatrixPlan
