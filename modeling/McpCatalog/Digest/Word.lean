/-!
# Message blocks of 32-bit words

What the two digests of this library share: the padded message as 32-bit words in
blocks of sixteen, and words written back as bytes, most significant byte first.
-/
namespace McpCatalog.Digest

def rotateLeft (x : UInt32) (n : UInt32) : UInt32 :=
  (x <<< n) ||| (x >>> (32 - n))

def rotateRight (x : UInt32) (n : UInt32) : UInt32 :=
  (x >>> n) ||| (x <<< (32 - n))

def wordBytes (w : UInt32) : List UInt8 :=
  [(w >>> 24).toUInt8, (w >>> 16).toUInt8, (w >>> 8).toUInt8, w.toUInt8]

/-- The message, one bit, zeros up to eight bytes short of a multiple of 64 bytes,
and the number of bits of the message in those eight bytes. -/
def pad (message : List UInt8) : List UInt8 :=
  let zeros : List UInt8 := List.replicate ((119 - message.length % 64) % 64) 0
  let bits := UInt64.ofNat (8 * message.length)
  message ++ (0x80 : UInt8) :: (zeros ++ wordBytes (bits >>> 32).toUInt32 ++ wordBytes bits.toUInt32)

/-- The bytes four at a time; what is left of an incomplete word is dropped. -/
def words : List UInt8 → List UInt32
  | a :: b :: c :: d :: rest =>
    (a.toUInt32 <<< 24 ||| b.toUInt32 <<< 16 ||| c.toUInt32 <<< 8 ||| d.toUInt32) :: words rest
  | _ => []

/-- Folds over the blocks of 64 bytes, each as sixteen words. -/
def foldBlocks {σ : Type} (step : σ → List UInt32 → σ) (state : σ) (bytes : List UInt8) : σ :=
  let block := bytes.take 64
  if block.length = 64 then foldBlocks step (step state (words block)) (bytes.drop 64) else state
termination_by bytes.length
decreasing_by simp only [block, List.length_take] at *; simp only [List.length_drop]; omega

/-- Puts `n` more words in front of words in reverse order, each computed from
those before it. -/
def extend (next : List UInt32 → UInt32) : Nat → List UInt32 → List UInt32
  | 0, ws => ws
  | n + 1, ws => extend next n (next ws :: ws)

/-- The message schedule of a block: the block and `n` more words. -/
def schedule (next : List UInt32 → UInt32) (n : Nat) (block : List UInt32) : List UInt32 :=
  (extend next n block.reverse).reverse

end McpCatalog.Digest
