import McpCatalog.Digest.Word
/-!
# SHA-1

The digest of FIPS 180-4 with five words of state and eighty rounds to a block.

Results:
* `sha1_length`: the digest has 20 bytes.
-/
namespace McpCatalog.Digest

namespace Sha1

/-- The five words of the chaining value. -/
structure State where
  a : UInt32
  b : UInt32
  c : UInt32
  d : UInt32
  e : UInt32

def State.initial : State :=
  ⟨0x67452301, 0xEFCDAB89, 0x98BADCFE, 0x10325476, 0xC3D2E1F0⟩

def State.add (s t : State) : State :=
  ⟨s.a + t.a, s.b + t.b, s.c + t.c, s.d + t.d, s.e + t.e⟩

def State.bytes (s : State) : List UInt8 :=
  wordBytes s.a ++ wordBytes s.b ++ wordBytes s.c ++ wordBytes s.d ++ wordBytes s.e

/-- The word after those given, latest first. -/
def next (ws : List UInt32) : UInt32 :=
  rotateLeft (ws.getD 2 0 ^^^ ws.getD 7 0 ^^^ ws.getD 13 0 ^^^ ws.getD 15 0) 1

/-- The function and the constant of round `t`. -/
def mix (t : Nat) (b c d : UInt32) : UInt32 :=
  if t < 20 then ((b &&& c) ||| (~~~b &&& d)) + 0x5A827999
  else if t < 40 then (b ^^^ c ^^^ d) + 0x6ED9EBA1
  else if t < 60 then ((b &&& c) ||| (b &&& d) ||| (c &&& d)) + 0x8F1BBCDC
  else (b ^^^ c ^^^ d) + 0xCA62C1D6

def round (s : State) (word : UInt32 × Nat) : State :=
  let a := rotateLeft s.a 5 + mix word.2 s.b s.c s.d + s.e + word.1
  ⟨a, s.a, rotateLeft s.b 30, s.c, s.d⟩

def compress (s : State) (block : List UInt32) : State :=
  s.add ((schedule next 64 block).zipIdx.foldl round s)

end Sha1

/-- The SHA-1 digest of a message. -/
def sha1 (message : List UInt8) : List UInt8 :=
  (foldBlocks Sha1.compress Sha1.State.initial (pad message)).bytes

theorem sha1_length (message : List UInt8) : (sha1 message).length = 20 := rfl

end McpCatalog.Digest
