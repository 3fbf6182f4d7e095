/-!
# Texts as bytes

The UTF-8 bytes of a text, the text of some bytes, and the part of a text that is
left after a number of bytes, moved on to the next character where it falls inside
one.

Results:
* `ofBytes?_toBytes`: the bytes of a text read back as the text.
* `byteCount_dropBytes_le`: what is left has at least that many bytes less.
-/
namespace McpCatalog

/-- A sequence of bytes. -/
abbrev Bytes := List UInt8

namespace Text

/-- The UTF-8 encoding of a text. -/
def toBytes (s : String) : Bytes :=
  s.toUTF8.data.toList

/-- The text that the bytes encode; `none` if they are no UTF-8. -/
def ofBytes? (bytes : Bytes) : Option String :=
  String.fromUTF8? ⟨bytes.toArray⟩

/-- The number of bytes of the characters in UTF-8. -/
def byteCount (cs : List Char) : Nat :=
  cs.foldr (fun c n => c.utf8Size + n) 0

/-- The characters that start at or after byte `n`. -/
def dropBytes : Nat → List Char → List Char
  | _, [] => []
  | n, c :: cs => if n = 0 then c :: cs else dropBytes (n - c.utf8Size) cs

theorem ofBytes?_toBytes (s : String) : ofBytes? (toBytes s) = some s := by
  have h : ofBytes? (toBytes s) = String.fromUTF8? s.toByteArray := rfl
  rw [h, String.fromUTF8?, dif_pos s.isValidUTF8]
  rfl

@[simp] theorem byteCount_nil : byteCount [] = 0 := rfl

@[simp] theorem byteCount_cons (c : Char) (cs : List Char) :
    byteCount (c :: cs) = c.utf8Size + byteCount cs := rfl

theorem byteCount_dropBytes_le (n : Nat) (cs : List Char) :
    byteCount (dropBytes n cs) ≤ byteCount cs - n := by
  fun_induction dropBytes n cs with
  | case1 => simp
  | case2 => simp
  | case3 n c cs h ih => simp only [byteCount_cons]; omega

end Text
end McpCatalog
