import Mathlib.Data.String.Basic
import McpCatalog.Text.Bytes
/-!
# Texts by byte offsets

An offset into a text counts the bytes in front of it. It is a boundary if it does not fall inside
a character; only at boundaries a text can be cut. The end of a text with a given room starts at the
first boundary that leaves no more bytes than that.

Results:
* `byteCount_toList`, `byteCount_append`: lengths in bytes.
* `slice?_append`: what lies between two boundaries.
* `exists_dropBytes`, `boundary?_eq`: the characters from an offset on start at the first boundary
  that is not before it, and a search byte by byte finds this boundary.
* `longestEnd_dropBytes`, `LongestEnd.unique`: the longest end of a text in a number of bytes.
-/
namespace McpCatalog.Text

/-! ## Lengths in bytes -/

theorem byteCount_eq_utf8Len (cs : List Char) : byteCount cs = String.utf8Len cs := by
  induction cs with
  | nil => rfl
  | cons c cs ih => rw [byteCount_cons, String.utf8Len_cons, ih, Nat.add_comm]

theorem utf8ByteSize_ofList (cs : List Char) : (String.ofList cs).utf8ByteSize = byteCount cs := by
  rw [String.utf8ByteSize_ofList, byteCount_eq_utf8Len]

theorem byteCount_toList (s : String) : byteCount s.toList = s.utf8ByteSize := by
  rw [← utf8ByteSize_ofList, String.ofList_toList]

theorem byteCount_append (cs ds : List Char) :
    byteCount (cs ++ ds) = byteCount cs + byteCount ds := by
  simp only [byteCount_eq_utf8Len, String.utf8Len_append]

theorem byteCount_eq_zero_iff {cs : List Char} : byteCount cs = 0 ↔ cs = [] := by
  rw [byteCount_eq_utf8Len, String.utf8Len_eq_zero]

theorem byteCount_of_narrow {cs : List Char} (h : ∀ c ∈ cs, c.utf8Size = 1) :
    byteCount cs = cs.length := by
  induction cs with
  | nil => rfl
  | cons c cs ih =>
    rw [byteCount_cons, h c List.mem_cons_self, ih fun d hd => h d (List.mem_cons_of_mem _ hd),
      List.length_cons, Nat.add_comm]

/-! ## Cutting -/

/-- The text from one offset up to another one; `none` if one of them falls inside a character or
lies behind the text, or if they are in the wrong order. -/
def slice? (s : String) (first last : Nat) : Option String :=
  if (⟨first⟩ : String.Pos.Raw).isValid s && (⟨last⟩ : String.Pos.Raw).isValid s
      && first ≤ last then
    String.fromUTF8? (s.toByteArray.extract first last)
  else none

/-- The first boundary at an offset or behind it, tried byte by byte; `none` behind the text. -/
def boundary? (s : String) (offset : Nat) : Option Nat :=
  if s.utf8ByteSize < offset then none
  else if (⟨offset⟩ : String.Pos.Raw).isValid s then some offset
  else boundary? s (offset + 1)
termination_by s.utf8ByteSize + 1 - offset

theorem isValid_iff {s : String} {n : Nat} : (⟨n⟩ : String.Pos.Raw).isValid s = true ↔
    ∃ front back, s.toList = front ++ back ∧ byteCount front = n := by
  rw [String.Pos.Raw.isValid_eq_true_iff, String.Pos.Raw.isValid_iff_exists_append]
  constructor
  · rintro ⟨front, back, rfl, h⟩
    refine ⟨front.toList, back.toList, String.toList_append, ?_⟩
    rw [byteCount_toList]
    exact (congrArg String.Pos.Raw.byteIdx h).symm
  · rintro ⟨front, back, h, rfl⟩
    refine ⟨String.ofList front, String.ofList back, ?_, ?_⟩
    · rw [← String.ofList_append, ← h, String.ofList_toList]
    · rw [← utf8ByteSize_ofList]
      rfl

theorem slice?_append (s t u : String) :
    slice? (s ++ t ++ u) s.utf8ByteSize (s.utf8ByteSize + t.utf8ByteSize) = some t := by
  have hfirst : (⟨s.utf8ByteSize⟩ : String.Pos.Raw).isValid (s ++ t ++ u) = true :=
    isValid_iff.2 ⟨s.toList, (t ++ u).toList, by simp, byteCount_toList s⟩
  have hlast : (⟨s.utf8ByteSize + t.utf8ByteSize⟩ : String.Pos.Raw).isValid (s ++ t ++ u) = true :=
    isValid_iff.2 ⟨(s ++ t).toList, u.toList, by simp, by
      rw [byteCount_toList, String.utf8ByteSize_append]⟩
  have hbytes : (s ++ t ++ u).toByteArray.extract (s.utf8ByteSize + 0)
      (s.utf8ByteSize + t.utf8ByteSize) = t.toByteArray := by
    rw [String.toByteArray_append, String.toByteArray_append, ByteArray.append_assoc,
      ByteArray.extract_append_size_add' String.size_toByteArray.symm,
      ByteArray.extract_append_eq_left String.size_toByteArray.symm]
  have hle : s.utf8ByteSize ≤ s.utf8ByteSize + t.utf8ByteSize := Nat.le_add_right _ _
  have htext : String.fromUTF8? t.toByteArray = some t := by
    rw [String.fromUTF8?, dif_pos t.isValidUTF8]
    rfl
  rw [Nat.add_zero] at hbytes
  rw [slice?, if_pos (by simp [hfirst, hlast, hle]), hbytes, htext]

/-! ## The characters from an offset on -/

/-- The characters from an offset on start at the first boundary that is not before it. -/
theorem exists_dropBytes {n : Nat} {cs : List Char} (h : n ≤ byteCount cs) :
    ∃ front, cs = front ++ dropBytes n cs ∧ n ≤ byteCount front ∧
      ∀ front' back', cs = front' ++ back' → n ≤ byteCount front' →
        byteCount front ≤ byteCount front' := by
  fun_induction dropBytes n cs with
  | case1 n => exact ⟨[], rfl, h, fun _ _ _ _ => Nat.zero_le _⟩
  | case2 c cs => exact ⟨[], rfl, Nat.le_refl 0, fun _ _ _ _ => Nat.zero_le _⟩
  | case3 n c cs hn ih =>
    rw [byteCount_cons] at h
    obtain ⟨front, hsplit, hle, hfirst⟩ := ih (by omega)
    refine ⟨c :: front, by rw [List.cons_append, ← hsplit], by rw [byteCount_cons]; omega, ?_⟩
    intro front' back' hsplit' hle'
    cases front' with
    | nil => exact absurd (Nat.le_zero.1 hle') hn
    | cons d front' =>
      rw [List.cons_append] at hsplit'
      obtain ⟨rfl, hrest⟩ := List.cons.inj hsplit'
      rw [byteCount_cons] at hle' ⊢
      have hmore := hfirst front' back' hrest (by omega)
      rw [byteCount_cons]
      omega

/-- The search finds a boundary that has none before it from the offset on. -/
theorem boundary?_eq {s : String} {front back : List Char} (hs : s.toList = front ++ back)
    {n : Nat} (hn : n ≤ byteCount front)
    (hfirst : ∀ front' back', s.toList = front' ++ back' → n ≤ byteCount front' →
      byteCount front ≤ byteCount front') : boundary? s n = some (byteCount front) := by
  have hsize : byteCount front ≤ s.utf8ByteSize := by
    rw [← byteCount_toList, hs, byteCount_append]
    exact Nat.le_add_right _ _
  -- the induction is on the distance to the boundary
  induction hd : byteCount front - n generalizing n with
  | zero =>
    obtain rfl : n = byteCount front := by omega
    have hvalid : (⟨byteCount front⟩ : String.Pos.Raw).isValid s = true :=
      isValid_iff.2 ⟨front, back, hs, rfl⟩
    rw [boundary?, if_neg (by omega), if_pos hvalid]
  | succ d ih =>
    have hinside : ¬ (⟨n⟩ : String.Pos.Raw).isValid s = true := by
      intro hvalid
      obtain ⟨front', back', hs', hcount⟩ := isValid_iff.1 hvalid
      have hle := hfirst front' back' hs' (by omega)
      omega
    rw [boundary?, if_neg (by omega), if_neg hinside]
    exact ih (by omega) (fun front' back' hs' hle => hfirst front' back' hs' (by omega)) (by omega)

/-! ## Ends of a text -/

/-- The longest end of the text that starts with a whole character and fits in the room. -/
structure LongestEnd (cs : List Char) (room : Nat) (tail : List Char) : Prop where
  suffix : tail <:+ cs
  fits : byteCount tail ≤ room
  longest : ∀ tail', tail' <:+ cs → byteCount tail' ≤ room → byteCount tail' ≤ byteCount tail

theorem longestEnd_dropBytes {cs : List Char} {room : Nat} (h : room ≤ byteCount cs) :
    LongestEnd cs room (dropBytes (byteCount cs - room) cs) := by
  obtain ⟨front, hsplit, -, hfirst⟩ := exists_dropBytes (Nat.sub_le (byteCount cs) room)
  have htotal : byteCount cs
      = byteCount front + byteCount (dropBytes (byteCount cs - room) cs) := by
    rw [← byteCount_append, ← hsplit]
  refine ⟨⟨front, hsplit.symm⟩, ?_, ?_⟩
  · have hle := byteCount_dropBytes_le (byteCount cs - room) cs
    omega
  · rintro tail' ⟨front', hsplit'⟩ hfits
    have htotal' : byteCount cs = byteCount front' + byteCount tail' := by
      rw [← byteCount_append, hsplit']
    have hle := hfirst front' tail' hsplit'.symm (by omega)
    omega

theorem LongestEnd.unique {cs tail tail' : List Char} {room : Nat} (h : LongestEnd cs room tail)
    (h' : LongestEnd cs room tail') : tail = tail' := by
  have hcount : byteCount tail = byteCount tail' :=
    Nat.le_antisymm (h'.longest tail h.suffix h.fits) (h.longest tail' h'.suffix h'.fits)
  -- of two ends with as many bytes none has a character more
  have hsame : ∀ t t' : List Char, t <:+ t' → byteCount t = byteCount t' → t = t' := by
    rintro t _ ⟨more, rfl⟩ hcount
    rw [byteCount_append] at hcount
    have hmore : byteCount more = 0 := by omega
    rw [byteCount_eq_zero_iff.1 hmore, List.nil_append]
  cases List.suffix_or_suffix_of_suffix h.suffix h'.suffix with
  | inl hsuffix => exact hsame tail tail' hsuffix hcount
  | inr hsuffix => exact (hsame tail' tail hsuffix hcount.symm).symm

end McpCatalog.Text
