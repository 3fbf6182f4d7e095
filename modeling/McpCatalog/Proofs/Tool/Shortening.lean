import McpCatalog.Proofs.Numeral
import McpCatalog.Proofs.Text.Offset
import McpCatalog.Tool.Name
/-!
# Names in a number of bytes

A name that is too long is cut by its bytes: the start of its hash, an underscore, and as much of
its end as there is room for. `cut?` does so with offsets, as far as offsets go: it has no result if
a length would be negative or if a text would be cut inside a character. This never happens, and
what comes out is the shortened name.

Results:
* `hashPart_eq`, `slice?_hash`: the start of the hash.
* `shortens_iff`: what a name is shortened to.
* `Shortens.utf8ByteSize_le`: a shortened name keeps to the limit.
* `shortened_cut`: a name is cut without failure, to the shortened name, and once is enough.
-/
namespace McpCatalog.ToolName

open Text (byteCount dropBytes LongestEnd)

/-! ## The format -/

/-- The first digits of the hash of a name, as many as a name of this length has room for. -/
def hashStart (name : String) (limit : Nat) : List Char :=
  (Hash.sha1Base36 name).take (min (min 6 limit) (Hash.sha1Base36 name).length)

/-- How many bytes are left behind the start of the hash and an underscore. -/
def room (name : String) (limit : Nat) : Nat :=
  ((limit : Int) - (hashStart name limit).length - 1).toNat

/-- The second name is the first one in at most `limit` bytes. -/
inductive Shortens (name : String) (limit : Nat) : String → Prop
  /-- A name within the limit stays as it is. -/
  | whole (h : name.utf8ByteSize ≤ limit) : Shortens name limit name
  /-- Without room for anything behind it, the start of the hash stands alone. -/
  | hash (h : limit < name.utf8ByteSize) (hroom : room name limit = 0) :
    Shortens name limit (String.ofList (hashStart name limit))
  | tail {tail : List Char} (h : limit < name.utf8ByteSize) (hroom : 0 < room name limit)
    (htail : LongestEnd name.toList (room name limit) tail) :
    Shortens name limit (String.ofList (hashStart name limit ++ '_' :: tail))

/-! ## Cutting by offsets -/

/-- The difference of two lengths, unless it would be negative. -/
def less? (n m : Nat) : Option Nat :=
  if m ≤ n then some (n - m) else none

/-- The name in at most `limit` bytes, cut at offsets; `none` if a difference of lengths would be
negative or if a text would be cut inside a character. -/
def cut? (name : String) (limit : Nat) : Option String :=
  if name.utf8ByteSize ≤ limit then some name
  else do
    let digest := String.ofList (Hash.sha1Base36 name)
    let hash ← Text.slice? digest 0 (min (min digest.utf8ByteSize hashDigits) limit)
    let room := limit - (hash.utf8ByteSize + 1)
    if room = 0 then return hash
    else do
      let offset ← less? name.utf8ByteSize room
      let start ← Text.boundary? name offset
      let tail ← Text.slice? name start name.utf8ByteSize
      return hash ++ "_" ++ tail

/-! ## The start of the hash -/

theorem utf8Size_digit : ∀ d < 36, (Numeral.digit d).utf8Size = 1 := by
  decide

theorem utf8Size_of_mem_hash {name : String} {c : Char} (h : c ∈ Hash.sha1Base36 name) :
    c.utf8Size = 1 := by
  obtain ⟨d, hd, rfl⟩ := Numeral.exists_digit_of_mem (by decide) h
  exact utf8Size_digit d hd

theorem hashPart_eq (name : String) (limit : Nat) : hashPart name limit = hashStart name limit := by
  rw [hashPart, hashStart, ← List.take_eq_take_min]
  rfl

theorem byteCount_hashPart (name : String) (limit : Nat) :
    byteCount (hashPart name limit) = (hashPart name limit).length :=
  Text.byteCount_of_narrow fun _ hc => utf8Size_of_mem_hash (List.mem_of_mem_take hc)

theorem room_eq (name : String) (limit : Nat) :
    room name limit = limit - ((hashPart name limit).length + 1) := by
  rw [room, ← hashPart_eq]
  omega

/-- The hash is cut in front of a digit. -/
theorem slice?_hash (name : String) (limit : Nat) :
    Text.slice? (String.ofList (Hash.sha1Base36 name)) 0
      (min (min (String.ofList (Hash.sha1Base36 name)).utf8ByteSize hashDigits) limit)
      = some (String.ofList (hashPart name limit)) := by
  generalize hcs : Hash.sha1Base36 name = cs
  have hnarrow : ∀ c ∈ cs, c.utf8Size = 1 := fun c hc => utf8Size_of_mem_hash (hcs ▸ hc)
  have hpart : hashPart name limit = cs.take (min hashDigits limit) := by rw [hashPart, hcs]
  have hcount :
      byteCount (cs.take (min hashDigits limit)) = min (min cs.length hashDigits) limit := by
    rw [Text.byteCount_of_narrow fun c hc => hnarrow c (List.mem_of_mem_take hc), List.length_take]
    omega
  have hslice := Text.slice?_append "" (String.ofList (cs.take (min hashDigits limit)))
    (String.ofList (cs.drop (min hashDigits limit)))
  have hwhole : "" ++ String.ofList (cs.take (min hashDigits limit))
      ++ String.ofList (cs.drop (min hashDigits limit)) = String.ofList cs := by
    rw [String.empty_append, ← String.ofList_append, List.take_append_drop]
  have hempty : "".utf8ByteSize = 0 := rfl
  rw [hwhole, hempty, Nat.zero_add, Text.utf8ByteSize_ofList, hcount] at hslice
  rw [hpart, Text.utf8ByteSize_ofList, Text.byteCount_of_narrow hnarrow]
  exact hslice

/-! ## Long names -/

section
variable {name : String} {limit : Nat}

theorem shortened_of_room_eq_zero (h : limit < name.utf8ByteSize) (hroom : room name limit = 0) :
    shortened name limit = String.ofList (hashPart name limit) := by
  rw [room_eq] at hroom
  rw [shortened, if_neg (by omega)]
  dsimp only
  rw [if_pos hroom]

theorem shortened_of_room_pos (h : limit < name.utf8ByteSize) (hroom : 0 < room name limit) :
    shortened name limit = String.ofList (hashPart name limit
      ++ '_' :: dropBytes (name.utf8ByteSize - room name limit) name.toList) := by
  rw [room_eq] at hroom ⊢
  rw [shortened, if_neg (by omega)]
  dsimp only
  rw [if_neg (by omega)]

/-- There is more of the name than there is room for. -/
theorem room_le (h : limit < name.utf8ByteSize) : room name limit ≤ byteCount name.toList := by
  rw [room_eq, Text.byteCount_toList]
  omega

theorem longestEnd_shortened (h : limit < name.utf8ByteSize) :
    LongestEnd name.toList (room name limit)
      (dropBytes (name.utf8ByteSize - room name limit) name.toList) := by
  have hend := Text.longestEnd_dropBytes (room_le h)
  rwa [Text.byteCount_toList] at hend

/-- The search for the start of the tail ends at a boundary, and the name is cut there. -/
theorem slice?_tail (h : limit < name.utf8ByteSize) :
    ∃ start, Text.boundary? name (name.utf8ByteSize - room name limit) = some start ∧
      Text.slice? name start name.utf8ByteSize
        = some (String.ofList (dropBytes (name.utf8ByteSize - room name limit) name.toList)) := by
  generalize hn : name.utf8ByteSize - room name limit = n
  have hle : n ≤ byteCount name.toList := by
    rw [Text.byteCount_toList]
    omega
  obtain ⟨front, hsplit, hfront, hfirst⟩ := Text.exists_dropBytes hle
  refine ⟨byteCount front, Text.boundary?_eq hsplit hfront hfirst, ?_⟩
  have hslice := Text.slice?_append (String.ofList front)
    (String.ofList (dropBytes n name.toList)) ""
  have hwhole : String.ofList front ++ String.ofList (dropBytes n name.toList) ++ "" = name := by
    rw [String.append_empty, ← String.ofList_append, ← hsplit, String.ofList_toList]
  have hsize : name.utf8ByteSize = byteCount front + byteCount (dropBytes n name.toList) := by
    rw [← Text.byteCount_append, ← hsplit, Text.byteCount_toList]
  rw [hwhole, Text.utf8ByteSize_ofList, Text.utf8ByteSize_ofList, ← hsize] at hslice
  exact hslice

end

/-! ## Shortened names -/

/-- A name is cut without failure. -/
theorem cut?_eq (name : String) (limit : Nat) : cut? name limit = some (shortened name limit) := by
  by_cases h : name.utf8ByteSize ≤ limit
  · rw [cut?, if_pos h, shortened_of_le h]
  · have hlong : limit < name.utf8ByteSize := by omega
    have hroom : limit - ((String.ofList (hashPart name limit)).utf8ByteSize + 1)
        = room name limit := by
      rw [room_eq, Text.utf8ByteSize_ofList, byteCount_hashPart]
    rw [cut?, if_neg h]
    dsimp only
    rw [slice?_hash, Option.bind_eq_bind, Option.bind_some, hroom]
    by_cases hzero : room name limit = 0
    · rw [if_pos hzero, shortened_of_room_eq_zero hlong hzero]
      rfl
    · have hle := room_le hlong
      rw [Text.byteCount_toList] at hle
      have hless : less? name.utf8ByteSize (room name limit)
          = some (name.utf8ByteSize - room name limit) := if_pos hle
      obtain ⟨start, hstart, htail⟩ := slice?_tail hlong
      have htext (cs ds : List Char) :
          String.ofList (cs ++ '_' :: ds) = String.ofList cs ++ "_" ++ String.ofList ds := by
        rw [← String.toList_inj]
        simp
      rw [if_neg hzero, hless, Option.bind_eq_bind, Option.bind_some, hstart, Option.bind_some,
        htail, Option.bind_some, shortened_of_room_pos hlong (Nat.pos_of_ne_zero hzero), htext]
      rfl

theorem shortens_shortened (name : String) (limit : Nat) :
    Shortens name limit (shortened name limit) := by
  by_cases h : name.utf8ByteSize ≤ limit
  · rw [shortened_of_le h]
    exact .whole h
  · have hlong : limit < name.utf8ByteSize := by omega
    by_cases hzero : room name limit = 0
    · rw [shortened_of_room_eq_zero hlong hzero, hashPart_eq]
      exact .hash hlong hzero
    · have hpos : 0 < room name limit := Nat.pos_of_ne_zero hzero
      rw [shortened_of_room_pos hlong hpos, hashPart_eq]
      exact .tail hlong hpos (longestEnd_shortened hlong)

theorem Shortens.unique {name s s' : String} {limit : Nat} (h : Shortens name limit s)
    (h' : Shortens name limit s') : s = s' := by
  cases h with
  | whole h =>
    cases h' with
    | whole _ => rfl
    | hash h' _ => omega
    | tail h' _ _ => omega
  | hash h hroom =>
    cases h' with
    | whole h' => omega
    | hash _ _ => rfl
    | tail _ hroom' _ => omega
  | tail h hroom htail =>
    cases h' with
    | whole h' => omega
    | hash _ hroom' => omega
    | tail _ _ htail' => rw [htail.unique htail']

theorem shortens_iff {name s : String} {limit : Nat} :
    Shortens name limit s ↔ s = shortened name limit := by
  constructor
  · intro h
    exact h.unique (shortens_shortened name limit)
  · rintro rfl
    exact shortens_shortened name limit

/-- What a name is shortened to keeps to the limit. -/
theorem Shortens.utf8ByteSize_le {name s : String} {limit : Nat} (h : Shortens name limit s) :
    s.utf8ByteSize ≤ limit := by
  have hhash : byteCount (hashStart name limit) = (hashStart name limit).length := by
    rw [← hashPart_eq, byteCount_hashPart]
  cases h with
  | whole h => exact h
  | hash h hroom =>
    rw [Text.utf8ByteSize_ofList, hhash, hashStart, List.length_take]
    omega
  | tail h hroom htail =>
    have hfits := htail.fits
    have hunderscore : '_'.utf8Size = 1 := rfl
    rw [Text.utf8ByteSize_ofList, Text.byteCount_append, Text.byteCount_cons, hhash, hunderscore]
    unfold room at hfits hroom
    omega

/-- **Shortened names.** Whatever the name and the limit are, the name is cut without a negative
length and between characters, and what comes out is the name itself if it keeps to the limit, or
the start of its hash, or this with an underscore and the longest end that there is room for. So it
keeps to the limit, and is not shortened again. -/
theorem shortened_cut (name : String) (limit : Nat) :
    cut? name limit = some (shortened name limit) ∧
    (∀ s, Shortens name limit s ↔ s = shortened name limit) ∧
    (shortened name limit).utf8ByteSize ≤ limit ∧
    shortened (shortened name limit) limit = shortened name limit := by
  have hle := (shortens_shortened name limit).utf8ByteSize_le
  exact ⟨cut?_eq name limit, fun _ => shortens_iff, hle, shortened_of_le hle⟩

end McpCatalog.ToolName
