import Mathlib.Data.List.Forall2
import Mathlib.Data.List.Perm.Basic
import McpCatalog.Json.Text
import McpCatalog.Proofs.Json.Inside
import McpCatalog.Proofs.Json.Normal
/-!
# Canonical texts

The canonical form of RFC 8785: no space between tokens, in strings no escapes but those that are
needed, and the members of every object in the order of their names, by UTF-16 code units. A value
in which some object has a name twice has no such form.

The canonical text of `Json.canonical` has its members in the order of the names as they are
written, between quotation marks and with escapes. Both orders are the same for names of ASCII
characters behind the quotation mark that need no escape.

Results:
* `CanonicalText.unique`: a value has one canonical form at most.
* `quoted_lt_iff`, `codeUnits_lt_iff`: both orders are that of the names.
* `canonicalText_iff`: the canonical text of a value with such names is its canonical form.
-/
namespace McpCatalog.Json

/-! ## The format -/

/-- The UTF-16 code units of a character: one, or a pair of surrogates. -/
def charUnits (c : Char) : List Nat :=
  if c.toNat < 0x10000 then [c.toNat]
  else [0xD800 + (c.toNat - 0x10000) / 0x400, 0xDC00 + (c.toNat - 0x10000) % 0x400]

/-- The UTF-16 code units of a name. -/
def codeUnits (s : String) : List Nat :=
  s.toList.flatMap charUnits

def hexDigits : List Char :=
  "0123456789abcdef".toList

/-- How a character is written in a string. Control characters are escaped, by a letter if there is
one, and so are quotation marks and backslashes; no other character is. -/
inductive EscapedAs : Char → List Char → Prop
  | quotationMark : EscapedAs '"' ['\\', '"']
  | backslash : EscapedAs '\\' ['\\', '\\']
  | backspace : EscapedAs '\x08' ['\\', 'b']
  | tab : EscapedAs '\t' ['\\', 't']
  | lineFeed : EscapedAs '\n' ['\\', 'n']
  | formFeed : EscapedAs '\x0c' ['\\', 'f']
  | carriageReturn : EscapedAs '\r' ['\\', 'r']
  | control {c high low : Char} (hc : c.toNat < 0x20)
    (hletter : c ∉ ['\x08', '\t', '\n', '\x0c', '\r'])
    (hhigh : hexDigits[c.toNat / 16]? = some high) (hlow : hexDigits[c.toNat % 16]? = some low) :
    EscapedAs c ['\\', 'u', '0', '0', high, low]
  | plain {c : Char} (hc : 0x20 ≤ c.toNat) (hquote : c ≠ '"') (hbackslash : c ≠ '\\') :
    EscapedAs c [c]

/-- The text of a string between quotation marks. -/
def StringText (s : String) (text : List Char) : Prop :=
  ∃ parts, List.Forall₂ EscapedAs s.toList parts ∧ text = '"' :: (parts.flatten ++ ['"'])

mutual

/-- The text is the canonical form of the value. -/
inductive CanonicalText : Json → List Char → Prop
  | null : CanonicalText .null "null".toList
  | bool (b : Bool) : CanonicalText (.bool b) (if b then "true" else "false").toList
  /-- A number that is exact in double precision. -/
  | int {n : Int} (h : n.natAbs ≤ 9007199254740992) :
    CanonicalText (.int n) (Numeral.decimal n).toList
  | str {s : String} {text : List Char} (h : StringText s text) : CanonicalText (.str s) text
  | arr {items : List Json} {texts : List (List Char)} (h : ItemTexts items texts) :
    CanonicalText (.arr items) ('[' :: ([','].intercalate texts ++ [']']))
  | obj {ms sorted : List (String × Json)} {texts : List (List Char)} (hperm : sorted.Perm ms)
    (hsorted : sorted.Pairwise fun a b => codeUnits a.1 < codeUnits b.1)
    (h : MemberTexts sorted texts) :
    CanonicalText (.obj ms) ('\x7b' :: ([','].intercalate texts ++ ['\x7d']))

inductive ItemTexts : List Json → List (List Char) → Prop
  | nil : ItemTexts [] []
  | cons {v : Json} {text : List Char} {items : List Json} {texts : List (List Char)}
    (hv : CanonicalText v text) (hrest : ItemTexts items texts) :
    ItemTexts (v :: items) (text :: texts)

inductive MemberTexts : List (String × Json) → List (List Char) → Prop
  | nil : MemberTexts [] []
  | cons {name : String} {v : Json} {key text : List Char} {ms : List (String × Json)}
    {texts : List (List Char)} (hname : StringText name key) (hv : CanonicalText v text)
    (hrest : MemberTexts ms texts) :
    MemberTexts ((name, v) :: ms) ((key ++ ':' :: text) :: texts)

end

/-! ## Strings -/

theorem hexDigits_getElem? {n : Nat} (hn : n < 16) :
    hexDigits[n]? = some (Numeral.digit n) := by
  have hall : ∀ n < 16, hexDigits[n]? = some (Numeral.digit n) := by decide
  exact hall n hn

theorem controlLetter?_eq_none_iff {c : Char} :
    controlLetter? c = none ↔ c ∉ ['\x08', '\t', '\n', '\x0c', '\r'] := by
  unfold controlLetter?
  split
  case h_6 => simp_all
  all_goals simp

theorem escapedAs_escapeChar (c : Char) : EscapedAs c (escapeChar c) := by
  unfold escapeChar
  split
  · next h => rcases h with rfl | rfl <;> constructor
  · next h =>
    obtain ⟨hquote, hbackslash⟩ := not_or.1 h
    split
    · next hc =>
      split
      · next l hl =>
        unfold controlLetter? at hl
        split at hl <;> cases hl <;> constructor
      · next hl =>
        exact .control hc (controlLetter?_eq_none_iff.1 hl) (hexDigits_getElem? (by omega))
          (hexDigits_getElem? (by omega))
    · next hc => exact .plain (by omega) hquote hbackslash

theorem EscapedAs.eq_escapeChar {c : Char} {text : List Char} (h : EscapedAs c text) :
    text = escapeChar c := by
  cases h with
  | control hc hletter hhigh hlow =>
    have hspecial : ¬ (c = '"' ∨ c = '\\') := by
      rintro (rfl | rfl) <;> exact absurd hc (by decide)
    rw [hexDigits_getElem? (by omega)] at hhigh hlow
    obtain rfl := Option.some.inj hhigh
    obtain rfl := Option.some.inj hlow
    rw [escapeChar, if_neg hspecial, if_pos hc, controlLetter?_eq_none_iff.2 hletter]
  | plain hc hquote hbackslash =>
    rw [escapeChar, if_neg (not_or.2 ⟨hquote, hbackslash⟩), if_neg (by omega)]
  | _ => rfl

/-- A string has one text, the quoted one. -/
theorem stringText_iff {s : String} {text : List Char} :
    StringText s text ↔ text = (quoted s).toList := by
  have hparts {cs : List Char} {parts : List (List Char)} :
      List.Forall₂ EscapedAs cs parts ↔ parts = cs.map escapeChar := by
    constructor
    · intro h
      induction h with
      | nil => rfl
      | cons hc _ ih => rw [hc.eq_escapeChar, ih, List.map_cons]
    · rintro rfl
      rw [List.forall₂_map_right_iff, List.forall₂_same]
      exact fun c _ => escapedAs_escapeChar c
  have hquoted : (quoted s).toList = '"' :: ((s.toList.map escapeChar).flatten ++ ['"']) := by
    rw [quoted, String.toList_ofList, escape, List.flatMap_def]
  simp only [StringText, hparts, exists_eq_left, hquoted]

/-! ## One form for a value -/

theorem ItemTexts.unique {items : List Json}
    (h : ∀ v ∈ items, ∀ t t', CanonicalText v t → CanonicalText v t' → t = t')
    {texts texts' : List (List Char)} (ht : ItemTexts items texts) (ht' : ItemTexts items texts') :
    texts = texts' := by
  induction items generalizing texts texts' with
  | nil =>
    cases ht
    cases ht'
    rfl
  | cons v items ih =>
    cases ht with
    | cons hv hrest =>
      cases ht' with
      | cons hv' hrest' =>
        rw [h v List.mem_cons_self _ _ hv hv',
          ih (fun w hw => h w (List.mem_cons_of_mem _ hw)) hrest hrest']

theorem MemberTexts.unique {ms : List (String × Json)}
    (h : ∀ m ∈ ms, ∀ t t', CanonicalText m.2 t → CanonicalText m.2 t' → t = t')
    {texts texts' : List (List Char)} (ht : MemberTexts ms texts) (ht' : MemberTexts ms texts') :
    texts = texts' := by
  induction ms generalizing texts texts' with
  | nil =>
    cases ht
    cases ht'
    rfl
  | cons m ms ih =>
    cases ht with
    | cons hname hv hrest =>
      cases ht' with
      | cons hname' hv' hrest' =>
        rw [stringText_iff.1 hname, stringText_iff.1 hname', h _ List.mem_cons_self _ _ hv hv',
          ih (fun m' hm' => h m' (List.mem_cons_of_mem _ hm')) hrest hrest']

/-- A value has one canonical form at most. -/
theorem CanonicalText.unique {v : Json} {text text' : List Char} (h : CanonicalText v text)
    (h' : CanonicalText v text') : text = text' := by
  induction v using induct generalizing text text' with
  | null =>
    cases h
    cases h'
    rfl
  | bool b =>
    cases h
    cases h'
    rfl
  | int n =>
    cases h
    cases h'
    rfl
  | str s =>
    cases h with
    | str hs =>
      cases h' with
      | str hs' => rw [stringText_iff.1 hs, stringText_iff.1 hs']
  | arr items ih =>
    cases h with
    | arr hitems =>
      cases h' with
      | arr hitems' => rw [hitems.unique (fun v hv _ _ => ih v hv) hitems']
  | obj ms ih =>
    cases h with
    | @obj _ sorted _ hperm hsorted hms =>
      cases h' with
      | @obj _ sorted' _ hperm' hsorted' hms' =>
        obtain rfl : sorted = sorted' :=
          List.Perm.eq_of_pairwise (fun _ _ _ _ hab hba => absurd hba (List.lt_asymm hab))
            hsorted hsorted' (hperm.trans hperm'.symm)
        rw [hms.unique (fun m hm _ _ => ih m (hperm.subset hm)) hms']

/-! ## Two orders of names -/

/-- The name has ASCII characters only, which come after the quotation mark and need no escape. -/
def PlainName (name : String) : Prop :=
  ∀ c ∈ name.toList, '"' < c ∧ c.toNat < 0x80 ∧ c ≠ '\\'

/-- A mark that comes before all characters does not change the order where it stands at the end. -/
theorem append_lt_append_iff {q : Char} {cs ds : List Char} (hcs : ∀ c ∈ cs, q < c)
    (hds : ∀ d ∈ ds, q < d) : cs ++ [q] < ds ++ [q] ↔ cs < ds := by
  induction cs generalizing ds with
  | nil =>
    cases ds with
    | nil => simp
    | cons d ds => simp [List.cons_lt_cons_iff, hds d List.mem_cons_self]
  | cons c cs ih =>
    have hcs' : ∀ e ∈ cs, q < e := fun e he => hcs e (List.mem_cons_of_mem _ he)
    cases ds with
    | nil =>
      have hc : q < c := hcs c List.mem_cons_self
      have hne : c ≠ q := fun h => Char.lt_irrefl _ (h ▸ hc)
      simp [List.cons_lt_cons_iff, Char.lt_asymm hc, hne]
    | cons d ds =>
      have hds' : ∀ e ∈ ds, q < e := fun e he => hds e (List.mem_cons_of_mem _ he)
      simp only [List.cons_append, List.cons_lt_cons_iff, ih hcs' hds']

theorem PlainName.toList_quoted {a : String} (ha : PlainName a) :
    (quoted a).toList = '"' :: (a.toList ++ ['"']) := by
  have hescape : ∀ c ∈ a.toList, escapeChar c = [c] := by
    intro c hc
    obtain ⟨hquote, -, hbackslash⟩ := ha c hc
    have hcontrol : '"'.toNat < c.toNat := hquote
    have hne : c ≠ '"' := fun h => Char.lt_irrefl _ (h ▸ hquote)
    rw [escapeChar, if_neg (not_or.2 ⟨hne, hbackslash⟩), if_neg]
    have : '"'.toNat = 0x22 := rfl
    omega
  rw [quoted, String.toList_ofList, escape, List.flatMap_congr hescape, List.flatMap_singleton']

/-- Plain names are in the same order with quotation marks around them. -/
theorem quoted_lt_iff {a b : String} (ha : PlainName a) (hb : PlainName b) :
    quoted a < quoted b ↔ a < b := by
  rw [String.lt_iff, String.lt_iff, ha.toList_quoted, hb.toList_quoted, List.cons_lt_cons_iff]
  simp [append_lt_append_iff (fun c hc => (ha c hc).1) (fun c hc => (hb c hc).1)]

/-- Plain names have a code unit for every character. -/
theorem PlainName.codeUnits_eq {a : String} (ha : PlainName a) :
    codeUnits a = a.toList.map Char.toNat := by
  have hunits : ∀ c ∈ a.toList, charUnits c = [c.toNat] := by
    intro c hc
    have hascii := (ha c hc).2.1
    rw [charUnits, if_pos (by omega)]
  rw [codeUnits, List.flatMap_congr hunits, ← List.map_eq_flatMap]

theorem codeUnits_lt_iff {a b : String} (ha : PlainName a) (hb : PlainName b) :
    codeUnits a < codeUnits b ↔ a < b := by
  rw [ha.codeUnits_eq, hb.codeUnits_eq, String.lt_iff]
  generalize a.toList = cs
  generalize b.toList = ds
  induction cs generalizing ds with
  | nil => cases ds <;> simp
  | cons c cs ih =>
    cases ds with
    | nil => simp
    | cons d ds =>
      have hlt : c.toNat < d.toNat ↔ c < d := Iff.rfl
      simp only [List.map_cons, List.cons_lt_cons_iff, ih, hlt, Char.toNat_inj]

/-! ## The canonical text of a value -/

/-- In the value names are plain and in order, and numbers are exact in double precision. -/
structure Regular (v : Json) : Prop where
  ordered : ∀ ms, Inside (.obj ms) v → Entries.Ordered ms
  plain : ∀ ms, Inside (.obj ms) v → ∀ m ∈ ms, PlainName m.1
  exact : ∀ n, Inside (.int n) v → n.natAbs ≤ 9007199254740992

theorem Regular.item {items : List Json} (h : (arr items).Regular) {v : Json} (hv : v ∈ items) :
    v.Regular :=
  ⟨fun ms hms => h.ordered ms (.item hv hms), fun ms hms => h.plain ms (.item hv hms),
    fun n hn => h.exact n (.item hv hn)⟩

theorem Regular.member {ms : List (String × Json)} (h : (obj ms).Regular) {m : String × Json}
    (hm : m ∈ ms) : m.2.Regular :=
  ⟨fun ms hms => h.ordered ms (.member hm hms), fun ms hms => h.plain ms (.member hm hms),
    fun n hn => h.exact n (.member hm hn)⟩

/-- Members that are in order stay as they are. -/
theorem canonicalOrder_eq {ms : List (String × Json)} (hordered : Entries.Ordered ms)
    (hplain : ∀ m ∈ ms, PlainName m.1) : canonicalOrder ms = ms := by
  have hquoted : Entries.Ordered (ms.map fun m => (quoted m.1, m)) := by
    rw [Entries.Ordered, List.pairwise_map]
    exact hordered.imp_of_mem fun ha hb h => (quoted_lt_iff (hplain _ ha) (hplain _ hb)).2 h
  rw [canonicalOrder, Dict.entries_ofList hquoted, List.map_map]
  exact List.map_id _

theorem itemTexts_canonical {items : List Json}
    (h : ∀ v ∈ items, CanonicalText v v.canonical.toList) :
    ItemTexts items (items.map fun v => v.canonical.toList) := by
  induction items with
  | nil => exact .nil
  | cons v items ih =>
    exact .cons (h v List.mem_cons_self) (ih fun w hw => h w (List.mem_cons_of_mem _ hw))

theorem memberTexts_canonical {ms : List (String × Json)}
    (h : ∀ m ∈ ms, CanonicalText m.2 m.2.canonical.toList) :
    MemberTexts ms (ms.map fun m => (quoted m.1).toList ++ ':' :: m.2.canonical.toList) := by
  induction ms with
  | nil => exact .nil
  | cons m ms ih =>
    exact .cons (stringText_iff.2 rfl) (h m List.mem_cons_self)
      (ih fun m' hm' => h m' (List.mem_cons_of_mem _ hm'))

theorem canonicalText_canonical {v : Json} (h : v.Regular) :
    CanonicalText v v.canonical.toList := by
  induction v using induct with
  | null => exact .null
  | bool b => cases b <;> exact .bool _
  | int n => exact .int (h.exact n .refl)
  | str s => exact .str (stringText_iff.2 rfl)
  | arr items ih =>
    rw [toList_canonical_arr]
    exact .arr (itemTexts_canonical fun v hv => ih v hv (h.item hv))
  | obj ms ih =>
    have hordered := h.ordered ms .refl
    have hplain := h.plain ms .refl
    have hsorted : ms.Pairwise fun a b => codeUnits a.1 < codeUnits b.1 :=
      hordered.imp_of_mem fun ha hb h => (codeUnits_lt_iff (hplain _ ha) (hplain _ hb)).2 h
    rw [toList_canonical_obj, canonicalOrder_eq hordered hplain]
    exact .obj (.refl ms) hsorted (memberTexts_canonical fun m hm => ih m hm (h.member hm))

/-- The canonical text of a regular value is its canonical form. -/
theorem canonicalText_iff {v : Json} (h : v.Regular) {text : List Char} :
    CanonicalText v text ↔ text = v.canonical.toList := by
  constructor
  · intro ht
    exact ht.unique (canonicalText_canonical h)
  · rintro rfl
    exact canonicalText_canonical h

end McpCatalog.Json
