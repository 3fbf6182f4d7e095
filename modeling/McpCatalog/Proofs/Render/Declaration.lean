import McpCatalog.Proofs.Numeral
import McpCatalog.Proofs.Render.Identifier
import McpCatalog.Render.RustModule
/-!
# Reading the declarations of a Rust module

The code of a declaration is read line by line, and every line has to be as expected; what is read
is what the code declares, with the texts of its literals as they stand.

Results:
* `lines?_unlines`: the lines of a text that was put together from lines.
* `printable_literal`: a literal stays on its line, whatever its text is.
* `upTo?_map`, `slice?_map`: what is read from the lines of a list.
* `field?_fieldChars`, `method?_methodChars`: what is read from the line of a field or a method.
-/
namespace McpCatalog.Render

open Identifier (isNameChar)

/-! ## Lines -/

abbrev Line := List Char

/-- The text of some lines, each of them ended. -/
def unlines (ls : List Line) : List Char :=
  ls.flatMap fun l => l ++ ['\n']

/-- The lines of a text; nothing if the last one is not ended. -/
def lines? (cs : List Char) : Option (List Line) :=
  if (cs.splitOn '\n').getLast? = some [] then some (cs.splitOn '\n').dropLast else none

/-- What stands on a line between two texts. -/
def between? (before after : String) (l : Line) : Option Line := do
  let rest ← l.dropPrefix? before.toList
  rest.dropSuffix? after.toList

/-- The name that stands on a line between two texts. -/
def name? (before after : String) (l : Line) : Option String := do
  let name ← between? before after l
  if name.all isNameChar then some (String.ofList name) else none

/-- Reads each line up to a closing one; gives the lines behind as well. -/
def upTo? {α : Type} (closing : String) (read? : Line → Option α) :
    List Line → Option (List α × List Line)
  | [] => none
  | l :: rest =>
    if l = closing.toList then some ([], rest)
    else do
      let a ← read? l
      let (as, rest) ← upTo? closing read? rest
      return (a :: as, rest)

/-- Reads a list in brackets, which is on one line if it is empty and has a line for each element
if not. -/
def slice? {α : Type} (opening closing : String) (read? : Line → Option α) :
    List Line → Option (List α × List Line)
  | [] => none
  | l :: rest =>
    if l = (opening ++ "[];").toList then some ([], rest)
    else if l = (opening ++ "[").toList then upTo? closing read? rest
    else none

/-! ## Declarations -/

/-- What an item declares. -/
inductive Declaration where
  /-- A structure with its fields. -/
  | record (name : String) (fields : List String)
  /-- A constant with the literals of its fields. -/
  | tool (name : String) (fields : List (String × String))
  /-- A module with the literals of methods and the constants beside them. -/
  | service (name : String) (methods : List (String × String))
  /-- A constant that lists other constants. -/
  | list (name : String) (constants : List String)
  deriving DecidableEq

/-- Reads a field of a structure; nothing from the comment in front of it. -/
def recordField? (l : Line) : Option (Option String) :=
  if "    /// ".toList.isPrefixOf l then some none
  else (name? "    pub " ": &'static str," l).map some

def record? (first : Line) (rest : List Line) : Option Declaration := do
  let _ ← between? "#[derive(" ")]" first
  let header ← rest.head?
  let name ← name? "pub struct " " \x7b" header
  let (fields, rest) ← upTo? "\x7d" recordField? rest.tail
  if rest = [] then some (.record name (fields.filterMap id)) else none

/-- Reads a field and the literal that is its value. -/
def field? (l : Line) : Option (String × String) := do
  let inner ← between? "    " "," l
  let name := inner.takeWhile isNameChar
  let value ← inner.dropPrefix? (name ++ ": ".toList)
  return (String.ofList name, String.ofList value)

def tool? (first : Line) (rest : List Line) : Option Declaration := do
  let name ← name? "pub const " ": McpTool = McpTool \x7b" first
  let (fields, rest) ← upTo? "\x7d;" field? rest
  if rest = [] then some (.tool name fields) else none

/-- Reads the literal of a method and the constant beside it, from the end, since a literal can hold
anything. -/
def method? (l : Line) : Option (String × String) := do
  let inner ← between? "        (" ")," l
  let name := (inner.reverse.takeWhile isNameChar).reverse
  let literal ← inner.dropSuffix? (", &super::".toList ++ name)
  return (String.ofList literal, String.ofList name)

/-- The line that lists the methods of a service, up to the brackets. -/
def toolsOpening : String :=
  "    pub const TOOLS: &[(&str, &super::McpTool)] = &"

def service? (first : Line) (rest : List Line) : Option Declaration := do
  let name ← name? "pub mod " " \x7b" first
  let comment ← rest.head?
  let _ ← between? "    /// " "" comment
  let (methods, rest) ← slice? toolsOpening "    ];" method? rest.tail
  if rest = ["\x7d".toList] then some (.service name methods) else none

/-- The line that lists all tools, up to the brackets. -/
def listOpening (name : String) : String :=
  "pub const " ++ name ++ ": &[&McpTool] = &"

def list? (first : Line) (rest : List Line) : Option Declaration := do
  let after ← first.dropPrefix? "pub const ".toList
  let name := String.ofList (after.takeWhile isNameChar)
  let (constants, rest) ← slice? (listOpening name) "];" (name? "    &" ",") (first :: rest)
  if rest = [] then some (.list name constants) else none

/-- Reads what the code of an item declares. -/
def Declaration.read? : List Line → Option Declaration
  | [] => none
  | first :: rest =>
    record? first rest <|> tool? first rest <|> service? first rest <|> list? first rest

theorem Declaration.read?_cons (first : Line) (rest : List Line) :
    read? (first :: rest)
      = (record? first rest <|> tool? first rest <|> service? first rest <|> list? first rest) :=
  rfl

/-- Code that goes on behind a constant is not read. -/
example : Declaration.read? ["pub const A: McpTool = McpTool \x7b".toList, "\x7d;".toList,
    "mod b;".toList] = none := by
  decide +kernel

/-! ## Reading lines -/

theorem unlines_eq_intercalate (ls : List Line) : unlines ls = ['\n'].intercalate (ls ++ [[]]) := by
  induction ls with
  | nil => rfl
  | cons l ls ih =>
    have hsplit : unlines (l :: ls) = l ++ ['\n'] ++ unlines ls := List.flatMap_cons
    obtain ⟨l', ls', hne⟩ := List.exists_cons_of_ne_nil (List.concat_ne_nil [] ls)
    rw [hsplit, ih, List.cons_append, hne, List.intercalate_cons_cons]

/-- Lines in front of a text are lines of both together. -/
theorem splitOn_unlines_append {ls : List Line} (h : ∀ l ∈ ls, '\n' ∉ l) (rest : List Char) :
    (unlines ls ++ rest).splitOn '\n' = ls ++ rest.splitOn '\n' := by
  induction ls with
  | nil => rfl
  | cons l ls ih =>
    have hjoin : unlines (l :: ls) ++ rest = l ++ '\n' :: (unlines ls ++ rest) := by
      simp [unlines]
    rw [hjoin, List.splitOn_append_cons_self, Text.splitOn_of_not_mem (h l List.mem_cons_self),
      ih fun l' hl => h l' (List.mem_cons_of_mem _ hl)]
    rfl

theorem lines?_unlines {ls : List Line} (h : ∀ l ∈ ls, '\n' ∉ l) :
    lines? (unlines ls) = some ls := by
  have hsplit : (unlines ls).splitOn '\n' = ls ++ [[]] := by
    have hlines := splitOn_unlines_append h []
    rwa [List.append_nil, List.splitOn_nil] at hlines
  unfold lines?
  rw [hsplit, List.getLast?_concat, List.dropLast_concat, if_pos rfl]

theorem between?_append (before after : String) (l : Line) :
    between? before after (before.toList ++ (l ++ after.toList)) = some l := by
  have hbefore : (before.toList ++ (l ++ after.toList)).dropPrefix? before.toList
      = some (l ++ after.toList) := List.dropPrefix?_eq_some_iff.2 ⟨_, rfl, beq_self_eq_true _⟩
  have hafter : (l ++ after.toList).dropSuffix? after.toList = some l :=
    List.dropSuffix?_eq_some_iff.2 ⟨_, rfl, beq_self_eq_true _⟩
  unfold between?
  rw [hbefore]
  exact hafter

/-- The line with a name between two texts. -/
def nameLine (before name after : String) : Line :=
  before.toList ++ (name.toList ++ after.toList)

theorem name?_nameLine (before after : String) {name : String}
    (h : ∀ c ∈ name.toList, isNameChar c = true) :
    name? before after (nameLine before name after) = some name := by
  unfold name? nameLine
  rw [between?_append]
  show (if name.toList.all isNameChar then some (String.ofList name.toList) else none) = some name
  rw [if_pos (List.all_eq_true.2 h), String.ofList_toList]

section
variable {α β : Type} {read? : Line → Option α} {line : β → Line} {value : β → α} {xs : List β}

theorem upTo?_map {closing : String} (hne : ∀ x ∈ xs, line x ≠ closing.toList)
    (hread : ∀ x ∈ xs, read? (line x) = some (value x)) (rest : List Line) :
    upTo? closing read? (xs.map line ++ closing.toList :: rest) = some (xs.map value, rest) := by
  induction xs with
  | nil => simp [upTo?]
  | cons x xs ih =>
    have hrest := ih (fun y hy => hne y (List.mem_cons_of_mem _ hy)) fun y hy =>
      hread y (List.mem_cons_of_mem _ hy)
    rw [List.map_cons, List.cons_append, upTo?, if_neg (hne x List.mem_cons_self),
      hread x List.mem_cons_self, hrest]
    rfl

/-- The lines of a list in brackets. -/
def sliceLines (opening closing : String) (ls : List Line) : List Line :=
  if ls.isEmpty then [(opening ++ "[];").toList]
  else (opening ++ "[").toList :: (ls ++ [closing.toList])

theorem slice?_map (opening : String) {closing : String}
    (hne : ∀ x ∈ xs, line x ≠ closing.toList)
    (hread : ∀ x ∈ xs, read? (line x) = some (value x)) (rest : List Line) :
    slice? opening closing read? (sliceLines opening closing (xs.map line) ++ rest)
      = some (xs.map value, rest) := by
  cases xs with
  | nil => simp [sliceLines, slice?]
  | cons x xs =>
    have hopening : ¬ (opening ++ "[").toList = (opening ++ "[];").toList := by simp
    have hlines : sliceLines opening closing ((x :: xs).map line) ++ rest
        = (opening ++ "[").toList :: ((x :: xs).map line ++ closing.toList :: rest) := by
      simp [sliceLines]
    rw [hlines, slice?, if_neg hopening, if_pos rfl]
    exact upTo?_map hne hread rest

end

/-! ## Literals -/

/-- Printable ASCII characters. -/
def Printable (c : Char) : Prop :=
  0x20 ≤ c.toNat ∧ c.toNat < 0x7F

instance (c : Char) : Decidable (Printable c) :=
  inferInstanceAs (Decidable (_ ∧ _))

theorem printable_of_mem {cs : List Char} (hcs : cs.all (fun c => decide (Printable c)) = true)
    {c : Char} (h : c ∈ cs) : Printable c :=
  of_decide_eq_true (List.all_eq_true.1 hcs c h)

theorem printable_digit : ∀ d < 36, Printable (Numeral.digit d) := by
  decide

theorem printable_numeral {base n : Nat} (hb : 2 ≤ base) (hb' : base ≤ 36) {c : Char}
    (h : c ∈ Numeral.numeral base n) : Printable c := by
  obtain ⟨d, hd, rfl⟩ := Numeral.exists_digit_of_mem hb h
  exact printable_digit d (Nat.lt_of_lt_of_le hd hb')

theorem printable_literalChar {c d : Char} (h : c ∈ literalChar d) : Printable c := by
  unfold literalChar at h
  split at h
  case h_7 =>
    split at h
    · next hd => exact List.mem_singleton.1 h ▸ hd
    · have hsplit : c ∈ ['\\', 'u', '\x7b'] ++ (Numeral.numeral 16 d.toNat ++ ['\x7d']) := h
      rw [List.mem_append, List.mem_append, List.mem_singleton] at hsplit
      rcases hsplit with hc | hc | hc
      · exact printable_of_mem (by decide) hc
      · exact printable_numeral (by decide) (by decide) hc
      · rw [hc]; decide
  -- the characters with an escape of their own
  all_goals exact printable_of_mem (by decide) h

/-- A literal consists of printable ASCII characters, whatever its text is. -/
theorem printable_literal {s : String} {c : Char} (h : c ∈ (literal s).toList) : Printable c := by
  unfold literal at h
  rw [String.toList_ofList, List.mem_cons, List.mem_append, List.mem_singleton,
    List.mem_flatMap] at h
  rcases h with hc | ⟨d, -, hc⟩ | hc
  · rw [hc]; decide
  · exact printable_literalChar hc
  · rw [hc]; decide

theorem newline_not_mem_literal (s : String) : '\n' ∉ (literal s).toList := by
  intro h
  exact absurd (printable_literal h) (by decide)

theorem newline_not_mem_name {name : List Char} (h : ∀ c ∈ name, isNameChar c = true) :
    '\n' ∉ name := by
  intro hmem
  exact absurd (h _ hmem) (by decide)

/-- The line is not empty and is not broken. -/
def Whole (l : Line) : Prop :=
  l ≠ [] ∧ '\n' ∉ l

instance (l : Line) : Decidable (Whole l) :=
  inferInstanceAs (Decidable (_ ∧ _))

theorem whole_append {l l' : Line} (h : Whole l) (h' : '\n' ∉ l') : Whole (l ++ l') := by
  refine ⟨List.append_ne_nil_of_left_ne_nil h.1 l', ?_⟩
  rw [List.mem_append, not_or]
  exact ⟨h.2, h'⟩

theorem whole_nameLine {before name after : String} (hbefore : Whole before.toList)
    (hname : ∀ c ∈ name.toList, isNameChar c = true) (hafter : '\n' ∉ after.toList) :
    Whole (nameLine before name after) := by
  apply whole_append hbefore
  rw [List.mem_append, not_or]
  exact ⟨newline_not_mem_name hname, hafter⟩

/-! ## Lines of items -/

/-- The line of a field. -/
def fieldChars (f : String × String) : Line :=
  "    ".toList ++ ((f.1.toList ++ (": ".toList ++ f.2.toList)) ++ ",".toList)

theorem field?_fieldChars {f : String × String} (h : ∀ c ∈ f.1.toList, isNameChar c = true) :
    field? (fieldChars f) = some f := by
  unfold field? fieldChars
  rw [between?_append]
  have hname : (f.1.toList ++ (": ".toList ++ f.2.toList)).takeWhile isNameChar = f.1.toList := by
    rw [List.takeWhile_append_of_pos h]
    exact List.append_nil _
  have hvalue : (f.1.toList ++ (": ".toList ++ f.2.toList)).dropPrefix? (f.1.toList ++ ": ".toList)
      = some f.2.toList :=
    List.dropPrefix?_eq_some_iff.2 ⟨_, (List.append_assoc _ _ _).symm, beq_self_eq_true _⟩
  simp only [Option.bind_eq_bind, Option.bind_some, hname, hvalue, Option.pure_def,
    String.ofList_toList]

/-- The line of a method. -/
def methodChars (m : String × String) : Line :=
  "        (".toList ++ ((m.1.toList ++ (", &super::".toList ++ m.2.toList)) ++ "),".toList)

theorem method?_methodChars {m : String × String} (h : ∀ c ∈ m.2.toList, isNameChar c = true) :
    method? (methodChars m) = some m := by
  unfold method? methodChars
  rw [between?_append]
  have hname : ((m.1.toList ++ (", &super::".toList ++ m.2.toList)).reverse.takeWhile
      isNameChar).reverse = m.2.toList := by
    rw [List.reverse_append, List.reverse_append, List.append_assoc,
      List.takeWhile_append_of_pos fun c hc => h c (List.mem_reverse.1 hc)]
    show (m.2.toList.reverse ++ []).reverse = m.2.toList
    rw [List.append_nil, List.reverse_reverse]
  have hliteral : (m.1.toList ++ (", &super::".toList ++ m.2.toList)).dropSuffix?
      (", &super::".toList ++ m.2.toList) = some m.1.toList :=
    List.dropSuffix?_eq_some_iff.2 ⟨_, rfl, beq_self_eq_true _⟩
  simp only [Option.bind_eq_bind, Option.bind_some, hname, hliteral, Option.pure_def,
    String.ofList_toList]

end McpCatalog.Render
