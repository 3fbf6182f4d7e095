import McpCatalog.Proofs.Settings.Parameter
import McpCatalog.Proofs.Toml.Entry
/-!
# Documents and parameters agree

Settings can be chosen in a document, with a line for each choice, and in a parameter. The two are
read by different rules: a document has values of two kinds and its keys are those of a table, and a
parameter has nothing but texts. They come to the same settings nevertheless.

Results:
* `withEntry?_eq_some_iff`: an entry of a document changes what the pair of a parameter changes.
* `ofDocument_of_choices`: a document of choices has settings if and only if a parameter of them
  has, and then they are the same.
-/
namespace McpCatalog.Settings

/-! ## Choices -/

/-- What is chosen for the settings, each of which can be left out. Formats and modes are chosen by
a name that need not be one. -/
structure Choices where
  suffix : Option String
  nameLimit : Option Nat
  format : Option String
  diagnostics : Option String
  diagnosticsFile : Option String

namespace Choices

/-- What is chosen for a key. There is no file to start from. -/
def get (c : Choices) : Key → Option Toml.Scalar
  | .config => none
  | .suffix => c.suffix.map .text
  | .nameLimit => c.nameLimit.map .number
  | .format => c.format.map .text
  | .diagnostics => c.diagnostics.map .text
  | .diagnosticsFile => c.diagnosticsFile.map .text

end Choices

/-- The text of a value in a parameter. -/
def textOf : Toml.Scalar → String
  | .text s => s
  | .number n => Numeral.decimal n

namespace Choices

def texts (c : Choices) (k : Key) : Option String :=
  (c.get k).map textOf

/-- The strings can stand in a parameter, and there is no control character in them. -/
def Plain (c : Choices) : Prop :=
  ∀ k s, c.get k = some (.text s) →
    Settings.Plain s ∧ ∀ char ∈ s.toList, Toml.isControl char = false

/-- The document has a line for each choice, in some order. -/
def Documents (c : Choices) (document : String) : Prop :=
  ∃ es, Lists c.get es ∧
    Toml.Lines (es.map Key.named) document.toList

end Choices

/-! ## Entries and pairs -/

theorem map_eq_some_iff_orError {α : Type} {x : Option α} {f : α → Settings} {error : Error}
    {t : Settings} : x.map f = some t ↔ (orError error x).map f = .ok t := by
  cases x <;> simp [orError, Except.map]

theorem some_eq_some_iff_ok {s t : Settings} :
    some s = some t ↔ (.ok s : Except Error Settings) = .ok t := by
  simp

theorem natural_decimal {n m : Nat} :
    natural (Numeral.decimal n) = some m ↔ n = m ∧ m < UInt64.size := by
  have hdigits : ∀ c ∈ Numeral.numeral 10 n, c.isDigit = true := fun _ => Numeral.isDigit_of_mem
  have hvalue := @Numeral.value_numeral 10 (by decide) (by decide) n
  rw [natural_eq_some, Numeral.toList_decimal, unsigned_of_isDigit hdigits, hvalue]
  constructor
  · rintro ⟨-, -, h⟩
    exact h
  · intro h
    exact ⟨Numeral.numeral_ne_nil 10 n, hdigits, h⟩

theorem natural?_number (n : Nat) : natural? (.number n) = natural (Numeral.decimal n) := by
  have hread : natural? (.number n) = if n < UInt64.size then some n else none := rfl
  apply Option.ext
  intro m
  rw [natural_decimal, hread, Option.ite_none_right_eq_some, Option.some_inj]
  constructor
  · rintro ⟨hlt, rfl⟩
    exact ⟨rfl, hlt⟩
  · rintro ⟨rfl, hlt⟩
    exact ⟨hlt, rfl⟩

/-- An entry of a document changes the settings as the pair of a parameter does. -/
theorem withEntry?_eq_some_iff {c : Choices} {k : Key} {x : Toml.Scalar} (h : c.get k = some x)
    {s t : Settings} :
    withEntry? s (k.name, x.value) = some t ↔ withPair s (k.name, textOf x) = .ok t := by
  cases k with
  | config => cases h
  | suffix =>
    obtain ⟨text, -, rfl⟩ := Option.map_eq_some_iff.1 h
    exact some_eq_some_iff_ok
  | nameLimit =>
    obtain ⟨n, -, rfl⟩ := Option.map_eq_some_iff.1 h
    have hentry : withEntry? s (Key.nameLimit.name, (Toml.Scalar.number n).value)
        = (natural? (.number n)).map fun n => { s with nameLimit := n } := rfl
    rw [hentry, natural?_number]
    exact map_eq_some_iff_orError
  | format =>
    obtain ⟨text, -, rfl⟩ := Option.map_eq_some_iff.1 h
    exact map_eq_some_iff_orError
  | diagnostics =>
    obtain ⟨text, -, rfl⟩ := Option.map_eq_some_iff.1 h
    exact map_eq_some_iff_orError
  | diagnosticsFile =>
    obtain ⟨text, -, rfl⟩ := Option.map_eq_some_iff.1 h
    exact some_eq_some_iff_ok

/-- So do all entries and all pairs, one after the other. -/
theorem foldlM_withEntry?_eq_some_iff {c : Choices} {es : List (Key × Toml.Scalar)}
    (h : ∀ e ∈ es, c.get e.1 = some e.2) {s t : Settings} :
    (Toml.tableOf (es.map Key.named)).foldlM withEntry? s = some t ↔
      ((es.map fun e => (e.1, textOf e.2)).map Key.named).foldlM withPair s = .ok t := by
  induction es generalizing s with
  | nil => exact some_eq_some_iff_ok
  | cons e es ih =>
    change withEntry? s (e.1.name, e.2.value) >>= (fun u =>
        (Toml.tableOf (es.map Key.named)).foldlM withEntry? u) = some t ↔
      withPair s (e.1.name, textOf e.2) >>= (fun u =>
        ((es.map fun e => (e.1, textOf e.2)).map Key.named).foldlM withPair u) = .ok t
    rw [Option.bind_eq_bind, Option.bind_eq_some_iff, bind_eq_ok_iff]
    refine exists_congr fun u => and_congr ?_ ?_
    · exact withEntry?_eq_some_iff (h e List.mem_cons_self)
    · exact ih fun d hd => h d (List.mem_cons_of_mem _ hd)

/-! ## Choices as a document and as a parameter -/

theorem ofDocument_eq_ok_iff {document : String} {t : Toml.Table}
    (h : Toml.parse? document = some t) {s : Settings} :
    ofDocument document = .ok s ↔ t.foldlM withEntry? default = some s ∧ s.fault? = none := by
  have hdocument : Toml.parse? document >>= ofTable? = t.foldlM withEntry? default := by
    rw [h]
    rfl
  rw [ofDocument, hdocument]
  cases t.foldlM withEntry? default with
  | none => simp
  | some u =>
    rw [Option.some_inj]
    refine mapError_check_eq_ok_iff.trans (and_congr_right ?_)
    rintro rfl
    rfl

theorem lists_texts {c : Choices} {es : List (Key × Toml.Scalar)} (h : Lists c.get es) :
    Lists c.texts (es.map fun e => (e.1, textOf e.2)) where
  nodup := by
    rw [List.map_map]
    exact h.nodup
  mem_iff k text := by
    rw [List.mem_map, Choices.texts, Option.map_eq_some_iff]
    constructor
    · rintro ⟨⟨k, x⟩, hmem, ⟨⟩⟩
      exact ⟨x, (h.mem_iff k x).1 hmem, rfl⟩
    · rintro ⟨x, hx, rfl⟩
      exact ⟨(k, x), (h.mem_iff k x).2 hx, rfl⟩

theorem Key.bare_name (k : Key) : Toml.BareKey k.name := by
  cases k <;> exact ⟨by decide, List.all_eq_true.1 (by decide)⟩

theorem writable_of_lists {c : Choices} (hc : c.Plain) {es : List (Key × Toml.Scalar)}
    (h : Lists c.get es) : Toml.Writable (es.map Key.named) := by
  rintro _ hmem
  obtain ⟨⟨k, x⟩, he, rfl⟩ := List.mem_map.1 hmem
  refine ⟨k.bare_name, ?_⟩
  cases x with
  | text s => exact (hc k s ((h.mem_iff k _).1 he)).2
  | number n => trivial

/-- A document of choices has the settings that the choices describe. -/
theorem ofDocument_eq_ok_iff_describes (read? : String → Option Bytes) {c : Choices} (hc : c.Plain)
    {document : String} (h : c.Documents document) {s : Settings} :
    ofDocument document = .ok s ↔ Describes read? c.texts s := by
  obtain ⟨es, hlists, hlines⟩ := h
  have hparse := Toml.parse?_of_lines hlines (writable_of_lists hc hlists) hlists.nodup_names
  have htexts := lists_texts hlists
  rw [ofDocument_eq_ok_iff hparse,
    foldlM_withEntry?_eq_some_iff fun e he => (hlists.mem_iff e.1 e.2).1 he,
    foldlM_withPair_eq_ok_iff htexts.nodup, funext htexts.lookup_eq]
  constructor
  · rintro ⟨hs, hfault⟩
    exact ⟨default, rfl, hs, hfault⟩
  · rintro ⟨start, rfl, hs, hfault⟩
    exact ⟨hs, hfault⟩

theorem isBlank_of_isDigit {c : Char} (h : c.isDigit = true) : Text.isBlank c = false := by
  obtain ⟨d, hd, rfl⟩ := Numeral.exists_digit h
  revert d
  decide

theorem plain_decimal (n : Nat) : Settings.Plain (Numeral.decimal n) := by
  constructor
  · rw [Numeral.toList_decimal]
    exact Text.trim_of_no_blank fun c hc => isBlank_of_isDigit (Numeral.isDigit_of_mem hc)
  · rw [Numeral.toList_decimal]
    intro hmem
    cases Numeral.isDigit_of_mem hmem

theorem plain_texts {c : Choices} (hc : c.Plain) {k : Key} {text : String}
    (h : c.texts k = some text) : Settings.Plain text := by
  obtain ⟨x, hx, rfl⟩ := Option.map_eq_some_iff.1 h
  cases x with
  | text s => exact (hc k s hx).1
  | number n => exact plain_decimal n

/-- **Agreement.** A document with a line for each choice has settings if and only if a parameter of
the same choices has, whichever way it is written, and then they have the same settings. -/
theorem ofDocument_of_choices (read? : String → Option Bytes) (c : Choices) (hc : c.Plain)
    (document parameter : String) (hdocument : c.Documents document)
    (hparameter : Writes c.texts parameter) (s : Settings) :
    ofDocument document = .ok s ↔ ofParameter read? parameter = .ok s := by
  obtain ⟨es, hlists, hpairs⟩ := pairs_of_writes (fun k text => plain_texts hc) hparameter
  rw [ofDocument_eq_ok_iff_describes read? hc hdocument, ofParameter_of_pairs hlists hpairs]

/-- A suffix with a quote and an equals sign, a limit and a format. -/
def rustChoices : Choices :=
  ⟨some ".p\"b=mcp", some 40, some "rust", none, none⟩

theorem plain_rustChoices : rustChoices.Plain := by
  intro k s h
  have hclean : s.toList.all (fun char => !Toml.isControl char) = true := by
    cases k <;> cases h <;> decide
  refine ⟨?_, fun char hchar => by simpa using List.all_eq_true.1 hclean char hchar⟩
  cases k <;> cases h <;> exact ⟨by decide, by decide⟩

def rustDocument : String :=
  "max_tool_name_len = 40\n\nsuffix = \".p\\\"b=mcp\"\nformat = \"rust\""

def rustParameter : String :=
  " format=rust , suffix=.p\"b=mcp,max_tool_name_len=40"

theorem documents_rustChoices : rustChoices.Documents rustDocument := by
  refine ⟨[(.nameLimit, .number 40), (.suffix, .text ".p\"b=mcp"), (.format, .text "rust")], ?_, ?_⟩
  · refine ⟨by decide, fun k x => ?_⟩
    cases k <;> simp [rustChoices, Choices.get, eq_comm]
  · have hlines := Toml.Lines.entry "max_tool_name_len" (.number 40)
      (.blank (.entry "suffix" (.text ".p\"b=mcp") (.last "format" (.text "rust"))))
    have hnumber : Numeral.numeral 10 40 = ['4', '0'] := by
      simp [Numeral.numeral, Numeral.digit]
    rw [Toml.line, Toml.Scalar.literal, hnumber] at hlines
    exact hlines

theorem writes_rustChoices : Writes rustChoices.texts rustParameter := by
  have hnumber : textOf (.number 40) = "40" := by
    rw [textOf, ← String.toList_inj, Numeral.toList_decimal]
    simp [Numeral.numeral, Numeral.digit]
  have htexts : Lists rustChoices.texts
      [(.format, "rust"), (.suffix, ".p\"b=mcp"), (.nameLimit, "40")] := by
    refine ⟨by decide, fun k text => ?_⟩
    rw [← hnumber]
    cases k <;> simp [rustChoices, Choices.get, Choices.texts, textOf, eq_comm]
  refine ⟨[some (.format, "rust"), some (.suffix, ".p\"b=mcp"), some (.nameLimit, "40")],
    [" format".toList ++ '=' :: "rust ".toList, " suffix".toList ++ '=' :: ".p\"b=mcp".toList,
      "max_tool_name_len".toList ++ '=' :: "40".toList], ?_, htexts, by decide⟩
  exact .cons (segment_of_trim (by decide) (by decide)) <|
    .cons (segment_of_trim (by decide) (by decide)) <|
    .cons (segment_of_trim (by decide) (by decide)) .nil

theorem ofDocument_of_choices_rustChoices :
    ofDocument rustDocument = .ok ⟨some ".p\"b=mcp", 40, .rust, .stderr, none⟩ ∧
      ofParameter (fun _ => none) rustParameter
        = .ok ⟨some ".p\"b=mcp", 40, .rust, .stderr, none⟩ := by
  have hdocument : ofDocument rustDocument = .ok ⟨some ".p\"b=mcp", 40, .rust, .stderr, none⟩ := by
    decide
  have hagree := ofDocument_of_choices (fun _ => none) rustChoices plain_rustChoices rustDocument
    rustParameter documents_rustChoices writes_rustChoices
  exact ⟨hdocument, (hagree _).1 hdocument⟩

end McpCatalog.Settings
