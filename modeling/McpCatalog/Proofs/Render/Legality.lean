import McpCatalog.Proofs.Render.Namespace
/-!
# Legal identifiers

A Rust identifier consists of letters, digits and underscores, does not start with a digit, is not
an underscore alone, and is no keyword, neither one in use nor one that is reserved. Constants have
no lower-case letter, which keeps them apart from all keywords. The names of modules are compared
with a table of keywords, which leaves out some of the reserved ones.

Results:
* `legal_constant`: the constant of a tool is a legal identifier, whatever its key is.
* `legal_append`: an underscore behind a keyword makes it a legal identifier.
* `legal_of_words`: the module of a service is a legal identifier unless the table misses its name.
* `legal_identifiers`: the constants are legal, and the modules with ten exceptions.
-/
namespace McpCatalog

namespace Identifier

/-! ## Keywords -/

/-- The keywords that are in use. -/
def strictWords : List String :=
  ["as", "async", "await", "break", "const", "continue", "crate", "dyn", "else", "enum", "extern",
   "false", "fn", "for", "if", "impl", "in", "let", "loop", "match", "mod", "move", "mut", "pub",
   "ref", "return", "self", "Self", "static", "struct", "super", "trait", "true", "type", "unsafe",
   "use", "where", "while"]

/-- The keywords that are reserved. -/
def reservedWords : List String :=
  ["abstract", "become", "box", "do", "final", "gen", "macro", "override", "priv", "try", "typeof",
   "unsized", "virtual", "yield"]

def rustWords : List String :=
  strictWords ++ reservedWords

/-- The reserved words that the table of keywords leaves out. -/
def unlisted : List String :=
  ["abstract", "become", "do", "final", "macro", "override", "priv", "typeof", "unsized", "virtual"]

/-- The text can stand for a name in a Rust module. -/
structure Legal (identifier : String) : Prop where
  nonempty : identifier ≠ ""
  chars : ∀ c ∈ identifier.toList, isNameChar c = true
  first : ∀ c ∈ identifier.toList.head?, c.isDigit = false
  underscore : identifier ≠ "_"
  keyword : identifier ∉ rustWords

/-- A keyword is in the table, or is left out of it, or starts with a capital. -/
theorem mem_rustWords_cases {w : String} (h : w ∈ rustWords) :
    w ∈ keywords ∨ w ∈ unlisted ∨ w = "Self" := by
  revert w
  decide

theorem mem_rustWords_of_unlisted {w : String} (h : w ∈ unlisted) : w ∈ rustWords := by
  revert w
  decide

/-- Keywords have no underscore at their ends, and they have lower-case letters. -/
theorem ends_of_mem_rustWords {w : String} (h : w ∈ rustWords) :
    w.toList.head? ≠ some '_' ∧ w.toList.getLast? ≠ some '_' ∧
      ∃ c ∈ w.toList, c.isLower = true := by
  have hall : ∀ w ∈ rustWords, w.toList.head? ≠ some '_' ∧ w.toList.getLast? ≠ some '_' ∧
      w.toList.any Char.isLower = true := by decide +kernel
  obtain ⟨hhead, hlast, hlower⟩ := hall w h
  exact ⟨hhead, hlast, List.any_eq_true.1 hlower⟩

/-! ## Constants -/

/-- The guard is in front of a digit and stands for nothing; other texts stay as they are. -/
theorem guarded_cases {cs : List Char} (h : cs.head? ≠ some '_') :
    ∃ c rest, guarded cs = c :: rest ∧ c.isDigit = false ∧
      (c = '_' ∧ rest ≠ [] ∨ c ≠ '_' ∧ guarded cs = cs) := by
  cases cs with
  | nil => exact ⟨'_', "unnamed".toList, rfl, rfl, .inl ⟨rfl, by decide⟩⟩
  | cons c rest =>
    cases hdigit : c.isDigit with
    | true =>
      have hguard : guarded (c :: rest) = '_' :: c :: rest := if_pos hdigit
      exact ⟨'_', c :: rest, hguard, rfl, .inl ⟨rfl, List.cons_ne_nil _ _⟩⟩
    | false =>
      have hguard : guarded (c :: rest) = c :: rest := if_neg (by simp [hdigit])
      refine ⟨c, rest, hguard, hdigit, .inr ⟨?_, hguard⟩⟩
      intro hc
      exact h (by rw [hc]; rfl)

theorem head?_joined_ne (name : List Char) : (['_'].intercalate (words name)).head? ≠ some '_' := by
  rcases joined_cases name with hnil | ⟨c, cs, hcons, hc⟩
  · rw [hnil]
    exact Option.some_ne_none _ ∘ Eq.symm
  · rw [hcons, List.head?_cons, Ne, Option.some_inj]
    intro h
    rw [h] at hc
    exact absurd hc (by decide)

theorem isLower_toUpper {c : Char} (h : isWordChar c = true) :
    c.toUpper.isLower = false ∧ c.toUpper ≠ '_' :=
  forall_ascii (P := fun c => isWordChar c = true → c.toUpper.isLower = false ∧ c.toUpper ≠ '_')
    (by decide +kernel) (toNat_lt_of_isAlphanum (isAlphanum_of_isWordChar h)) h

theorem head?_constant_ne (name : List Char) :
    ((['_'].intercalate (words name)).map Char.toUpper).head? ≠ some '_' := by
  rcases joined_cases name with hnil | ⟨c, cs, hcons, hc⟩
  · rw [hnil]
    exact Option.some_ne_none _ ∘ Eq.symm
  · rw [hcons, List.map_cons, List.head?_cons, Ne, Option.some_inj]
    exact (isLower_toUpper hc).2

theorem guarded_start {cs : List Char} (h : cs.head? ≠ some '_') :
    String.ofList (guarded cs) ≠ "" ∧
      ∀ c ∈ (String.ofList (guarded cs)).toList.head?, c.isDigit = false := by
  obtain ⟨c, rest, hguard, hdigit, -⟩ := guarded_cases h
  rw [hguard]
  refine ⟨?_, ?_⟩
  · rw [Ne, ← String.toList_inj, String.toList_ofList]
    exact List.cons_ne_nil _ _
  · rw [String.toList_ofList]
    intro d hd
    rwa [← Option.some_inj.1 hd]

/-- A text that the guard has seen is legal if it has the right characters and is no keyword. -/
theorem legal_guarded {cs : List Char} (h : cs.head? ≠ some '_')
    (hchars : ∀ c ∈ guarded cs, isNameChar c = true)
    (hkeyword : String.ofList (guarded cs) ∉ rustWords) : Legal (String.ofList (guarded cs)) := by
  obtain ⟨hne, hfirst⟩ := guarded_start h
  refine ⟨hne, ?_, hfirst, ?_, hkeyword⟩
  · rw [String.toList_ofList]
    exact hchars
  · obtain ⟨c, rest, hguard, -, hends⟩ := guarded_cases h
    rw [hguard, Ne, ← String.toList_inj, String.toList_ofList]
    intro heq
    obtain ⟨hc, hrest⟩ := List.cons.inj heq
    cases hends with
    | inl hends => exact hends.2 hrest
    | inr hends => exact hends.1 hc

theorem legal_constant (key : String) : Legal (constant key) := by
  apply legal_guarded (head?_constant_ne _)
  · intro c hc
    have hmem : c ∈ (constant key).toList := by
      rw [constant, String.toList_ofList]
      exact hc
    exact isNameChar_constant hmem
  · intro hmem
    obtain ⟨hhead, -, d, hd, hlower⟩ := ends_of_mem_rustWords hmem
    rw [String.toList_ofList] at hhead hd
    obtain ⟨c, rest, hguard, -, hends⟩ := guarded_cases (head?_constant_ne key.toList)
    cases hends with
    | inl hends =>
      rw [hguard, hends.1] at hhead
      exact hhead rfl
    | inr hends =>
      -- without a guard all letters are in upper case
      rw [hends.2] at hd
      obtain ⟨e, he, rfl⟩ := List.mem_map.1 hd
      cases mem_joined he with
      | inl hword => simp [(isLower_toUpper hword).1] at hlower
      | inr hunderscore =>
        rw [hunderscore] at hlower
        exact absurd hlower (by decide)

/-! ## Modules -/

/-- An underscore behind a text of the right characters makes it legal, also behind a keyword. -/
theorem legal_append {identifier : String} (hne : identifier ≠ "")
    (hchars : ∀ c ∈ (identifier ++ "_").toList, isNameChar c = true)
    (hfirst : ∀ c ∈ identifier.toList.head?, c.isDigit = false) : Legal (identifier ++ "_") := by
  have hchars' : (identifier ++ "_").toList = identifier.toList ++ ['_'] := String.toList_append
  have hnil : identifier.toList ≠ [] := by
    intro h
    exact hne (String.toList_inj.1 h)
  refine ⟨?_, hchars, ?_, ?_, ?_⟩
  · rw [Ne, ← String.toList_inj, hchars']
    exact List.append_ne_nil_of_right_ne_nil _ (List.cons_ne_nil _ _)
  · rw [hchars', List.head?_append_of_ne_nil _ hnil]
    exact hfirst
  · rw [Ne, ← String.toList_inj, hchars']
    intro h
    exact hnil (List.append_cancel_right (h.trans (List.nil_append _).symm))
  · intro hmem
    obtain ⟨-, hlast, -⟩ := ends_of_mem_rustWords hmem
    rw [hchars', List.getLast?_concat] at hlast
    exact hlast rfl

/-- A module whose only word is reserved, but not in the table, has this word as its name. -/
theorem moduleName_of_unlisted {service w : String} (hw : w ∈ unlisted)
    (h : words service.toList = [w.toList]) : moduleName service = w := by
  have hall : ∀ w ∈ unlisted, (if keywords.contains (String.ofList (guarded w.toList)) then
      String.ofList (guarded w.toList) ++ "_" else String.ofList (guarded w.toList)) = w := by
    decide +kernel
  unfold moduleName
  rw [h, List.intercalate_singleton]
  exact hall w hw

/-- Words that are joined to a reserved word are this one word. -/
theorem words_of_guarded {name : List Char} {w : String} (hw : w ∈ unlisted)
    (h : String.ofList (guarded (['_'].intercalate (words name))) = w) :
    words name = [w.toList] := by
  have hall : ∀ w ∈ unlisted, w.toList ≠ [] ∧ '_' ∉ w.toList := by decide +kernel
  obtain ⟨hne, hunderscore⟩ := hall w hw
  have hchars : guarded (['_'].intercalate (words name)) = w.toList := by
    rw [← h, String.toList_ofList]
  obtain ⟨c, rest, hguard, -, hends⟩ := guarded_cases (head?_joined_ne name)
  cases hends with
  | inl hends =>
    rw [← hchars, hguard, hends.1] at hunderscore
    exact absurd List.mem_cons_self hunderscore
  | inr hends =>
    rw [hends.2] at hchars
    exact (joined_eq_iff hne hunderscore).1 hchars

theorem legal_of_words {service : String} (h : ∀ w ∈ unlisted, words service.toList ≠ [w.toList]) :
    Legal (moduleName service) := by
  have hchars : ∀ c ∈ (moduleName service).toList, isNameChar c = true :=
    fun c hc => isNameChar_moduleName hc
  have hlower : ∀ c ∈ (moduleName service).toList, isWordChar c = true ∨ c = '_' :=
    fun c hc => isWordChar_moduleName hc
  have hhead := head?_joined_ne service.toList
  by_cases htable :
      keywords.contains (String.ofList (guarded (['_'].intercalate (words service.toList)))) = true
  · have hname : moduleName service
        = String.ofList (guarded (['_'].intercalate (words service.toList))) ++ "_" := by
      unfold moduleName
      dsimp only
      rw [if_pos htable]
    obtain ⟨hne, hfirst⟩ := guarded_start hhead
    rw [hname] at hchars ⊢
    exact legal_append hne hchars hfirst
  · have hname : moduleName service
        = String.ofList (guarded (['_'].intercalate (words service.toList))) := by
      unfold moduleName
      dsimp only
      rw [if_neg htable]
    rw [hname] at hchars hlower ⊢
    rw [String.toList_ofList] at hchars hlower
    apply legal_guarded hhead hchars
    intro hmem
    rcases mem_rustWords_cases hmem with hlisted | hleft | hself
    · exact htable (List.contains_iff_mem.2 hlisted)
    · exact h _ hleft (words_of_guarded hleft rfl)
    · have hcapital : 'S' ∈ guarded (['_'].intercalate (words service.toList)) := by
        rw [← String.toList_ofList (l := guarded _), hself]
        decide
      cases hlower 'S' hcapital with
      | inl hword => exact absurd hword (by decide)
      | inr hunderscore => exact absurd hunderscore (by decide)

/-- **Legal identifiers.** Whatever the names are, the constant of a tool is a legal identifier, and
the module of a service is one unless the only word of its name is one of the reserved words that
the table of keywords leaves out; then it is called by this word. -/
theorem legal_identifiers (name : String) :
    Legal (constant name) ∧
    (Legal (moduleName name) ↔ ∀ w ∈ unlisted, words name.toList ≠ [w.toList]) ∧
    ∀ w ∈ unlisted, words name.toList = [w.toList] → moduleName name = w := by
  refine ⟨legal_constant name, ⟨?_, ?_⟩, fun w hw h => moduleName_of_unlisted hw h⟩
  · intro h w hw hwords
    have hmem : moduleName name ∈ rustWords := by
      rw [moduleName_of_unlisted hw hwords]
      exact mem_rustWords_of_unlisted hw
    exact h.keyword hmem
  · exact legal_of_words

/-- A file with a service whose name is reserved, but not in the table. -/
def reservedFile : SourceFile :=
  ⟨"jobs.proto", "jobs", "jobs", true,
    [⟨"Do", "jobs.Do", [⟨"Run", "jobs.Do.Run", "jobs.Query", "jobs.Answer", false, false, ""⟩]⟩]⟩

end Identifier

namespace Render

open Identifier (Legal reservedFile)

/-- The file has a text, and a module that it declares is called by a keyword. -/
theorem reservedFile_names :
    ∃ a text is, (Generator.generate ⟨.empty, fun _ => false, 64⟩ reservedFile).result
        = .ok (some a) ∧
      rustText a = .ok text ∧ readText? text = some is ∧ "do" ∈ typeNames is ∧ ¬ Legal "do" := by
  have hidentifiers : (Generator.generate ⟨.empty, fun _ => false, 64⟩ reservedFile).artifact?.map
      identifiers = some (["DO_RUN"], ["do"]) := by decide +kernel
  obtain ⟨a, text, hresult, htext, -, hmodules⟩ := exists_rustText hidentifiers
    (by decide) (by decide)
  have hinline : Inline a := inline_of_artifact? (by decide +kernel) hresult
  refine ⟨a, text, _, hresult, htext, readText?_rustText htext hinline, ?_, ?_⟩
  · rw [typeNames_declared, hmodules]
    decide
  · intro hlegal
    exact hlegal.keyword (by decide)

end Render
end McpCatalog
