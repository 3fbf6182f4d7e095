import McpCatalog.Proofs.Text.Blank
import McpCatalog.Proofs.Text.Split
import McpCatalog.Tool.Description
/-!
# What a description keeps of a comment

A comment is a row of lines. The description has the same lines in the same order, trimmed, without
those that are directives. Its own lines are clean: trimming has nothing left to take off, and
brings no directive to light. So a description describes itself, and the description of two comments
is that of one and that of the other, unless nothing is left of one of them.

Results:
* `describes_iff`: what a comment is described by.
* `splitOn_description`: the lines of a description.
* `description_laws`: descriptions of descriptions and of comments that are put together.
-/
namespace McpCatalog.Comment

/-! ## Rules -/

/-- The line starts with what tells other programs that it is for them. -/
def Directive (line : List Char) : Prop :=
  "buf:lint:".toList <+: line ∨ "@ignore-comment".toList <+: line

/-- The lines that are kept of the given ones, trimmed and in order. -/
inductive Keeps : List (List Char) → List (List Char) → Prop
  | nil : Keeps [] []
  | drop {raw line : List Char} {lines kept : List (List Char)} (htrim : Text.Trimmed raw line)
    (h : Directive line) (hrest : Keeps lines kept) : Keeps (raw :: lines) kept
  | keep {raw line : List Char} {lines kept : List (List Char)} (htrim : Text.Trimmed raw line)
    (h : ¬ Directive line) (hrest : Keeps lines kept) : Keeps (raw :: lines) (line :: kept)

/-- The comment is some lines with newlines between them, and the description is what is kept of
them with newlines between. -/
def Describes (comment description : String) : Prop :=
  ∃ lines kept, lines ≠ [] ∧ (∀ line ∈ lines, '\n' ∉ line) ∧ Keeps lines kept ∧
    comment.toList = ['\n'].intercalate lines ∧ description.toList = ['\n'].intercalate kept

/-- There is no blank at the ends of the line, and it is no directive. -/
structure Clean (line : List Char) : Prop where
  head : ∀ c ∈ line.head?, Text.isBlank c = false
  last : ∀ c ∈ line.getLast?, Text.isBlank c = false
  not_directive : ¬ Directive line

/-- Some line of the comment is no directive. -/
def HasText (comment : String) : Prop :=
  ∃ line ∈ comment.toList.splitOn '\n', ¬ Directive (Text.trim line)

/-! ## Lines that are kept -/

theorem isDirective_iff {line : List Char} : isDirective line = true ↔ Directive line := by
  simp [isDirective, directives, Directive]

/-- The lines that are kept. -/
def keptOf (lines : List (List Char)) : List (List Char) :=
  (lines.map Text.trim).filter fun line => !isDirective line

theorem keptOf_cons_of_directive {line : List Char} (h : Directive (Text.trim line))
    (lines : List (List Char)) : keptOf (line :: lines) = keptOf lines := by
  simp [keptOf, isDirective_iff.2 h]

theorem keptOf_cons_of_not_directive {line : List Char} (h : ¬ Directive (Text.trim line))
    (lines : List (List Char)) : keptOf (line :: lines) = Text.trim line :: keptOf lines := by
  rw [← isDirective_iff] at h
  simp [keptOf, h]

theorem keptOf_append (lines lines' : List (List Char)) :
    keptOf (lines ++ lines') = keptOf lines ++ keptOf lines' := by
  simp [keptOf]

theorem keeps_iff {lines kept : List (List Char)} : Keeps lines kept ↔ kept = keptOf lines := by
  constructor
  · intro h
    induction h with
    | nil => rfl
    | drop htrim h _ ih =>
      obtain rfl := Text.trimmed_iff.1 htrim
      rw [keptOf_cons_of_directive h, ih]
    | keep htrim h _ ih =>
      obtain rfl := Text.trimmed_iff.1 htrim
      rw [keptOf_cons_of_not_directive h, ih]
  · rintro rfl
    induction lines with
    | nil => exact .nil
    | cons raw lines ih =>
      have htrim : Text.Trimmed raw (Text.trim raw) := Text.trimmed_iff.2 rfl
      by_cases h : Directive (Text.trim raw)
      · rw [keptOf_cons_of_directive h]
        exact .drop htrim h ih
      · rw [keptOf_cons_of_not_directive h]
        exact .keep htrim h ih

theorem lines_eq (comment : List Char) : lines comment = keptOf (comment.splitOn '\n') := rfl

theorem exists_of_mem_lines {comment line : List Char} (h : line ∈ lines comment) :
    (∃ raw ∈ comment.splitOn '\n', line = Text.trim raw) ∧ ¬ Directive line := by
  obtain ⟨hline, hkept⟩ := List.mem_filter.1 h
  obtain ⟨raw, hraw, rfl⟩ := List.mem_map.1 hline
  refine ⟨⟨raw, hraw, rfl⟩, ?_⟩
  rw [← isDirective_iff]
  simpa using hkept

theorem newline_not_mem_lines {comment line : List Char} (h : line ∈ lines comment) :
    '\n' ∉ line := by
  obtain ⟨⟨raw, hraw, rfl⟩, -⟩ := exists_of_mem_lines h
  intro hmem
  obtain ⟨ws, ws', -, -, hpadded⟩ := Text.padded_trim raw
  exact Text.not_mem_of_mem_splitOn hraw (by rw [hpadded]; simp [hmem])

theorem clean_of_mem_lines {comment line : List Char} (h : line ∈ lines comment) : Clean line := by
  obtain ⟨⟨raw, -, rfl⟩, hdirective⟩ := exists_of_mem_lines h
  exact ⟨Text.isBlank_head_trim raw, Text.isBlank_last_trim raw, hdirective⟩

/-- Lines that are kept are kept as they are. -/
theorem keptOf_lines (comment : List Char) : keptOf (lines comment) = lines comment := by
  have htrim : (lines comment).map Text.trim = lines comment := by
    refine (List.map_congr_left fun line hline => ?_).trans (List.map_id _)
    obtain ⟨⟨raw, -, rfl⟩, -⟩ := exists_of_mem_lines hline
    exact Text.trim_idem raw
  rw [keptOf, htrim, List.filter_eq_self]
  intro line hline
  have hdirective := (exists_of_mem_lines hline).2
  rw [← isDirective_iff] at hdirective
  simpa using hdirective

theorem lines_ne_nil_iff {comment : String} : lines comment.toList ≠ [] ↔ HasText comment := by
  rw [lines_eq, keptOf, Ne, List.filter_eq_nil_iff]
  simp [HasText, isDirective_iff]

/-! ## Descriptions -/

theorem describes_iff {comment text : String} :
    Describes comment text ↔ text = description comment := by
  constructor
  · rintro ⟨raws, kept, hne, hraws, hkept, hcomment, htext⟩
    rw [keeps_iff] at hkept
    rw [← String.toList_inj, htext, description_eq, lines_eq, hcomment,
      List.splitOn_intercalate '\n' hraws hne, hkept]
  · rintro rfl
    exact ⟨comment.toList.splitOn '\n', lines comment.toList, List.splitOn_ne_nil _ _,
      fun _ => Text.not_mem_of_mem_splitOn, keeps_iff.2 (lines_eq _),
      (List.intercalate_splitOn '\n').symm, description_eq comment⟩

/-- The lines of a description are those that were kept, or one empty line if there are none. -/
theorem splitOn_description (comment : String) :
    (description comment).toList.splitOn '\n' = lines comment.toList ∨
      lines comment.toList = [] ∧ (description comment).toList.splitOn '\n' = [[]] := by
  rw [description_eq]
  by_cases hne : lines comment.toList = []
  · rw [hne]
    exact .inr ⟨rfl, rfl⟩
  · exact .inl (List.splitOn_intercalate '\n' (fun _ => newline_not_mem_lines) hne)

theorem clean_nil : Clean [] :=
  ⟨by simp, by simp, by simp [Directive]⟩

theorem clean_of_mem_description {comment : String} {line : List Char}
    (h : line ∈ (description comment).toList.splitOn '\n') : Clean line := by
  rcases splitOn_description comment with hlines | ⟨-, hempty⟩
  · rw [hlines] at h
    exact clean_of_mem_lines h
  · rw [hempty, List.mem_singleton] at h
    rw [h]
    exact clean_nil

theorem description_description (comment : String) :
    description (description comment) = description comment := by
  rw [← String.toList_inj, description_eq, description_eq comment, lines_eq]
  rcases splitOn_description comment with hlines | ⟨hnone, hempty⟩
  · rw [description_eq] at hlines
    rw [hlines, keptOf_lines]
  · rw [description_eq] at hempty
    rw [hempty, hnone]
    rfl

theorem description_append {a b : String} (ha : HasText a) (hb : HasText b) :
    description (a ++ "\n" ++ b) = description a ++ "\n" ++ description b := by
  have hlines : lines (a ++ "\n" ++ b).toList = lines a.toList ++ lines b.toList := by
    have hchars : (a ++ "\n" ++ b).toList = a.toList ++ '\n' :: b.toList := by simp
    rw [lines_eq, lines_eq, lines_eq, hchars, List.splitOn_append_cons_self, keptOf_append]
  rw [← String.toList_inj, description_eq, hlines,
    Text.intercalate_append (lines_ne_nil_iff.2 ha) (lines_ne_nil_iff.2 hb)]
  simp [description_eq]

/-- **Descriptions.** A description describes itself; its lines have no blanks at their ends and are
no directives; and two comments that both have text are described by their descriptions, one below
the other. -/
theorem description_laws :
    (∀ comment, description (description comment) = description comment) ∧
    (∀ comment, ∀ line ∈ (description comment).toList.splitOn '\n', Clean line) ∧
    ∀ a b, HasText a → HasText b →
      description (a ++ "\n" ++ b) = description a ++ "\n" ++ description b :=
  ⟨description_description, fun _ _ => clean_of_mem_description, fun _ _ => description_append⟩

/-- Of two lines and one line, the directive is left out and the others are trimmed. -/
theorem description_laws_greeting :
    HasText " Says hello.\n\tbuf:lint:ignore NAME" ∧ HasText "Twice. " ∧
      description (" Says hello.\n\tbuf:lint:ignore NAME" ++ "\n" ++ "Twice. ")
        = "Says hello." ++ "\n" ++ "Twice." := by
  have hfirst : HasText " Says hello.\n\tbuf:lint:ignore NAME" := lines_ne_nil_iff.1 (by decide)
  have hsecond : HasText "Twice. " := lines_ne_nil_iff.1 (by decide)
  refine ⟨hfirst, hsecond, ?_⟩
  rw [description_laws.2.2 _ _ hfirst hsecond]
  decide

end McpCatalog.Comment
