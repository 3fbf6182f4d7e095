import Mathlib.Data.List.TakeWhile
import McpCatalog.Text.Blank
/-!
# Trimmed texts

Trimming takes off blanks at both ends and nothing else, so that it does not matter how many of them
there are, and nothing that is not blank is moved or lost.

Results:
* `padded_trim`: a text is what trimming leaves, between blanks.
* `Padded.trim_eq`: blanks at the ends make no difference.
* `isBlank_head_trim`, `isBlank_last_trim`: what trimming leaves has no blank at its ends.
* `trimmed_iff`: this is what trimming is.
* `trim_middle`: around a character that is not blank, the two sides are trimmed on their own.
-/
namespace McpCatalog.Text

/-- There are only blanks in the text. -/
def Blank (cs : List Char) : Prop :=
  ∀ c ∈ cs, isBlank c = true

/-- The second text is the first one between blanks. -/
def Padded (cs padded : List Char) : Prop :=
  ∃ ws ws', Blank ws ∧ Blank ws' ∧ padded = ws ++ (cs ++ ws')

section
variable {cs ws : List Char}

theorem Blank.append (h : Blank cs) (h' : Blank ws) : Blank (cs ++ ws) := by
  intro c hc
  rcases List.mem_append.1 hc with hc | hc
  · exact h c hc
  · exact h' c hc

theorem Blank.reverse (h : Blank ws) : Blank ws.reverse :=
  fun c hc => h c (List.mem_reverse.1 hc)

theorem trimStart_append_left (h : Blank ws) (cs : List Char) :
    trimStart (ws ++ cs) = trimStart cs :=
  List.dropWhile_append_of_pos h

theorem trimStart_eq_nil_iff : trimStart cs = [] ↔ Blank cs :=
  List.dropWhile_eq_nil_iff

theorem exists_trimStart (cs : List Char) : ∃ ws, Blank ws ∧ cs = ws ++ trimStart cs := by
  refine ⟨cs.takeWhile isBlank, ?_, List.takeWhile_append_dropWhile.symm⟩
  intro c hc
  exact List.mem_takeWhile_imp hc

theorem exists_trimEnd (cs : List Char) : ∃ ws, Blank ws ∧ cs = trimEnd cs ++ ws := by
  obtain ⟨ws, hws, hcs⟩ := exists_trimStart cs.reverse
  refine ⟨ws.reverse, hws.reverse, ?_⟩
  rw [trimEnd, ← List.reverse_append, ← hcs, List.reverse_reverse]

theorem padded_trim (cs : List Char) : Padded (trim cs) cs := by
  obtain ⟨ws, hws, hcs⟩ := exists_trimStart cs
  obtain ⟨ws', hws', hcs'⟩ := exists_trimEnd (trimStart cs)
  exact ⟨ws, ws', hws, hws', by rw [trim, ← hcs', ← hcs]⟩

theorem padded_of_trim {padded : List Char} (h : trim padded = cs) : Padded cs padded :=
  h ▸ padded_trim padded

theorem trimEnd_append_right (h : Blank ws) (cs : List Char) : trimEnd (cs ++ ws) = trimEnd cs := by
  unfold trimEnd
  rw [List.reverse_append, trimStart_append_left h.reverse]

/-- Only blanks in front of what is not blank are taken off. -/
theorem trimStart_append_of_not_blank (h : ¬ Blank cs) (cs' : List Char) :
    trimStart (cs ++ cs') = trimStart cs ++ cs' := by
  obtain ⟨ws, hws, hcs⟩ := exists_trimStart cs
  cases hrest : trimStart cs with
  | nil => exact absurd (trimStart_eq_nil_iff.1 hrest) h
  | cons c rest =>
    have hc : isBlank c = false := by
      have hhead := isBlank_head_trimStart cs c
      rw [hrest] at hhead
      exact hhead rfl
    rw [hcs, hrest, List.append_assoc, trimStart_append_left hws, List.cons_append,
      trimStart_cons_ne_blank hc]

theorem trimEnd_append_of_not_blank (h : ¬ Blank cs) (cs' : List Char) :
    trimEnd (cs' ++ cs) = cs' ++ trimEnd cs := by
  have hreverse : ¬ Blank cs.reverse := fun hblank => h (by simpa using hblank.reverse)
  unfold trimEnd
  rw [List.reverse_append, trimStart_append_of_not_blank hreverse, List.reverse_append,
    List.reverse_reverse]

theorem trim_eq_nil_iff : trim cs = [] ↔ Blank cs := by
  constructor
  · intro h
    obtain ⟨ws, ws', hws, hws', hcs⟩ := padded_trim cs
    rw [hcs, h]
    exact hws.append hws'
  · intro h
    rw [trim, trimStart_eq_nil_iff.2 h]
    rfl

theorem trim_append_left (h : Blank ws) (cs : List Char) : trim (ws ++ cs) = trim cs := by
  rw [trim, trimStart_append_left h, trim]

theorem trim_append_right (h : Blank ws) (cs : List Char) : trim (cs ++ ws) = trim cs := by
  by_cases hcs : Blank cs
  · rw [trim_eq_nil_iff.2 hcs, trim_eq_nil_iff.2 (hcs.append h)]
  · rw [trim, trimStart_append_of_not_blank hcs, trimEnd_append_right h, trim]

theorem Padded.trim_eq {padded : List Char} (h : Padded cs padded) : trim padded = trim cs := by
  obtain ⟨ws, ws', hws, hws', rfl⟩ := h
  rw [trim_append_left hws, trim_append_right hws']

theorem Padded.not_mem {padded : List Char} {c : Char} (h : Padded cs padded)
    (hc : isBlank c = false) (hcs : c ∉ cs) : c ∉ padded := by
  obtain ⟨ws, ws', hws, hws', rfl⟩ := h
  have hblank : ∀ ws, Blank ws → c ∉ ws := fun ws hws hmem => by simp [hws c hmem] at hc
  simp [hblank ws hws, hblank ws' hws', hcs]

theorem trimStart_of_head (h : ∀ c ∈ cs.head?, isBlank c = false) : trimStart cs = cs := by
  cases cs with
  | nil => rfl
  | cons c cs => exact trimStart_cons_ne_blank (h c rfl)

/-- A text without blanks at its ends stays as it is. -/
theorem trim_of_ends (hhead : ∀ c ∈ cs.head?, isBlank c = false)
    (hlast : ∀ c ∈ cs.getLast?, isBlank c = false) : trim cs = cs := by
  have hreverse : trimStart cs.reverse = cs.reverse :=
    trimStart_of_head (by simpa only [List.head?_reverse] using hlast)
  rw [trim, trimStart_of_head hhead, trimEnd, hreverse, List.reverse_reverse]

theorem trim_of_no_blank (h : ∀ c ∈ cs, isBlank c = false) : trim cs = cs :=
  trim_of_ends (fun c hc => h c (List.mem_of_mem_head? hc))
    fun c hc => h c (List.mem_of_mem_getLast? hc)

theorem trim_trimStart (cs : List Char) : trim (trimStart cs) = trim cs := by
  rw [trim, trimStart_idem, trim]

theorem trim_trimEnd (cs : List Char) : trim (trimEnd cs) = trim cs := by
  obtain ⟨ws, hws, hcs⟩ := exists_trimEnd cs
  have htrim := trim_append_right hws (trimEnd cs)
  rw [← hcs] at htrim
  exact htrim.symm

/-- Trimming twice changes nothing. -/
theorem trim_idem (cs : List Char) : trim (trim cs) = trim cs :=
  (padded_trim cs).trim_eq.symm

theorem isBlank_head_trim (cs : List Char) : ∀ c ∈ (trim cs).head?, isBlank c = false := by
  intro c hc
  obtain ⟨ws, -, hcs⟩ := exists_trimEnd (trimStart cs)
  have hend : (trimEnd (trimStart cs)).head? = some c := hc
  have hstart : (trimStart cs).head? = some c := by
    rw [hcs, List.head?_append, hend, Option.some_or]
  exact isBlank_head_trimStart cs c hstart

theorem isBlank_last_trim (cs : List Char) : ∀ c ∈ (trim cs).getLast?, isBlank c = false := by
  intro c hc
  rw [trim, trimEnd, List.getLast?_reverse] at hc
  exact isBlank_head_trimStart _ c hc

/-- The second text is the first one without the blanks at its ends. -/
structure Trimmed (padded cs : List Char) : Prop where
  padded : Padded cs padded
  head : ∀ c ∈ cs.head?, isBlank c = false
  last : ∀ c ∈ cs.getLast?, isBlank c = false

theorem trimmed_iff {padded : List Char} : Trimmed padded cs ↔ cs = trim padded := by
  constructor
  · intro h
    rw [h.padded.trim_eq, trim_of_ends h.head h.last]
  · rintro rfl
    exact ⟨padded_trim padded, isBlank_head_trim padded, isBlank_last_trim padded⟩

theorem trim_middle {c : Char} (hc : isBlank c = false) (cs cs' : List Char) :
    trim (cs ++ c :: cs') = trimStart cs ++ c :: trimEnd cs' := by
  have hstart : trimStart (cs ++ c :: cs') = trimStart cs ++ c :: cs' := by
    by_cases hcs : Blank cs
    · rw [trimStart_append_left hcs, trimStart_cons_ne_blank hc, trimStart_eq_nil_iff.2 hcs,
        List.nil_append]
    · exact trimStart_append_of_not_blank hcs _
  have hend : trimEnd (c :: cs') = c :: trimEnd cs' := by
    by_cases hcs : Blank cs'
    · have hempty : trimEnd cs' = [] := by
        rw [trimEnd, trimStart_eq_nil_iff.2 hcs.reverse]
        rfl
      rw [← List.singleton_append, trimEnd_append_right hcs, hempty, trimEnd,
        List.reverse_singleton, trimStart_cons_ne_blank hc]
      rfl
    · exact trimEnd_append_of_not_blank hcs [c]
  have hne : ¬ Blank (c :: cs') := fun h => by simp [h c List.mem_cons_self] at hc
  rw [trim, hstart, trimEnd_append_of_not_blank hne, hend]

end

end McpCatalog.Text
