/-!
# Texts that are split and joined

A text is split at a separator into pieces without it, and pieces without it are joined to a text
that is split into them again.

Results:
* `eq_false_of_mem_splitOnP`, `not_mem_of_mem_splitOn`: there is no separator in a piece.
* `mem_of_mem_splitOn`: a piece has nothing but what was split.
* `mem_intercalate`: what is joined consists of the pieces and the separator.
* `intercalate_append`: joined rows of pieces are joined by the separator.
* `splitOn_append`: what stands in front of a text is in front of its first piece.
-/
namespace McpCatalog.Text

theorem eq_false_of_mem_splitOnP {p : Char → Bool} {cs w : List Char} {c : Char}
    (hw : w ∈ cs.splitOnP p) (hc : c ∈ w) : p c = false := by
  induction cs generalizing w with
  | nil =>
    rw [List.splitOnP_nil, List.mem_singleton] at hw
    rw [hw] at hc
    cases hc
  | cons d cs ih =>
    rw [List.splitOnP_cons_eq_if_modifyHead] at hw
    cases hd : p d with
    | true =>
      rw [if_pos hd, List.mem_cons] at hw
      cases hw with
      | inl hw =>
        rw [hw] at hc
        cases hc
      | inr hw => exact ih hw hc
    | false =>
      rw [if_neg (by simp [hd])] at hw
      obtain ⟨first, rest, hsplit⟩ := List.exists_cons_of_ne_nil (List.splitOnP_ne_nil p cs)
      rw [hsplit, List.modifyHead_cons, List.mem_cons] at hw
      cases hw with
      | inl hw =>
        rw [hw, List.mem_cons] at hc
        cases hc with
        | inl hc => rw [hc, hd]
        | inr hc => exact ih (by rw [hsplit]; exact List.mem_cons_self) hc
      | inr hw => exact ih (by rw [hsplit]; exact List.mem_cons_of_mem _ hw) hc

theorem not_mem_of_mem_splitOn {sep : Char} {cs piece : List Char} (h : piece ∈ cs.splitOn sep) :
    sep ∉ piece := by
  intro hsep
  rw [List.splitOn_eq_splitOnP] at h
  simpa using eq_false_of_mem_splitOnP h hsep

theorem mem_intercalate {α : Type} {sep c : α} {ws : List (List α)}
    (h : c ∈ [sep].intercalate ws) : c = sep ∨ ∃ w ∈ ws, c ∈ w := by
  induction ws with
  | nil => cases h
  | cons w ws ih =>
    cases ws with
    | nil =>
      rw [List.intercalate_singleton] at h
      exact .inr ⟨w, List.mem_cons_self, h⟩
    | cons w' ws =>
      rw [List.intercalate_cons_cons, List.mem_append, List.mem_append, List.mem_singleton] at h
      rcases h with (h | h) | h
      · exact .inr ⟨w, List.mem_cons_self, h⟩
      · exact .inl h
      · cases ih h with
        | inl hc => exact .inl hc
        | inr hc =>
          obtain ⟨v, hv, hc⟩ := hc
          exact .inr ⟨v, List.mem_cons_of_mem _ hv, hc⟩

theorem mem_intercalate_of_mem {α : Type} {sep : List α} {c : α} {w : List α} {ws : List (List α)}
    (hw : w ∈ ws) (hc : c ∈ w) : c ∈ sep.intercalate ws := by
  induction ws with
  | nil => cases hw
  | cons v ws ih =>
    cases ws with
    | nil =>
      rw [List.mem_singleton] at hw
      rwa [List.intercalate_singleton, ← hw]
    | cons v' ws =>
      rw [List.intercalate_cons_cons, List.mem_append, List.mem_append]
      cases List.mem_cons.1 hw with
      | inl hw => exact .inl (.inl (hw ▸ hc))
      | inr hw => exact .inr (ih hw)

/-- A piece has nothing but what was split. -/
theorem mem_of_mem_splitOn {α : Type} [BEq α] [LawfulBEq α] {sep c : α} {cs piece : List α}
    (h : piece ∈ cs.splitOn sep) (hc : c ∈ piece) : c ∈ cs := by
  have hmem : c ∈ [sep].intercalate (cs.splitOn sep) := mem_intercalate_of_mem h hc
  rwa [List.intercalate_splitOn] at hmem

theorem intercalate_append {α : Type} {sep : List α} {xs ys : List (List α)} (hxs : xs ≠ [])
    (hys : ys ≠ []) :
    sep.intercalate (xs ++ ys) = sep.intercalate xs ++ (sep ++ sep.intercalate ys) := by
  induction xs with
  | nil => exact absurd rfl hxs
  | cons x xs ih =>
    cases xs with
    | nil =>
      obtain ⟨y, ys, rfl⟩ := List.exists_cons_of_ne_nil hys
      rw [List.singleton_append, List.intercalate_cons_cons, List.intercalate_singleton,
        List.append_assoc]
    | cons x' xs =>
      have hrest := ih (List.cons_ne_nil _ _)
      rw [List.cons_append] at hrest
      rw [List.cons_append, List.cons_append, List.intercalate_cons_cons,
        List.intercalate_cons_cons, hrest]
      simp only [List.append_assoc]

/-- What stands in front of a text without a separator is in front of its first piece. -/
theorem splitOn_append {sep : Char} {before cs first : List Char} {rest : List (List Char)}
    (hbefore : sep ∉ before) (h : cs.splitOn sep = first :: rest) :
    (before ++ cs).splitOn sep = (before ++ first) :: rest := by
  have hcs : [sep].intercalate (first :: rest) = cs := by rw [← h, List.intercalate_splitOn]
  have hjoin : before ++ cs = [sep].intercalate ((before ++ first) :: rest) := by
    rw [← hcs]
    cases rest with
    | nil => rw [List.intercalate_singleton, List.intercalate_singleton]
    | cons piece rest =>
      rw [List.intercalate_cons_cons, List.intercalate_cons_cons, List.append_assoc before,
        List.append_assoc before]
  rw [hjoin]
  apply List.splitOn_intercalate sep ?_ (List.cons_ne_nil _ _)
  intro piece hpiece
  rw [List.mem_cons] at hpiece
  cases hpiece with
  | inl hpiece =>
    rw [hpiece, List.mem_append, not_or]
    exact ⟨hbefore, not_mem_of_mem_splitOn (h ▸ List.mem_cons_self)⟩
  | inr hpiece => exact not_mem_of_mem_splitOn (h ▸ List.mem_cons_of_mem _ hpiece)

theorem splitOn_of_not_mem {α : Type} [BEq α] [LawfulBEq α] {sep : α} {cs : List α}
    (h : sep ∉ cs) : cs.splitOn sep = [cs] := by
  have hsplit : ([sep].intercalate [cs]).splitOn sep = [cs] :=
    List.splitOn_intercalate sep (by simpa using h) (List.cons_ne_nil _ _)
  rwa [List.intercalate_singleton] at hsplit

end McpCatalog.Text
