import Mathlib.Data.List.Forall2
import McpCatalog.Proofs.Render.Item
/-!
# Reading the text of a Rust module

A text starts with comments, and each item follows behind an empty line. The lines of an item are
not empty, so the empty lines tell where the items are, as long as no comment is broken. Names stand
in the comments as they are, and a line break in a name ends the comment.

Results:
* `Item.Reads.exists_lines`: an item is read back from its lines.
* `readText?_eq_some_iff`: when all items of a text are read back.
* `header_eq_frontLines`: the lines in front.
* `comments_frontLines_iff`: when they are comments, all of them.
-/
namespace McpCatalog.Render

/-- The text is what stands in front, then each item behind an empty line. -/
def Written (front : String) (is : List Item) (text : String) : Prop :=
  ∃ texts, text = front ++ String.join (texts.map ("\n" ++ ·)) ∧ List.Forall₂ Item.Reads is texts

/-- Reads an item from its lines; the first one is the comment. -/
def Item.read? : List Line → Option Item
  | [] => none
  | first :: code => do
    let comment ← first.dropPrefix? "/// ".toList
    let declares ← Declaration.read? code
    return ⟨String.ofList comment, declares⟩

/-- Reads the items of a text, each of them behind an empty line; only comments stand in front. -/
def readText? (text : String) : Option (List Item) := do
  let ls ← lines? text.toList
  match ls.splitOn [] with
  | [] => none
  | front :: groups => if front.all ("//".toList.isPrefixOf ·) then groups.mapM Item.read? else none

/-! ## Items -/

theorem Item.Reads.exists_lines {i : Item} {text : String} (h : i.Reads text)
    (hcomment : '\n' ∉ i.comment.toList) :
    ∃ ls, text.toList = unlines ls ∧ (∀ l ∈ ls, Whole l) ∧ Item.read? ls = some i := by
  obtain ⟨code, rfl, hwhole, hread⟩ := h
  refine ⟨("/// ".toList ++ i.comment.toList) :: code, ?_, ?_, ?_⟩
  · rw [unlines_cons]
    simp only [String.toList_append, String.toList_ofList]
    rfl
  · intro l hl
    rw [List.mem_cons] at hl
    cases hl with
    | inl hl =>
      rw [hl]
      exact whole_append (by decide) hcomment
    | inr hl => exact hwhole l hl
  · have hfront : ("/// ".toList ++ i.comment.toList).dropPrefix? "/// ".toList
        = some i.comment.toList := List.dropPrefix?_eq_some_iff.2 ⟨_, rfl, beq_self_eq_true _⟩
    unfold Item.read?
    dsimp only
    rw [hfront, hread]
    simp only [Option.bind_eq_bind, Option.bind_some, Option.pure_def, String.ofList_toList]

/-- The comment of an item is a part of a line. -/
theorem Item.exists_line_of_read? {g : List Line} {i : Item} (h : Item.read? g = some i) :
    ∃ l ∈ g, i.comment.toList ⊆ l := by
  unfold Item.read? at h
  split at h
  · cases h
  · next first code =>
    simp only [Option.bind_eq_bind, Option.bind_eq_some_iff, Option.pure_def,
      Option.some.injEq] at h
    obtain ⟨comment, hcomment, declares, -, rfl⟩ := h
    obtain ⟨before, rfl, -⟩ := List.dropPrefix?_eq_some_iff.1 hcomment
    refine ⟨_, List.mem_cons_self, ?_⟩
    rw [String.toList_ofList]
    exact List.subset_append_right _ _

theorem exists_groups {is : List Item} {texts : List String}
    (h : List.Forall₂ Item.Reads is texts) (hcomments : ∀ i ∈ is, '\n' ∉ i.comment.toList) :
    ∃ groups : List (List Line), texts.map String.toList = groups.map unlines ∧
      (∀ g ∈ groups, ∀ l ∈ g, Whole l) ∧ groups.mapM Item.read? = some is := by
  induction h with
  | nil => exact ⟨[], rfl, by simp, rfl⟩
  | @cons i text is texts hreads _ ih =>
    obtain ⟨groups, htexts, hwhole, hread⟩ := ih fun j hj => hcomments j (List.mem_cons_of_mem _ hj)
    obtain ⟨g, htext, hwhole', hread'⟩ := hreads.exists_lines (hcomments i List.mem_cons_self)
    refine ⟨g :: groups, by rw [List.map_cons, List.map_cons, htext, htexts], ?_, ?_⟩
    · intro g' hg'
      rw [List.mem_cons] at hg'
      cases hg' with
      | inl hg' =>
        rw [hg']
        exact hwhole'
      | inr hg' => exact hwhole g' hg'
    · rw [List.mapM_cons, hread', hread]
      rfl

/-! ## Texts -/

theorem unlines_intercalate (g : List Line) (gs : List (List Line)) :
    unlines ([[]].intercalate (g :: gs)) =
      unlines g ++ gs.flatMap fun g' => '\n' :: unlines g' := by
  induction gs generalizing g with
  | nil => simp [List.intercalate_singleton]
  | cons g' gs ih =>
    rw [List.intercalate_cons_cons, unlines_append, unlines_append, ih, List.flatMap_cons]
    simp [unlines]

/-- The lines of a text: those in front, then those of each item behind an empty line. -/
theorem Written.exists_groups {front : List Line} {is : List Item} {text : String}
    (h : Written (String.ofList (unlines front)) is text) (hfront : ∀ l ∈ front, '\n' ∉ l)
    (hcomments : ∀ i ∈ is, '\n' ∉ i.comment.toList) :
    ∃ groups : List (List Line), lines? text.toList = some ([[]].intercalate (front :: groups)) ∧
      (∀ g ∈ groups, [] ∉ g) ∧ groups.mapM Item.read? = some is := by
  obtain ⟨texts, rfl, hreads⟩ := h
  obtain ⟨groups, htexts, hwhole, hread⟩ := Render.exists_groups hreads hcomments
  have hjoin : (String.join (texts.map ("\n" ++ ·))).toList
      = groups.flatMap fun g => '\n' :: unlines g := by
    have htexts' : (texts.map String.toList).flatMap (fun cs => '\n' :: cs)
        = (groups.map unlines).flatMap fun cs => '\n' :: cs := by rw [htexts]
    rw [List.flatMap_map, List.flatMap_map] at htexts'
    rw [String.toList_join, List.flatMap_map, ← htexts']
    simp only [String.toList_append]
    rfl
  have hchars : (String.ofList (unlines front) ++ String.join (texts.map ("\n" ++ ·))).toList
      = unlines ([[]].intercalate (front :: groups)) := by
    rw [String.toList_append, String.toList_ofList, hjoin, unlines_intercalate]
  refine ⟨groups, ?_, fun g hg hnil => (hwhole g hg [] hnil).1 rfl, hread⟩
  rw [hchars]
  apply lines?_unlines
  intro l hl
  cases Text.mem_intercalate hl with
  | inl hl =>
    rw [hl]
    exact List.not_mem_nil
  | inr hl =>
    obtain ⟨g, hg, hl⟩ := hl
    rw [List.mem_cons] at hg
    cases hg with
    | inl hg => exact hfront l (hg ▸ hl)
    | inr hg => exact (hwhole g hg l hl).2

theorem splitOn_intercalate_cons {front : List Line} {groups : List (List Line)}
    (h : ∀ g ∈ groups, [] ∉ g) :
    ([[]].intercalate (front :: groups)).splitOn [] = front.splitOn [] ++ groups := by
  cases groups with
  | nil => rw [List.intercalate_singleton, List.append_nil]
  | cons g gs =>
    rw [List.intercalate_cons_cons, List.append_assoc, List.singleton_append,
      List.splitOn_append_cons_self, List.splitOn_intercalate [] h (List.cons_ne_nil _ _)]

theorem exists_of_forall₂ {α β : Type} {R : α → β → Prop} {xs : List α} {ys : List β}
    (h : List.Forall₂ R xs ys) {y : β} (hy : y ∈ ys) : ∃ x ∈ xs, R x y := by
  induction h with
  | nil => cases hy
  | cons hx _ ih =>
    cases List.mem_cons.1 hy with
    | inl hy => exact ⟨_, List.mem_cons_self, hy ▸ hx⟩
    | inr hy =>
      obtain ⟨x, hmem, hx⟩ := ih hy
      exact ⟨x, List.mem_cons_of_mem _ hmem, hx⟩

theorem forall₂_of_mapM {α β : Type} {f : α → Option β} {xs : List α} {ys : List β}
    (h : xs.mapM f = some ys) : List.Forall₂ (fun x y => f x = some y) xs ys := by
  induction xs generalizing ys with
  | nil =>
    cases h
    exact .nil
  | cons x xs ih =>
    rw [List.mapM_cons] at h
    simp only [Option.bind_eq_bind, Option.bind_eq_some_iff, Option.pure_def,
      Option.some.injEq] at h
    obtain ⟨y, hy, rest, hrest, rfl⟩ := h
    exact .cons hy (ih hrest)

/-- The comment of an item that was read is on one line. -/
theorem newline_not_mem_of_readText? {text : String} {is : List Item} (h : readText? text = some is)
    {i : Item} (hi : i ∈ is) : '\n' ∉ i.comment.toList := by
  unfold readText? at h
  rw [Option.bind_eq_bind, Option.bind_eq_some_iff] at h
  obtain ⟨ls, hls, h⟩ := h
  have hlines : ∀ l ∈ ls, '\n' ∉ l := by
    unfold lines? at hls
    split at hls
    · cases hls
      exact fun l hl => Text.not_mem_of_mem_splitOn (List.dropLast_subset _ hl)
    · cases hls
  split at h
  · cases h
  · next front groups hsplit =>
    split at h
    · obtain ⟨g, hg, hread⟩ := exists_of_forall₂ (forall₂_of_mapM h) hi
      obtain ⟨first, hfirst, hcomment⟩ := Item.exists_line_of_read? hread
      have hmem : first ∈ ls := by
        have hsplit' : g ∈ ls.splitOn [] := hsplit ▸ List.mem_cons_of_mem _ hg
        exact Text.mem_of_mem_splitOn hsplit' hfirst
      exact fun hnewline => hlines first hmem (hcomment hnewline)
    · cases h

/-- A text is read back if and only if only comments stand in front of its items, and the comment of
each item is on one line. -/
theorem readText?_eq_some_iff {front : List Line} {is : List Item} {text : String}
    (hfront : ∀ l ∈ front, '\n' ∉ l) (h : Written (String.ofList (unlines front)) is text) :
    readText? text = some is ↔ (∀ l ∈ front, "//".toList.isPrefixOf l = true) ∧
      ∀ i ∈ is, '\n' ∉ i.comment.toList := by
  by_cases hcomments : ∀ i ∈ is, '\n' ∉ i.comment.toList
  · obtain ⟨groups, hlines, hgroups, hread⟩ := h.exists_groups hfront hcomments
    obtain ⟨first, more, hsplit⟩ := List.exists_cons_of_ne_nil (List.splitOn_ne_nil [] front)
    have htext : readText? text = if first.all ("//".toList.isPrefixOf ·)
        then (more ++ groups).mapM Item.read? else none := by
      unfold readText?
      rw [hlines, Option.bind_eq_bind, Option.bind_some, splitOn_intercalate_cons hgroups, hsplit]
      rfl
    have hjoin : [[]].intercalate (first :: more) = front := by
      rw [← hsplit, List.intercalate_splitOn]
    rw [htext]
    constructor
    · intro hall
      split at hall
      · next hfirst =>
        have hlength : (more ++ groups).length = groups.length :=
          (forall₂_of_mapM hall).length_eq.trans (forall₂_of_mapM hread).length_eq.symm
        have hmore : more = [] := by simpa using hlength
        rw [hmore, List.intercalate_singleton] at hjoin
        rw [← hjoin]
        exact ⟨fun l hl => List.all_eq_true.1 hfirst l hl, hcomments⟩
      · cases hall
    · rintro ⟨hall, -⟩
      have hnil : [] ∉ front := fun hnil => absurd (hall [] hnil) (by decide)
      have hmore : first :: more = [front] := hsplit.symm.trans (Text.splitOn_of_not_mem hnil)
      obtain ⟨rfl, rfl⟩ := List.cons.inj hmore
      rw [if_pos (List.all_eq_true.2 hall), List.nil_append, hread]
  · constructor
    · intro hread
      exact absurd (fun i hi => newline_not_mem_of_readText? hread hi) hcomments
    · rintro ⟨-, hall⟩
      exact absurd hall hcomments

/-! ## Comments in front -/

def headerLines (a : Artifact) : List Line :=
  ("// @generated by ".toList ++ (generator.toList ++ ". DO NOT EDIT.".toList)) ::
    ("// source: ".toList ++ a.sourcePath.toList) ::
    if a.package.isEmpty then [] else ["// package: ".toList ++ a.package.toList]

theorem header_eq (a : Artifact) : header a = String.ofList (unlines (headerLines a)) := by
  rw [← String.toList_inj]
  have hend : ". DO NOT EDIT.\n".toList = ". DO NOT EDIT.".toList ++ "\n".toList :=
    toList_literal rfl
  unfold header headerLines
  cases hpackage : a.package.isEmpty with
  | true =>
    simp only [if_true, String.toList_append, String.toList_ofList, hend, unlines_cons,
      List.append_assoc]
    rfl
  | false =>
    simp only [Bool.false_eq_true, if_false, String.toList_append, String.toList_ofList, hend,
      unlines_cons, List.append_assoc]
    rfl

/-- The lines in front; a name with a line break takes more than one. -/
def frontLines (a : Artifact) : List Line :=
  (headerLines a).flatMap (·.splitOn '\n')

theorem newline_not_mem_frontLines {a : Artifact} : ∀ l ∈ frontLines a, '\n' ∉ l := by
  intro l hl
  obtain ⟨_, -, hl⟩ := List.mem_flatMap.1 hl
  exact Text.not_mem_of_mem_splitOn hl

theorem unlines_splitOn (cs : List Char) : unlines (cs.splitOn '\n') = cs ++ ['\n'] := by
  rw [unlines_eq_intercalate, Text.intercalate_append (List.splitOn_ne_nil _ _)
    (List.cons_ne_nil _ _), List.intercalate_splitOn]
  rfl

theorem header_eq_frontLines (a : Artifact) :
    header a = String.ofList (unlines (frontLines a)) := by
  have hlines : ∀ ls : List Line, unlines (ls.flatMap (·.splitOn '\n')) = unlines ls := by
    intro ls
    induction ls with
    | nil => rfl
    | cons l ls ih => rw [List.flatMap_cons, unlines_append, ih, unlines_splitOn, unlines_cons]
  rw [header_eq, frontLines, hlines]

/-- Behind each line break in the name stands a comment. -/
def Continues (name : String) : Prop :=
  ∀ l ∈ (name.toList.splitOn '\n').tail, "//".toList.isPrefixOf l = true

theorem continues_of_not_mem {name : String} (h : '\n' ∉ name.toList) : Continues name := by
  unfold Continues
  rw [Text.splitOn_of_not_mem h]
  exact fun l hl => nomatch hl

/-- A name behind the start of a comment makes comments if and only if it goes on with comments. -/
theorem comments_iff {before : List Char} (hbefore : '\n' ∉ "//".toList ++ before)
    (name : String) :
    (∀ l ∈ ("//".toList ++ before ++ name.toList).splitOn '\n', "//".toList.isPrefixOf l = true)
      ↔ Continues name := by
  obtain ⟨first, rest, hsplit⟩ :=
    List.exists_cons_of_ne_nil (List.splitOn_ne_nil '\n' name.toList)
  have hfirst : "//".toList.isPrefixOf ("//".toList ++ before ++ first) = true := by
    rw [List.isPrefixOf_iff_prefix, List.append_assoc]
    exact List.prefix_append _ _
  unfold Continues
  rw [Text.splitOn_append hbefore hsplit, hsplit, List.forall_mem_cons, List.tail_cons]
  exact and_iff_right hfirst

theorem comments_frontLines_iff (a : Artifact) :
    (∀ l ∈ frontLines a, "//".toList.isPrefixOf l = true)
      ↔ Continues a.sourcePath ∧ Continues a.package := by
  have hgenerated : ∀ l ∈ ("// @generated by ".toList
      ++ (generator.toList ++ ". DO NOT EDIT.".toList)).splitOn '\n',
      "//".toList.isPrefixOf l = true := by
    rw [Text.splitOn_of_not_mem (by decide +kernel)]
    decide +kernel
  have hbeforeSource : '\n' ∉ "//".toList ++ " source: ".toList := by decide
  have hbeforePackage : '\n' ∉ "//".toList ++ " package: ".toList := by decide
  have hsource := comments_iff hbeforeSource a.sourcePath
  have hpackage := comments_iff hbeforePackage a.package
  unfold frontLines headerLines
  rw [List.forall_mem_flatMap, List.forall_mem_cons, List.forall_mem_cons]
  cases hempty : a.package.isEmpty with
  | true =>
    have hnone : Continues a.package := by
      rw [String.isEmpty_iff.1 hempty]
      exact continues_of_not_mem (by decide)
    rw [if_pos rfl, and_iff_right hgenerated, and_iff_left hnone, and_iff_left (by simp)]
    exact hsource
  | false =>
    rw [if_neg (by simp), List.forall_mem_singleton, and_iff_right hgenerated]
    exact and_congr hsource hpackage

/-! ## Names in comments -/

/-- No name that is written in a comment has a line break. -/
def Inline (a : Artifact) : Prop :=
  '\n' ∉ a.sourcePath.toList ∧ '\n' ∉ a.package.toList ∧
    (∀ s ∈ a.catalog.services.keys, '\n' ∉ s.toList) ∧
    ∀ e ∈ a.catalog.tools.entries,
      '\n' ∉ e.2.requestType.toList ∧ '\n' ∉ e.2.responseType.toList

instance (a : Artifact) : Decidable (Inline a) :=
  inferInstanceAs (Decidable (_ ∧ _ ∧ _ ∧ _))

/-- No name breaks a comment: in front comments may go on with comments, but that of an item is on
one line. -/
def Unbroken (a : Artifact) : Prop :=
  Continues a.sourcePath ∧ Continues a.package ∧
    (∀ s ∈ a.catalog.services.keys, '\n' ∉ s.toList) ∧
    ∀ e ∈ a.catalog.tools.entries,
      '\n' ∉ e.2.requestType.toList ∧ '\n' ∉ e.2.responseType.toList

theorem Inline.unbroken {a : Artifact} (h : Inline a) : Unbroken a :=
  ⟨continues_of_not_mem h.1, continues_of_not_mem h.2.1, h.2.2⟩

end McpCatalog.Render
