import Mathlib.Data.List.Nodup
import McpCatalog.Proofs.Text.Split
import McpCatalog.Render.Identifier
/-!
# What identifiers are made of, and when they collide

The words of a name consist of lower-case letters and digits, so identifiers consist of ASCII
letters, digits and underscores. Identifiers are given out name by name; this fails at the first
name whose identifier is taken, and otherwise leaves a table of all names.

Results:
* `flatten_splitRun`: the words of a run are its pieces, in order.
* `isNameChar_constant`, `isNameChar_moduleName`: the characters of identifiers.
* `collision?_eq_none_iff`: there is no collision if and only if all identifiers differ.
* `exists_assign`, `get?_of_assign`: if they all differ, each name is found in the table.
-/
namespace McpCatalog.Identifier

/-! ## Characters -/

/-- What holds of the first 128 characters holds of every ASCII character. -/
theorem forall_ascii {P : Char → Prop} (h : ∀ n < 128, P (Char.ofNat n)) {c : Char}
    (hc : c.toNat < 128) : P c := by
  rw [← Char.ofNat_toNat c]
  exact h _ hc

theorem isAlphanum_eq (c : Char) : c.isAlphanum = (c.isUpper || c.isLower || c.isDigit) := rfl

theorem toNat_lt_of_isAlphanum {c : Char} (h : c.isAlphanum = true) : c.toNat < 128 := by
  have hupper : c.isUpper = decide (c.val ≥ 'A'.val ∧ c.val ≤ 'Z'.val) := rfl
  have hlower : c.isLower = (decide (c.val ≥ 'a'.val) && decide (c.val ≤ 'z'.val)) := rfl
  have hdigit : c.isDigit = (decide (c.val ≥ '0'.val) && decide (c.val ≤ '9'.val)) := rfl
  have hval : c.toNat = c.val.toNat := rfl
  simp only [isAlphanum_eq, hupper, hlower, hdigit, Bool.or_eq_true, Bool.and_eq_true,
    decide_eq_true_eq, UInt32.le_iff_toNat_le] at h
  simp at h
  omega

theorem toLower_of_isAlphanum {c : Char} (h : c.isAlphanum = true) :
    (c.toLower.isLower || c.toLower.isDigit) = true :=
  forall_ascii (P := fun c => c.isAlphanum = true → (c.toLower.isLower || c.toLower.isDigit) = true)
    (by decide +kernel) (toNat_lt_of_isAlphanum h) h

/-- The characters of words. -/
def isWordChar (c : Char) : Bool :=
  c.isLower || c.isDigit

/-- The characters of identifiers. -/
def isNameChar (c : Char) : Bool :=
  c.isAlphanum || c == '_'

theorem isAlphanum_of_isWordChar {c : Char} (h : isWordChar c = true) : c.isAlphanum = true := by
  unfold isWordChar at h
  rw [isAlphanum_eq, Bool.or_assoc, h, Bool.or_true]

theorem isNameChar_of_isWordChar {c : Char} (h : isWordChar c = true) : isNameChar c = true := by
  unfold isNameChar
  rw [isAlphanum_of_isWordChar h, Bool.true_or]

theorem isNameChar_toUpper {c : Char} (h : isWordChar c = true ∨ c = '_') :
    isNameChar c.toUpper = true := by
  cases h with
  | inl h =>
    exact forall_ascii (P := fun c => isWordChar c = true → isNameChar c.toUpper = true)
      (by decide +kernel) (toNat_lt_of_isAlphanum (isAlphanum_of_isWordChar h)) h
  | inr h =>
    rw [h]
    rfl

/-! ## Words -/

/-- The words of a run, one after the other, are the run. -/
theorem flatten_splitRun (run : List Char) : (splitRun run).flatten = run := by
  induction run using splitRun.induct with
  | case1 => rfl
  | case2 c => rfl
  | case3 c d rest hstarts ih => simp [splitRun, hstarts, ih]
  | case4 c d rest hstarts word more hsplit ih =>
    rw [hsplit, List.flatten_cons] at ih
    rw [splitRun, if_neg hstarts, hsplit]
    show (c :: word) ++ more.flatten = c :: d :: rest
    rw [List.cons_append, ih]
  | case5 c d rest hstarts hsplit ih =>
    rw [hsplit] at ih
    cases ih

theorem isWordChar_of_mem_words {name w : List Char} {c : Char} (hw : w ∈ words name)
    (hc : c ∈ w) : isWordChar c = true := by
  unfold words at hw
  obtain ⟨w', hw', rfl⟩ := List.mem_map.1 hw
  obtain ⟨run, hrun, hw'⟩ := List.mem_flatMap.1 hw'
  obtain ⟨c', hc', rfl⟩ := List.mem_map.1 hc
  have hmem : c' ∈ run := by
    rw [← flatten_splitRun run]
    exact List.mem_flatten.2 ⟨w', hw', hc'⟩
  have halnum := Text.eq_false_of_mem_splitOnP (List.mem_filter.1 hrun).1 hmem
  exact toLower_of_isAlphanum (by simpa using halnum)

theorem ne_nil_of_mem_splitRun {run w : List Char} (h : w ∈ splitRun run) : w ≠ [] := by
  induction run using splitRun.induct with
  | case1 => cases h
  | case2 c =>
    rw [splitRun, List.mem_singleton] at h
    rw [h]
    exact List.cons_ne_nil _ _
  | case3 c d rest hstarts ih =>
    rw [splitRun, if_pos hstarts, List.mem_cons] at h
    cases h with
    | inl h =>
      rw [h]
      exact List.cons_ne_nil _ _
    | inr h => exact ih h
  | case4 c d rest hstarts word more hsplit ih =>
    rw [splitRun, if_neg hstarts, hsplit] at h
    cases List.mem_cons.1 h with
    | inl h =>
      rw [h]
      exact List.cons_ne_nil _ _
    | inr h => exact ih (hsplit ▸ List.mem_cons_of_mem _ h)
  | case5 c d rest hstarts hsplit ih =>
    rw [splitRun, if_neg hstarts, hsplit, List.mem_singleton] at h
    rw [h]
    exact List.cons_ne_nil _ _

theorem ne_nil_of_mem_words {name w : List Char} (h : w ∈ words name) : w ≠ [] := by
  unfold words at h
  obtain ⟨w', hw', rfl⟩ := List.mem_map.1 h
  obtain ⟨run, -, hw'⟩ := List.mem_flatMap.1 hw'
  intro hnil
  exact ne_nil_of_mem_splitRun hw' (List.map_eq_nil_iff.1 hnil)

/-! ## Identifiers -/

theorem mem_guarded {identifier : List Char} {c : Char} (h : c ∈ guarded identifier) :
    c ∈ identifier ∨ c ∈ "_unnamed".toList := by
  unfold guarded at h
  split at h
  · exact .inr h
  · split at h
    · cases List.mem_cons.1 h with
      | inl h => exact .inr (by rw [h]; decide)
      | inr h => exact .inl h
    · exact .inl h

theorem mem_joined {name : List Char} {c : Char} (h : c ∈ ['_'].intercalate (words name)) :
    isWordChar c = true ∨ c = '_' := by
  cases Text.mem_intercalate h with
  | inl hc => exact .inr hc
  | inr hc =>
    obtain ⟨w, hw, hc⟩ := hc
    exact .inl (isWordChar_of_mem_words hw hc)

/-- What the words of a name are joined to is empty or starts with the first of them. -/
theorem joined_cases (name : List Char) :
    ['_'].intercalate (words name) = [] ∨
      ∃ c cs, ['_'].intercalate (words name) = c :: cs ∧ isWordChar c = true := by
  cases hwords : words name with
  | nil => exact .inl rfl
  | cons w ws =>
    have hw : w ∈ words name := hwords ▸ List.mem_cons_self
    obtain ⟨c, cs, rfl⟩ := List.exists_cons_of_ne_nil (ne_nil_of_mem_words hw)
    have hc : isWordChar c = true := isWordChar_of_mem_words hw List.mem_cons_self
    cases ws with
    | nil => exact .inr ⟨c, cs, List.intercalate_singleton .., hc⟩
    | cons w' ws => exact .inr ⟨c, _, by rw [List.intercalate_cons_cons]; rfl, hc⟩

/-- Words are joined to a text without underscores only if this text is the one word. -/
theorem joined_eq_iff {name w : List Char} (hne : w ≠ []) (hw : '_' ∉ w) :
    ['_'].intercalate (words name) = w ↔ words name = [w] := by
  cases words name with
  | nil => exact ⟨fun h => absurd h.symm hne, fun h => absurd h (List.cons_ne_nil _ _).symm⟩
  | cons word more =>
    cases more with
    | nil => rw [List.intercalate_singleton, List.singleton_inj]
    | cons word' more =>
      refine ⟨fun h => ?_, fun h => absurd (List.cons.inj h).2 (List.cons_ne_nil _ _)⟩
      rw [List.intercalate_cons_cons] at h
      exact absurd (h ▸ by simp) hw

theorem isNameChar_constant {key : String} {c : Char} (h : c ∈ (constant key).toList) :
    isNameChar c = true := by
  unfold constant at h
  rw [String.toList_ofList] at h
  cases mem_guarded h with
  | inl h =>
    obtain ⟨d, hd, rfl⟩ := List.mem_map.1 h
    exact isNameChar_toUpper (mem_joined hd)
  | inr h =>
    have hunnamed : "_unnamed".toList.all isNameChar = true := by decide
    exact List.all_eq_true.1 hunnamed c h

/-- The name of a module has no upper-case letter. -/
theorem isWordChar_moduleName {service : String} {c : Char} (h : c ∈ (moduleName service).toList) :
    isWordChar c = true ∨ c = '_' := by
  have hguarded : ∀ c ∈ guarded (['_'].intercalate (words service.toList)),
      isWordChar c = true ∨ c = '_' := by
    intro c hc
    cases mem_guarded hc with
    | inl hc => exact mem_joined hc
    | inr hc =>
      have hunnamed : "_unnamed".toList.all (fun c => isWordChar c || c == '_') = true := by decide
      simpa using List.all_eq_true.1 hunnamed c hc
  unfold moduleName at h
  dsimp only at h
  split at h
  · rw [String.toList_append, String.toList_ofList, List.mem_append] at h
    cases h with
    | inl h => exact hguarded c h
    | inr h => exact .inr (by simpa using h)
  · rw [String.toList_ofList] at h
    exact hguarded c h

theorem isNameChar_moduleName {service : String} {c : Char} (h : c ∈ (moduleName service).toList) :
    isNameChar c = true := by
  cases isWordChar_moduleName h with
  | inl h => exact isNameChar_of_isWordChar h
  | inr h => rw [h]; rfl

/-! ## Tables of identifiers -/

section
variable (identifier : String → String)

/-- Gives a name its identifier, unless another name has it; the first table holds the names under
their identifiers, the second the identifiers under their names. -/
def assignNext (tables : Dict String × Dict String) (name : String) :
    Except Collision (Dict String × Dict String) :=
  match tables.1.get? (identifier name) with
  | some earlier => .error ⟨earlier, name, identifier name⟩
  | none =>
    .ok (tables.1.insert (identifier name) name, tables.2.insert name (identifier name))

/-- The identifiers of some names under these names, or the first collision. -/
def assign (names : List String) : Except Collision (Dict String) :=
  (names.foldlM (assignNext identifier) (.empty, .empty)).map (·.2)

variable {identifier}

theorem collisionFrom_eq_none_iff {owners : Dict String} {names : List String} :
    collisionFrom identifier owners names = none ↔
      (∀ n ∈ names, owners.get? (identifier n) = none) ∧ (names.map identifier).Nodup := by
  induction names generalizing owners with
  | nil => simp [collisionFrom]
  | cons name rest ih =>
    rw [collisionFrom]
    cases howner : owners.get? (identifier name) with
    | some earlier => simp [howner]
    | none =>
      have hfree : ∀ n, (owners.insert (identifier name) name).get? (identifier n) = none ↔
          owners.get? (identifier n) = none ∧ identifier n ≠ identifier name := by
        intro n
        rw [Dict.get?_insert]
        split <;> simp_all
      simp only [ih, hfree, List.map_cons, List.nodup_cons, List.mem_map, List.forall_mem_cons,
        howner, true_and, not_exists, not_and]
      constructor
      · intro h
        exact ⟨fun n hn => (h.1 n hn).1, fun n hn => (h.1 n hn).2, h.2⟩
      · intro h
        exact ⟨fun n hn => ⟨h.1 n hn, h.2.1 n hn⟩, h.2.2⟩

theorem collision?_eq_none_iff {names : List String} :
    collision? identifier names = none ↔ (names.map identifier).Nodup := by
  simp [collision?, collisionFrom_eq_none_iff]

theorem foldlM_assignNext {owners assigned : Dict String} {names : List String} :
    ((names.foldlM (assignNext identifier) (owners, assigned)).map (·.2)) =
      match collisionFrom identifier owners names with
      | some c => .error c
      | none => .ok (names.foldl (fun d n => d.insert n (identifier n)) assigned) := by
  induction names generalizing owners assigned with
  | nil => rfl
  | cons name rest ih =>
    rw [List.foldlM_cons, collisionFrom]
    unfold assignNext
    dsimp only
    cases howner : owners.get? (identifier name) with
    | some earlier => rfl
    | none => exact ih

theorem assign_eq (names : List String) :
    assign identifier names =
      match collision? identifier names with
      | some c => .error c
      | none => .ok (names.foldl (fun d n => d.insert n (identifier n)) .empty) :=
  foldlM_assignNext

theorem exists_assign {names : List String} (h : (names.map identifier).Nodup) :
    ∃ d, assign identifier names = .ok d := by
  rw [assign_eq, collision?_eq_none_iff.2 h]
  exact ⟨_, rfl⟩

theorem get?_foldl_insert {names : List String} {d : Dict String} {name : String} :
    (names.foldl (fun d n => d.insert n (identifier n)) d).get? name =
      if name ∈ names then some (identifier name) else d.get? name := by
  induction names generalizing d with
  | nil => simp
  | cons n names ih =>
    rw [List.foldl_cons, ih, Dict.get?_insert]
    by_cases hname : name = n
    · simp [hname]
    · simp [hname]

/-- A table of identifiers has one for each of the names. -/
theorem get?_of_assign {names : List String} {d : Dict String}
    (h : assign identifier names = .ok d) {name : String} (hname : name ∈ names) :
    d.get? name = some (identifier name) := by
  rw [assign_eq] at h
  split at h
  · cases h
  · cases h
    rw [get?_foldl_insert, if_pos hname]

end

end McpCatalog.Identifier
