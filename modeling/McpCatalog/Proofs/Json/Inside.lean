import McpCatalog.Proofs.Dict
/-!
# Values inside values

What stands inside a value: the value itself, and what stands inside its items and members.

Results:
* `inside_arr_iff`, `inside_obj_iff`: what stands inside an array and inside an object.
* `of_inside_object`: what stands inside an object that is put in order.
-/
namespace McpCatalog.Json

/-- The value is part of another one, or is it. -/
inductive Inside (w : Json) : Json → Prop
  | refl : Inside w w
  | item {items : List Json} {v : Json} (hv : v ∈ items) (h : Inside w v) : Inside w (.arr items)
  | member {ms : List (String × Json)} {m : String × Json} (hm : m ∈ ms) (h : Inside w m.2) :
    Inside w (.obj ms)

variable {w : Json}

theorem inside_arr_iff {items : List Json} :
    Inside w (.arr items) ↔ w = .arr items ∨ ∃ v ∈ items, Inside w v := by
  constructor
  · intro h
    cases h with
    | refl => exact .inl rfl
    | item hv h => exact .inr ⟨_, hv, h⟩
  · rintro (rfl | ⟨v, hv, h⟩)
    · exact .refl
    · exact .item hv h

theorem inside_obj_iff {ms : List (String × Json)} :
    Inside w (.obj ms) ↔ w = .obj ms ∨ ∃ m ∈ ms, Inside w m.2 := by
  constructor
  · intro h
    cases h with
    | refl => exact .inl rfl
    | member hm h => exact .inr ⟨_, hm, h⟩
  · rintro (rfl | ⟨m, hm, h⟩)
    · exact .refl
    · exact .member hm h

theorem inside_str_iff {s : String} : Inside w (.str s) ↔ w = .str s := by
  constructor
  · intro h
    cases h
    rfl
  · rintro rfl
    exact .refl

theorem inside_bool_iff {b : Bool} : Inside w (.bool b) ↔ w = .bool b := by
  constructor
  · intro h
    cases h
    rfl
  · rintro rfl
    exact .refl

/-- Inside an object that is put in order there are only the values that it is made from. -/
theorem of_inside_object {ms : List (String × Json)} (h : Inside w (object ms)) :
    w = object ms ∨ ∃ m ∈ ms, Inside w m.2 := by
  rcases inside_obj_iff.1 h with h | ⟨m, hm, h⟩
  · exact .inl h
  · exact .inr ⟨m, Dict.mem_of_mem_ofList hm, h⟩

end McpCatalog.Json
