import Mathlib.Data.List.Forall2
import Mathlib.Logic.Relation
import McpCatalog.Proofs.Json.Inside
import McpCatalog.Proofs.Json.Normal
/-!
# Equal values have equal texts

An object is a map from names to values: in what order its members are written does not matter, and
of members with one name the last counts. Two values are the same if they are built alike from
objects that agree as maps. The canonical text is the same for the same values, and for no others.

Results:
* `same_iff_normal_eq`: values are the same if and only if they are equal once they are in order.
* `canonical_eq_iff`: texts are equal if and only if the values are the same.
* `Swapped.normal_eq`, `canonical_eq_of_swaps`: one change of the order of members, and many.
* `Ordered.eq_of_same`: values in order are the same only if they are equal.
-/
namespace McpCatalog.Json

/-! ## Objects as maps -/

/-- The two are one value, where objects are maps from names to values. -/
inductive Same : Json → Json → Prop
  | null : Same .null .null
  | bool (b : Bool) : Same (.bool b) (.bool b)
  | int (n : Int) : Same (.int n) (.int n)
  | str (s : String) : Same (.str s) (.str s)
  | arr {items items' : List Json} (h : List.Forall₂ Same items items') :
    Same (.arr items) (.arr items')
  | obj {ms ms' : List (String × Json)}
    (hnames : ∀ name, (member? ms name).isSome = (member? ms' name).isSome)
    (h : ∀ name v w, member? ms name = some v → member? ms' name = some w → Same v w) :
    Same (.obj ms) (.obj ms')

theorem mem_of_member? {ms : List (String × Json)} {name : String} {v : Json}
    (h : member? ms name = some v) : (name, v) ∈ ms :=
  mem_of_mem_canonicalOrder (mem_canonicalOrder.2 h)

theorem member?_map (f : Json → Json) (ms : List (String × Json)) (name : String) :
    member? (ms.map fun m => (m.1, f m.2)) name = (member? ms name).map f :=
  Dict.get?_ofList_map (fun _ _ => id) (fun m => f m.2) ms name

/-- Members in order are determined by the map that they stand for. -/
theorem canonicalOrder_inj {ms ms' : List (String × Json)} :
    canonicalOrder ms = canonicalOrder ms' ↔ ∀ name, member? ms name = member? ms' name := by
  constructor
  · intro h name
    ext v
    rw [← mem_canonicalOrder, h, mem_canonicalOrder]
  · intro h
    suffices hdict : Dict.ofList (ms.map fun m => (quoted m.1, m))
        = Dict.ofList (ms'.map fun m => (quoted m.1, m)) by
      rw [canonicalOrder, hdict, canonicalOrder]
    apply Dict.get?_ext
    intro key
    by_cases hkey : ∃ name, quoted name = key
    · obtain ⟨name, rfl⟩ := hkey
      have hname : (Dict.ofList ms).get? name = (Dict.ofList ms').get? name := h name
      rw [Dict.get?_ofList_map quoted_injective (fun m => m),
        Dict.get?_ofList_map quoted_injective (fun m => m), hname]
    · have hnone (ms : List (String × Json)) :
          (Dict.ofList (ms.map fun m => (quoted m.1, m))).get? key = none := by
        rw [Option.eq_none_iff_forall_not_mem]
        intro m hm
        obtain ⟨m', -, heq⟩ := List.mem_map.1 (Dict.mem_of_mem_ofList (Dict.mem_entries_iff.2 hm))
        exact hkey ⟨_, (Prod.mk.inj heq).1⟩
      rw [hnone, hnone]

/-! ## Same values -/

section
variable {R : Json → Json → Prop} {f : Json → Json} {items items' : List Json}

theorem map_eq_of_related (h : List.Forall₂ R items items')
    (hf : ∀ v ∈ items, ∀ w ∈ items', R v w → f v = f w) : items.map f = items'.map f := by
  induction h with
  | nil => rfl
  | cons hvw _ ih =>
    rw [List.map_cons, List.map_cons, hf _ List.mem_cons_self _ List.mem_cons_self hvw,
      ih fun v hv w hw => hf v (List.mem_cons_of_mem _ hv) w (List.mem_cons_of_mem _ hw)]

theorem related_of_map_eq (h : items.map f = items'.map f)
    (hR : ∀ v ∈ items, ∀ w, f v = f w → R v w) : List.Forall₂ R items items' := by
  induction items generalizing items' with
  | nil =>
    rw [List.map_nil, eq_comm, List.map_eq_nil_iff] at h
    rw [h]
    exact .nil
  | cons v items ih =>
    rw [List.map_cons, eq_comm, List.map_eq_cons_iff] at h
    obtain ⟨w, rest, rfl, hw, hrest⟩ := h
    exact .cons (hR v List.mem_cons_self w hw.symm)
      (ih hrest.symm fun u hu => hR u (List.mem_cons_of_mem _ hu))

end

/-- Two maps agree if they have the same names and agree at each of them. -/
theorem map_member?_eq {ms ms' : List (String × Json)} {f : Json → Json}
    (hnames : ∀ name, (member? ms name).isSome = (member? ms' name).isSome)
    (h : ∀ name v w, member? ms name = some v → member? ms' name = some w → f v = f w)
    (name : String) : (member? ms name).map f = (member? ms' name).map f := by
  have hsome := hnames name
  cases hv : member? ms name with
  | none =>
    rw [hv, Option.isSome_none, eq_comm, Option.isSome_eq_false_iff,
      Option.isNone_iff_eq_none] at hsome
    rw [hsome]
  | some v =>
    rw [hv, Option.isSome_some, eq_comm] at hsome
    obtain ⟨w, hw⟩ := Option.isSome_iff_exists.1 hsome
    rw [hw, Option.map_some, Option.map_some, h name v w hv hw]

theorem Same.normal_eq {v w : Json} (h : Same v w) : v.normal = w.normal := by
  induction v using Json.induct generalizing w with
  | arr items ih =>
    cases h with
    | arr h => rw [normal_arr, normal_arr, map_eq_of_related h fun v hv w _ => ih v hv]
  | obj ms ih =>
    cases h with
    | obj hnames h =>
      have hmembers := map_member?_eq hnames fun name v w hv hw =>
        ih _ (mem_of_member? hv) (h name v w hv hw)
      rw [normal, normal, Json.obj.injEq, canonicalOrder_inj]
      simpa only [normalMembers_eq, member?_map] using hmembers
  | _ =>
    cases h
    rfl

theorem same_of_normal_eq {v w : Json} (h : v.normal = w.normal) : Same v w := by
  induction v using induct generalizing w with
  | null =>
    cases w with
    | null => exact .null
    | _ => simp [normal] at h
  | bool b =>
    cases w with
    | bool b' => exact Json.bool.inj h ▸ .bool b
    | _ => simp [normal] at h
  | int n =>
    cases w with
    | int n' => exact Json.int.inj h ▸ .int n
    | _ => simp [normal] at h
  | str s =>
    cases w with
    | str s' => exact Json.str.inj h ▸ .str s
    | _ => simp [normal] at h
  | arr items ih =>
    cases w with
    | arr items' =>
      rw [normal_arr, normal_arr, Json.arr.injEq] at h
      exact .arr (related_of_map_eq h fun v hv w => ih v hv)
    | _ => simp [normal] at h
  | obj ms ih =>
    cases w with
    | obj ms' =>
      rw [normal, normal, Json.obj.injEq, canonicalOrder_inj] at h
      simp only [normalMembers_eq, member?_map] at h
      refine .obj (fun name => ?_) fun name v w hv hw => ?_
      · have hsome := congrArg Option.isSome (h name)
        rwa [Option.isSome_map, Option.isSome_map] at hsome
      · have hsome := h name
        rw [hv, hw, Option.map_some, Option.map_some, Option.some.injEq] at hsome
        exact ih _ (mem_of_member? hv) hsome
    | _ => simp [normal] at h

/-- Values are the same if and only if they are equal once their members are in order. -/
theorem same_iff_normal_eq {v w : Json} : Same v w ↔ v.normal = w.normal :=
  ⟨Same.normal_eq, same_of_normal_eq⟩

/-- Texts are equal if and only if the values are the same. -/
theorem canonical_eq_iff {v w : Json} : v.canonical = w.canonical ↔ Same v w := by
  rw [same_iff_normal_eq]
  constructor
  · intro h
    have hv := read?_canonical v
    rw [h, read?_canonical] at hv
    exact (Option.some.inj hv).symm
  · intro h
    rw [canonical_eq_compact, canonical_eq_compact, h]

/-! ## The order of members -/

/-- In one object of the value, two members next to each other change places. -/
inductive Swapped : Json → Json → Prop
  | here (before after : List (String × Json)) {m m' : String × Json} (hne : m.1 ≠ m'.1) :
    Swapped (.obj (before ++ m :: m' :: after)) (.obj (before ++ m' :: m :: after))
  | item (before after : List Json) {v w : Json} (h : Swapped v w) :
    Swapped (.arr (before ++ v :: after)) (.arr (before ++ w :: after))
  | member (before after : List (String × Json)) (name : String) {v w : Json} (h : Swapped v w) :
    Swapped (.obj (before ++ (name, v) :: after)) (.obj (before ++ (name, w) :: after))

theorem member?_swap (before after : List (String × Json)) {m m' : String × Json}
    (hne : m.1 ≠ m'.1) (name : String) :
    member? (before ++ m :: m' :: after) name = member? (before ++ m' :: m :: after) name := by
  have hdict (d : Dict Json) :
      (d.insert m.1 m.2).insert m'.1 m'.2 = (d.insert m'.1 m'.2).insert m.1 m.2 := by
    apply Dict.get?_ext
    intro k
    simp only [Dict.get?_insert]
    by_cases hk : k = m.1
    · rw [if_pos hk, if_pos hk, if_neg fun hk' => hne (hk.symm.trans hk')]
    · rw [if_neg hk, if_neg hk]
  simp only [member?, Dict.ofList, List.foldl_append, List.foldl_cons, hdict]

/-- A change of places makes no difference once the members are in order. -/
theorem Swapped.normal_eq {v w : Json} (h : Swapped v w) : v.normal = w.normal := by
  induction h with
  | here before after hne =>
    rw [normal_obj, normal_obj, canonicalOrder_inj.2 (member?_swap before after hne)]
  | item before after h ih =>
    rw [normal_arr, normal_arr, List.map_append, List.map_cons, ih, List.map_append, List.map_cons]
  | member before after name h ih =>
    rw [normal, normal, normalMembers_eq, normalMembers_eq, List.map_append, List.map_cons, ih,
      List.map_append, List.map_cons]

theorem normal_eq_of_swaps {v w : Json} (h : Relation.ReflTransGen Swapped v w) :
    v.normal = w.normal := by
  induction h with
  | refl => rfl
  | tail _ hswap ih => exact ih.trans hswap.normal_eq

theorem canonical_eq_of_swaps {v w : Json} (h : Relation.ReflTransGen Swapped v w) :
    v.canonical = w.canonical := by
  rw [canonical_eq_compact, canonical_eq_compact, normal_eq_of_swaps h]

/-! ## Values in order -/

theorem orderedItems_iff {items : List Json} : OrderedItems items ↔ ∀ v ∈ items, v.Ordered := by
  induction items with
  | nil => simp [OrderedItems]
  | cons v items ih => rw [OrderedItems, ih, List.forall_mem_cons]

theorem orderedMembers_iff {ms : List (String × Json)} :
    OrderedMembers ms ↔ ∀ m ∈ ms, m.2.Ordered := by
  induction ms with
  | nil => simp [OrderedMembers]
  | cons m ms ih => rw [OrderedMembers, ih, List.forall_mem_cons]

theorem ordered_of_inside {v : Json} (h : ∀ ms, Inside (.obj ms) v → Entries.Ordered ms) :
    v.Ordered := by
  induction v using induct with
  | arr items ih =>
    rw [Ordered, orderedItems_iff]
    exact fun v hv => ih v hv fun ms hms => h ms (.item hv hms)
  | obj ms ih =>
    rw [Ordered, orderedMembers_iff]
    exact ⟨h ms .refl, fun m hm => ih m hm fun ms' hms => h ms' (.member hm hms)⟩
  | _ => trivial

theorem member?_of_ordered {ms : List (String × Json)} (h : Entries.Ordered ms) (name : String) :
    member? ms name = ms.lookup name := by
  rw [member?, Dict.get?, Dict.entries_ofList h]

/-- Values in order are the same only if they are equal. -/
theorem Ordered.eq_of_same {v w : Json} (hv : v.Ordered) (hw : w.Ordered) (h : Same v w) :
    v = w := by
  induction v using Json.induct generalizing w with
  | arr items ih =>
    cases h with
    | arr h =>
      rw [Ordered, orderedItems_iff] at hv hw
      have hitems := map_eq_of_related (f := id) h fun v hmem w hmem' =>
        ih v hmem (hv v hmem) (hw w hmem')
      rw [List.map_id, List.map_id] at hitems
      rw [hitems]
  | obj ms ih =>
    cases h with
    | @obj _ ms' hnames h =>
      rw [Ordered, orderedMembers_iff] at hv hw
      have hmap := map_member?_eq (f := id) hnames fun name v w hmem hmem' =>
        ih _ (mem_of_member? hmem) (hv.2 _ (mem_of_member? hmem))
          (hw.2 _ (mem_of_member? hmem')) (h name v w hmem hmem')
      rw [Entries.ext_lookup hv.1 hw.1 fun name => by
        rw [← member?_of_ordered hv.1, ← member?_of_ordered hw.1]
        simpa using hmap name]
  | _ =>
    cases h
    rfl

end McpCatalog.Json
