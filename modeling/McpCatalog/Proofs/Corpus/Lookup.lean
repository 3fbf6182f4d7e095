import Mathlib.Data.List.Nodup
import McpCatalog.Corpus
import McpCatalog.Proofs.Dict
/-!
# Looking up declarations

A full name is a scope and a name with a dot between them. If the name itself has no dot,
both can be told from the full name. Where no two messages have the same full name, the
pool and the entries of a request have every declaration, whatever the order.

Results:
* `qualify_inj`: the scope and the name of a full name.
* `get?_entries`, `message?_poolOf`, `enum?_poolOf`: what is found under a name.
* `Pool.ext_lookup`: a pool is determined by its look-ups.
-/
namespace McpCatalog

/-! ## Full names -/

theorem toList_qualify (scope name : String) :
    (qualify scope name).toList
      = (if scope.isEmpty then [] else scope.toList ++ ['.']) ++ name.toList := by
  unfold qualify
  split <;> simp

/-- Read backwards, a full name has its name up to the first dot. -/
theorem takeWhile_reverse_qualify (scope : String) {name : String} (h : '.' ∉ name.toList) :
    (qualify scope name).toList.reverse.takeWhile (· != '.') = name.toList.reverse := by
  have hall : ∀ c ∈ name.toList.reverse, (c != '.') = true := fun c hc => by
    rw [bne_iff_ne]
    rintro rfl
    exact h (List.mem_reverse.1 hc)
  rw [toList_qualify, List.reverse_append, List.takeWhile_append_of_pos hall]
  split <;> simp

theorem qualify_inj {scope scope' name name' : String} (h : '.' ∉ name.toList)
    (h' : '.' ∉ name'.toList) (heq : qualify scope name = qualify scope' name') :
    scope = scope' ∧ name = name' := by
  have hname : name = name' := by
    rw [← String.toList_inj, ← List.reverse_inj, ← takeWhile_reverse_qualify scope h,
      ← takeWhile_reverse_qualify scope' h', heq]
  subst hname
  refine ⟨?_, rfl⟩
  rw [← String.toList_inj, toList_qualify, toList_qualify] at heq
  have hfront := List.append_cancel_right heq
  by_cases hs : scope.isEmpty = true <;> by_cases hs' : scope'.isEmpty = true
  · rw [String.isEmpty_iff.1 hs, String.isEmpty_iff.1 hs']
  · simp [hs, hs'] at hfront
  · simp [hs, hs'] at hfront
  · exact String.toList_inj.1 (by simpa [hs, hs'] using hfront)

/-! ## Distinct names -/

namespace Request

/-- No two messages have the same full name. -/
def DistinctMessages (r : Request) : Prop :=
  (r.messages.map (·.1)).Nodup

/-- No two enumerations have the same full name. -/
def DistinctEnums (r : Request) : Prop :=
  (r.enums.map (·.1)).Nodup

section
variable {r : Request}

theorem DistinctMessages.eq_of_mem (h : r.DistinctMessages) {n : String} {d d' : MessageDecl}
    (hd : (n, d) ∈ r.messages) (hd' : (n, d') ∈ r.messages) : d = d' :=
  congrArg Prod.snd (List.inj_on_of_nodup_map h hd hd' rfl)

theorem mem_ordinary {n : String} {d : MessageDecl} :
    (n, d) ∈ r.ordinary ↔ (n, d) ∈ r.messages ∧ d.isMapEntry = false := by
  simp [ordinary]

theorem get?_entries (h : r.DistinctMessages) {n : String} {d : MessageDecl} :
    r.entries.get? n = some d ↔ (n, d) ∈ r.messages ∧ d.isMapEntry = true := by
  have hn : ((r.messages.filter fun m => m.2.isMapEntry).map (·.1)).Nodup :=
    h.sublist (List.filter_sublist.map _)
  rw [entries, ← Dict.mem_entries_iff, Dict.mem_entries_ofList hn, List.mem_filter]

end
end Request

/-! ## The pool -/

/-- Of elements with different keys the only one with a key is found from either end. -/
theorem find?_reverse_eq_some_iff {α : Type} {key : α → String} {l : List α}
    (h : (l.map key).Nodup) {k : String} {a : α} :
    (l.reverse.find? fun b => key b == k) = some a ↔ a ∈ l ∧ key a = k := by
  constructor
  · intro ha
    exact ⟨List.mem_reverse.1 (List.mem_of_find?_eq_some ha), by simpa using List.find?_some ha⟩
  · rintro ⟨ha, rfl⟩
    have hsome : (l.reverse.find? fun b => key b == key a).isSome = true :=
      List.find?_isSome.2 ⟨a, List.mem_reverse.2 ha, by simp⟩
    obtain ⟨b, hb⟩ := Option.isSome_iff_exists.1 hsome
    have hbl : b ∈ l := List.mem_reverse.1 (List.mem_of_find?_eq_some hb)
    have hkey : key b = key a := by simpa using List.find?_some hb
    rw [hb, List.inj_on_of_nodup_map h hbl ha hkey]

theorem Pool.ext_lookup {p q : Pool} (hm : ∀ n, p.message? n = q.message? n)
    (he : ∀ n, p.enum? n = q.enum? n) : p = q := by
  cases p
  cases q
  obtain rfl := Dict.get?_ext hm
  obtain rfl := Dict.get?_ext he
  rfl

namespace Corpus

variable {r : Request}

theorem message?_poolOf (h : r.DistinctMessages) {n : String} {m : Message} :
    (poolOf r).message? n = some m
      ↔ ∃ d, (n, d) ∈ r.ordinary ∧ message r.entries (n, d) = m := by
  have hn : ((r.ordinary.map (message r.entries)).map (·.fullName)).Nodup := by
    rw [List.map_map]
    exact h.sublist (List.filter_sublist.map _)
  rw [poolOf, Pool.message?_ofTypes, find?_reverse_eq_some_iff hn]
  constructor
  · rintro ⟨hm, rfl⟩
    obtain ⟨⟨n, d⟩, hd, rfl⟩ := List.mem_map.1 hm
    exact ⟨d, hd, rfl⟩
  · rintro ⟨d, hd, rfl⟩
    exact ⟨List.mem_map_of_mem hd, rfl⟩

theorem enum?_poolOf (h : r.DistinctEnums) {n : String} {e : EnumType} :
    (poolOf r).enum? n = some e ↔ ∃ d, (n, d) ∈ r.enums ∧ enumType (n, d) = e := by
  have hn : ((r.enums.map enumType).map (·.fullName)).Nodup := by
    rw [List.map_map]
    exact h
  rw [poolOf, Pool.enum?_ofTypes, find?_reverse_eq_some_iff hn]
  constructor
  · rintro ⟨he, rfl⟩
    obtain ⟨⟨n, d⟩, hd, rfl⟩ := List.mem_map.1 he
    exact ⟨d, hd, rfl⟩
  · rintro ⟨d, hd, rfl⟩
    exact ⟨List.mem_map_of_mem hd, rfl⟩

end Corpus
end McpCatalog
