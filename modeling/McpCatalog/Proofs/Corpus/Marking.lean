import McpCatalog.Proofs.Corpus.Lookup
import McpCatalog.Proofs.Schema.Parts
/-!
# From declarations to schemas

A declaration marks its fields: one belongs to a group of the message by the index of the
group, another must be present by an option. On the way to a schema the index becomes the
name of the group, and the option becomes the full name of the field in one set for all
messages, in which the values of maps are as well.

Results:
* `declaredOneof_fieldOf_eq_some_iff`: the group of a field, by index and by name.
* `contains_requiredOf_iff`: the set has the full name of a field if and only if this
  field is annotated.
* `Corpus.describedBy_of_declared`: wherever a declared message is unfolded, its schema says of the
  fields what their declarations say.
-/
namespace McpCatalog

/-- The name of a field; empty if it is absent. -/
def FieldDecl.simpleName (f : FieldDecl) : String :=
  f.name.getD ""

def NamedDecl.simpleName (d : NamedDecl) : String :=
  d.name.getD ""

/-! ## Groups -/

/-- The field belongs to a group that the message declares. A group that was made up for an optional
field does not count. -/
def MessageDecl.Grouped (m : MessageDecl) (f : FieldDecl) : Prop :=
  ∃ i : Nat, f.oneofIndex = some (i : Int) ∧ i < m.oneofs.length ∧ f.proto3Optional ≠ some true

section
variable {entries : Dict MessageDecl} {path : List String} {scope : String} {m : MessageDecl}
  {f : FieldDecl}

theorem name_plain : f.plain.name = f.simpleName := by
  unfold FieldDecl.plain
  dsimp only
  split <;> split <;> rfl

theorem oneof_plain : f.plain.oneof = none := by
  unfold FieldDecl.plain
  dsimp only
  split <;> split <;> rfl

theorem fieldOf_eq_place : ∃ field, fieldOf entries path scope m f = m.place scope f field ∧
    field.name = f.simpleName ∧ field.oneof = none := by
  rw [fieldOf]
  refine ⟨_, rfl, ?_, ?_⟩
  · split
    · exact name_plain
    · rfl
  · split
    · exact oneof_plain
    · rfl

theorem name_fieldOf : (fieldOf entries path scope m f).name = f.simpleName := by
  obtain ⟨field, heq, hname, -⟩ := fieldOf_eq_place
  rw [heq, ← hname, MessageDecl.place]
  split <;> rfl

theorem oneof_fieldOf : (fieldOf entries path scope m f).oneof = m.oneof? f := by
  obtain ⟨field, heq, -, honeof⟩ := fieldOf_eq_place
  rw [heq, MessageDecl.place]
  split
  · next h => rw [h]; rfl
  · next h => rw [h]; exact honeof

theorem declaredOneof_fieldOf_eq_some_iff {g : String} :
    (fieldOf entries path scope m f).declaredOneof = some g ↔
      f.proto3Optional ≠ some true ∧
        ∃ i : Nat, f.oneofIndex = some (i : Int) ∧
          ∃ o, m.oneofs[i]? = some o ∧ o.simpleName = g := by
  rw [Field.declaredOneof, oneof_fieldOf, MessageDecl.oneof?]
  cases hi : f.oneofIndex with
  | none => simp
  | some j =>
    cases j with
    | negSucc k => simp
    | ofNat i =>
      have hindex : ∀ i' : Nat, (some (Int.ofNat i) = some (i' : Int)) ↔ i' = i := by simp; omega
      simp only [hindex, exists_eq_left]
      cases m.oneofs[i]? with
      | none => simp
      | some o => by_cases hp : f.proto3Optional = some true <;> simp [hp, NamedDecl.simpleName]

/-- The group of a field by its index. -/
theorem grouped_iff :
    m.Grouped f ↔ ∃ g, (fieldOf entries path scope m f).declaredOneof = some g := by
  simp only [declaredOneof_fieldOf_eq_some_iff]
  constructor
  · rintro ⟨i, hi, hlt, hp⟩
    exact ⟨_, hp, i, hi, m.oneofs[i], List.getElem?_eq_getElem hlt, rfl⟩
  · rintro ⟨g, hp, i, hi, o, ho, -⟩
    exact ⟨i, hi, (List.getElem?_eq_some_iff.1 ho).1, hp⟩

theorem declaredOneof_fieldOf_eq_none_iff :
    (fieldOf entries path scope m f).declaredOneof = none ↔ ¬ m.Grouped f := by
  rw [grouped_iff, ← Option.ne_none_iff_exists', not_not]

/-- In a message whose groups have different names, fields have one group if they have one index. -/
theorem declaredOneof_fieldOf_eq_iff (hm : (m.oneofs.map (·.simpleName)).Nodup) {f' : FieldDecl}
    (hf : m.Grouped f) (hf' : m.Grouped f') :
    (fieldOf entries path scope m f).declaredOneof = (fieldOf entries path scope m f').declaredOneof
      ↔ f.oneofIndex = f'.oneofIndex := by
  obtain ⟨i, hi, hlt, hp⟩ := hf
  obtain ⟨i', hi', hlt', hp'⟩ := hf'
  have hgroup : (fieldOf entries path scope m f).declaredOneof = some m.oneofs[i].simpleName :=
    declaredOneof_fieldOf_eq_some_iff.2 ⟨hp, i, hi, _, List.getElem?_eq_getElem hlt, rfl⟩
  have hgroup' : (fieldOf entries path scope m f').declaredOneof = some m.oneofs[i'].simpleName :=
    declaredOneof_fieldOf_eq_some_iff.2 ⟨hp', i', hi', _, List.getElem?_eq_getElem hlt', rfl⟩
  have hindex : m.oneofs[i].simpleName = m.oneofs[i'].simpleName ↔ i = i' := by
    have hlt : i < (m.oneofs.map (·.simpleName)).length := by simpa using hlt
    have hlt' : i' < (m.oneofs.map (·.simpleName)).length := by simpa using hlt'
    have hinj : (m.oneofs.map (·.simpleName))[i] = (m.oneofs.map (·.simpleName))[i'] ↔ i = i' :=
      hm.getElem_inj_iff
    simpa using hinj
  rw [hgroup, hgroup', hi, hi', Option.some_inj, Option.some_inj, hindex]
  omega

end

/-! ## Required fields -/

theorem FieldDecl.some_entry_iff {entries : Dict MessageDecl} {path : List String}
    {f : FieldDecl} {t : String} {e : MessageDecl} :
    f.entry? entries path = some (t, e) ↔
      f.isRepeated = true ∧ f.reference? = some t ∧ t ∉ path ∧ entries.get? t = some e := by
  constructor
  · intro h
    unfold entry? at h
    split at h
    · next hrepeated =>
      split at h
      · next t' htype =>
        split at h
        · simp at h
        · next hp =>
          obtain ⟨e', he, heq⟩ := Option.map_eq_some_iff.1 h
          obtain ⟨rfl, rfl⟩ := Prod.mk.inj heq
          exact ⟨hrepeated, htype, hp, he⟩
      · simp at h
    · simp at h
  · rintro ⟨hrepeated, htype, hp, he⟩
    unfold entry?
    simp [hrepeated, htype, hp, he]

theorem get?_of_entry? {entries : Dict MessageDecl} {path : List String} {f : FieldDecl}
    {t : String} {e : MessageDecl} (h : f.entry? entries path = some (t, e)) :
    entries.get? t = some e :=
  (FieldDecl.some_entry_iff.1 h).2.2.2

/-- A name is recorded for the field itself or for the values of a map. -/
theorem eq_or_exists_of_mem_requiredNames {entries : Dict MessageDecl} {path : List String}
    {scope : String} {f : FieldDecl} {x : String} (h : x ∈ requiredNames entries path scope f) :
    (x = f.fullName scope ∧ f.isRequired = true) ∨
      ∃ t e v, entries.get? t = some e ∧ v ∈ e.fields ∧ x = v.fullName t := by
  fun_induction requiredNames entries path scope f with
  | case1 path scope f ih =>
    rcases List.mem_append.1 h with h | h
    · split at h
      · next hf => exact .inl ⟨List.mem_singleton.1 h, hf⟩
      · simp at h
    · split at h
      · simp at h
      · next t e he =>
        split at h
        · next v hv =>
          rcases ih t e he v h with ⟨hx, -⟩ | hrest
          · exact .inr ⟨t, e, v, get?_of_entry? he, List.mem_of_find?_eq_some hv, hx⟩
          · exact .inr hrest
        · simp at h

theorem fullName_mem_requiredNames {entries : Dict MessageDecl} {path : List String}
    {scope : String} {f : FieldDecl} (h : f.isRequired = true) :
    f.fullName scope ∈ requiredNames entries path scope f := by
  rw [requiredNames, if_pos h]
  simp

namespace Request

/-- Messages can be told apart by their full names, fields and groups by their names inside a
message, and the names of fields have no dots. -/
structure WellNamed (r : Request) : Prop where
  messages : r.DistinctMessages
  fields : ∀ m ∈ r.messages, (m.2.fields.map (·.simpleName)).Nodup
  undotted : ∀ m ∈ r.messages, ∀ f ∈ m.2.fields, '.' ∉ f.simpleName.toList
  oneofs : ∀ m ∈ r.messages, (m.2.oneofs.map (·.simpleName)).Nodup

variable {r : Request}

/-- A full name belongs to one field only. -/
theorem WellNamed.field_inj (h : r.WellNamed) {n n' : String} {d d' : MessageDecl}
    (hd : (n, d) ∈ r.messages) (hd' : (n', d') ∈ r.messages) {f f' : FieldDecl}
    (hf : f ∈ d.fields) (hf' : f' ∈ d'.fields) (heq : f.fullName n = f'.fullName n') :
    n = n' ∧ d = d' ∧ f = f' := by
  obtain ⟨rfl, hname⟩ := qualify_inj (h.undotted _ hd f hf) (h.undotted _ hd' f' hf') heq
  obtain rfl := h.messages.eq_of_mem hd hd'
  exact ⟨rfl, rfl, List.inj_on_of_nodup_map (h.fields _ hd) hf hf' hname⟩

end Request

namespace Corpus

variable {r : Request}

theorem contains_requiredOf_iff {x : String} :
    (requiredOf r).contains x = true
      ↔ ∃ m ∈ r.ordinary, ∃ f ∈ m.2.fields, x ∈ requiredNames r.entries [] m.1 f := by
  rw [Dict.contains, ← Dict.mem_keys_iff, requiredOf, Dict.mem_keys_ofList]
  simp

/-- The names that are recorded for map entries are none of this message. -/
theorem contains_requiredOf_fullName (h : r.WellNamed) {n : String} {d : MessageDecl}
    (hd : (n, d) ∈ r.ordinary) {f : FieldDecl} (hf : f ∈ d.fields) :
    (requiredOf r).contains (f.fullName n) = true ↔ f.isRequired = true := by
  obtain ⟨hmem, hordinary⟩ := Request.mem_ordinary.1 hd
  rw [contains_requiredOf_iff]
  constructor
  · rintro ⟨⟨n', d'⟩, hd', f', hf', hx⟩
    rcases eq_or_exists_of_mem_requiredNames hx with ⟨heq, hrequired⟩ | ⟨t, e, v, he, hv, heq⟩
    · obtain ⟨-, -, rfl⟩ :=
        h.field_inj hmem (Request.mem_ordinary.1 hd').1 hf hf' heq
      exact hrequired
    · obtain ⟨he, hentry⟩ := (Request.get?_entries h.messages).1 he
      obtain ⟨-, rfl, -⟩ := h.field_inj hmem he hf hv heq
      simp [hordinary] at hentry
  · intro hrequired
    exact ⟨(n, d), hd, f, hf, fullName_mem_requiredNames hrequired⟩

end Corpus

/-! ## Schemas -/

/-- The schema says of the fields of a message what their declarations say. -/
structure MessageDecl.DescribedBy (d : MessageDecl) (s : Json) : Prop where
  properties : ∀ f ∈ d.fields, s.Declares f.simpleName ↔ ¬ d.Grouped f
  required : ∀ f ∈ d.fields, s.Requires f.simpleName ↔
    ¬ d.Grouped f ∧ ∃ o, f.options = some o ∧ 2 ∈ o.behaviors
  groups : ∀ f ∈ d.fields, ∀ f' ∈ d.fields, d.Grouped f → d.Grouped f' →
    (s.OffersBoth f.simpleName f'.simpleName ↔ f.oneofIndex = f'.oneofIndex)

namespace Corpus

variable {r : Request}

theorem isRequired_iff {f : FieldDecl} :
    f.isRequired = true ↔ ∃ o, f.options = some o ∧ 2 ∈ o.behaviors := by
  simp [FieldDecl.isRequired, FieldDecl.requiredBehavior, Option.any_eq_true]

/-- A name is that of one field of the message only. -/
theorem exists_field_iff (h : r.WellNamed) {n : String} {d : MessageDecl}
    (hd : (n, d) ∈ r.messages) (p : Field → Prop) {f : FieldDecl} (hf : f ∈ d.fields) :
    (∃ x ∈ (message r.entries (n, d)).fields, p x ∧ x.name = f.simpleName)
      ↔ p (fieldOf r.entries [] n d f) := by
  constructor
  · rintro ⟨x, hx, hp, hname⟩
    obtain ⟨f', hf', rfl⟩ := List.mem_map.1 hx
    rw [name_fieldOf] at hname
    exact List.inj_on_of_nodup_map (h.fields _ hd) hf' hf hname ▸ hp
  · intro hp
    exact ⟨_, List.mem_map_of_mem hf, hp, name_fieldOf⟩

/-- The schema of a declared message at any path. -/
theorem describedBy_messageShape (h : r.WellNamed) {n : String} {d : MessageDecl}
    (hd : (n, d) ∈ r.ordinary) (path : List String) :
    d.DescribedBy ((poolOf r).messageShape (.ofNames (requiredOf r)) path
      (message r.entries (n, d))).schema := by
  obtain ⟨hmem, -⟩ := Request.mem_ordinary.1 hd
  rw [schema_messageShape]
  constructor
  · intro f hf
    rw [Schema.declares_ofMembers, exists_field_iff h hmem (fun x => x.declaredOneof = none) hf,
      declaredOneof_fieldOf_eq_none_iff]
  · intro f hf
    rw [Schema.requires_ofMembers, exists_field_iff h hmem
        (fun x => x.declaredOneof = none ∧ Requirement.ofNames (requiredOf r) x = true) hf,
      declaredOneof_fieldOf_eq_none_iff, Requirement.ofNames, fieldOf_fullName,
      contains_requiredOf_fullName h hd hf, isRequired_iff]
  · intro f hf f' hf' hg hg'
    have hgroup : ∀ g, ∀ f ∈ d.fields,
        (∃ x ∈ (message r.entries (n, d)).fields, x.declaredOneof = some g ∧ x.name = f.simpleName)
          ↔ (fieldOf r.entries [] n d f).declaredOneof = some g :=
      fun g f hf => exists_field_iff h hmem (fun x => x.declaredOneof = some g) hf
    rw [Schema.offersBoth_ofMembers, ← declaredOneof_fieldOf_eq_iff (h.oneofs _ hmem) hg hg']
    simp only [hgroup _ f hf, hgroup _ f' hf']
    constructor
    · rintro ⟨g, hfg, hfg'⟩
      exact hfg.trans hfg'.symm
    · intro heq
      obtain ⟨g, hfg⟩ := grouped_iff.1 hg
      exact ⟨g, hfg, heq ▸ hfg⟩

/-- The builder over the types and the required fields of a corpus. -/
def builder (c : Corpus) : Builder :=
  .new c.pool (.ofNames c.required)

/-- **From declarations to schemas.** Every declared message that does not stand for the entries of
a map is in the pool, and its schema says of each field what its declaration says; so does every
schema of it that stands inside the schema of another message. -/
theorem describedBy_of_declared (r : Request) (h : r.WellNamed) {n : String} {d : MessageDecl}
    (hd : (n, d) ∈ r.messages) (hordinary : d.isMapEntry = false) :
    (∃ m, (ofRequest r).pool.message? n = some m ∧
      d.DescribedBy ((ofRequest r).builder.messageSchema m).1) ∧
    ∀ n₀ root members, (ofRequest r).pool.message? n₀ = some root →
      Shape.Within (.message n members)
        ((ofRequest r).pool.messageShape (ofRequest r).builder.required [] root) →
      d.DescribedBy (Shape.message n members).schema := by
  have hd : (n, d) ∈ r.ordinary := Request.mem_ordinary.2 ⟨hd, hordinary⟩
  refine ⟨⟨_, (message?_poolOf h.messages).2 ⟨d, hd, rfl⟩, describedBy_messageShape h hd []⟩, ?_⟩
  intro n₀ root members hroot hwithin
  obtain ⟨path, m, hm, heq⟩ := within_messageShape hroot hwithin
  obtain ⟨d', hd', rfl⟩ := (message?_poolOf h.messages).1 hm
  obtain rfl := h.messages.eq_of_mem (Request.mem_ordinary.1 hd).1 (Request.mem_ordinary.1 hd').1
  rw [heq]
  exact describedBy_messageShape h hd path

/-- A message with a required field, a group of two fields and a map whose values are marked as
required as well. -/
def bookDecl : MessageDecl :=
  { name := some "Book"
    fields := [
      ⟨some "title", some 1, some 1, some 9, none, some ⟨[2]⟩, none, none⟩,
      ⟨some "isbn", some 2, some 1, some 9, none, none, some 0, none⟩,
      ⟨some "doi", some 3, some 1, some 9, none, none, some 0, some false⟩,
      ⟨some "note", some 4, some 1, some 9, none, none, some 1, some true⟩,
      ⟨some "tags", some 5, some 3, some 11, some ".library.Book.TagsEntry", none, none, none⟩]
    nested := [
      { name := some "TagsEntry"
        fields := [
          ⟨some "key", some 1, some 1, some 9, none, none, none, none⟩,
          ⟨some "value", some 2, some 1, some 9, none, some ⟨[2]⟩, none, none⟩]
        nested := [], enums := [], options := some ⟨some true⟩, oneofs := [] }]
    enums := [], options := none, oneofs := [⟨some "id"⟩, ⟨some "_note"⟩] }

def bookRequest : Request :=
  ⟨[], none, [⟨some "book.proto", some "library", [bookDecl], [], [], none⟩]⟩

theorem describedBy_of_declared_bookDecl :
    bookRequest.WellNamed ∧ ("library.Book", bookDecl) ∈ bookRequest.messages ∧
      bookDecl.isMapEntry = false ∧
      ∃ m, (ofRequest bookRequest).pool.message? "library.Book" = some m ∧
        bookDecl.DescribedBy ((ofRequest bookRequest).builder.messageSchema m).1 := by
  -- the message comes behind the one that is declared in it
  have hmessages : bookRequest.messages.map (·.1) = ["library.Book.TagsEntry", "library.Book"] := by
    decide
  have h : bookRequest.WellNamed :=
    ⟨by rw [Request.DistinctMessages, hmessages]; decide, by decide, by decide, by decide⟩
  have hd : ("library.Book", bookDecl) ∈ bookRequest.messages := .tail _ (.head _)
  exact ⟨h, hd, rfl, (describedBy_of_declared bookRequest h hd rfl).1⟩

end Corpus
end McpCatalog
