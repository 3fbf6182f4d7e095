import McpCatalog.Proofs.Corpus.Marking
/-!
# What a corpus depends on

Messages can be declared in this or that file, at the top or inside each other, in any
order. The pool and the required fields come from what the declarations say of the
messages themselves, under their full names.

Results:
* `fieldOf_congr`, `requiredNames_congr`: a field does not depend on what is declared
  inside its message or inside the map entries that it refers to.
* `poolOf_congr`, `requiredOf_congr`: requests that declare the same types have the same
  pool and the same required fields.
-/
namespace McpCatalog

/-! ## Declarations by themselves -/

/-- What a declaration says of its message: not the name, nor what is declared inside. -/
def MessageDecl.own (d : MessageDecl) : MessageDecl :=
  { d with name := none, nested := [], enums := [] }

namespace Request

/-- The messages of a request, each by its full name and its own content. -/
def contents (r : Request) : List (String × MessageDecl) :=
  r.messages.map fun m => (m.1, m.2.own)

/-- The enumerations of a request, each by its full name and its values. -/
def enumContents (r : Request) : List (String × List NamedDecl) :=
  r.enums.map fun e => (e.1, e.2.values)

/-- The two requests declare the same messages and the same enumerations, wherever these stand, and
no two of them under one full name. -/
structure SameTypes (r r' : Request) : Prop where
  distinct : r.DistinctMessages ∧ r.DistinctEnums
  distinct' : r'.DistinctMessages ∧ r'.DistinctEnums
  messages : ∀ m, m ∈ r.contents ↔ m ∈ r'.contents
  enums : ∀ e, e ∈ r.enumContents ↔ e ∈ r'.enumContents

end Request

/-! ## Fields -/

section
variable {entries entries' : Dict MessageDecl} {path : List String} {scope : String}
  {m m' : MessageDecl} {f : FieldDecl}

theorem fieldOf_of_entry?_none (h : f.entry? entries path = none) :
    fieldOf entries path scope m f = m.place scope f f.plain := by
  rw [fieldOf]
  split <;> simp_all

theorem fieldOf_of_entry?_some {t : String} {e : MessageDecl}
    (h : f.entry? entries path = some (t, e)) :
    fieldOf entries path scope m f
      = m.place scope f (.ofMap (f.name.getD "") e.keyKind
          ((e.valueDecl?.map (fieldOf entries (t :: path) t e)).getD
            MessageDecl.defaultValue)) := by
  rw [fieldOf]
  split
  · simp_all
  · next t' e' h' =>
    obtain ⟨rfl, rfl⟩ := Prod.mk.inj (Option.some.inj (h.symm.trans h'))
    cases e.valueDecl? <;> rfl

theorem requiredNames_of_entry?_none (h : f.entry? entries path = none) :
    requiredNames entries path scope f = if f.isRequired then [f.fullName scope] else [] := by
  rw [requiredNames]
  cases hr : f.isRequired <;> simp only [Bool.false_eq_true, if_true, if_false]
  all_goals split <;> simp_all

theorem requiredNames_of_entry?_some {t : String} {e : MessageDecl}
    (h : f.entry? entries path = some (t, e)) :
    requiredNames entries path scope f = (if f.isRequired then [f.fullName scope] else [])
      ++ (e.valueDecl?.map (requiredNames entries (t :: path) t)).getD [] := by
  rw [requiredNames]
  congr 1
  split
  · simp_all
  · next t' e' h' =>
    obtain ⟨rfl, rfl⟩ := Prod.mk.inj (Option.some.inj (h.symm.trans h'))
    cases e.valueDecl? <;> rfl

/-- Dictionaries with the same messages, as far as the messages themselves go. -/
def AgreeOwn (entries entries' : Dict MessageDecl) : Prop :=
  ∀ t, (entries.get? t).map MessageDecl.own = (entries'.get? t).map MessageDecl.own

/-- A field refers to an entry message in both dictionaries or in none, if these agree in some part
of their messages. -/
theorem entry?_cases {κ : Type} {part : MessageDecl → κ}
    (h : ∀ t, (entries.get? t).map part = (entries'.get? t).map part) (path : List String)
    (f : FieldDecl) : (f.entry? entries path = none ∧ f.entry? entries' path = none) ∨
      ∃ t e e', f.entry? entries path = some (t, e) ∧ f.entry? entries' path = some (t, e') ∧
        part e = part e' := by
  unfold FieldDecl.entry?
  split
  · split
    · next t _ =>
      split
      · exact .inl ⟨rfl, rfl⟩
      · have ht := h t
        cases he : entries.get? t <;> cases he' : entries'.get? t <;> simp_all
    · exact .inl ⟨rfl, rfl⟩
  · exact .inl ⟨rfl, rfl⟩

theorem fields_congr (h : m.own = m'.own) : m.fields = m'.fields :=
  (congrArg (·.fields) h :)

theorem keyKind_congr (h : m.own = m'.own) : m.keyKind = m'.keyKind :=
  (congrArg (·.keyKind) h :)

theorem valueDecl?_congr (h : m.own = m'.own) : m.valueDecl? = m'.valueDecl? :=
  (congrArg (·.valueDecl?) h :)

theorem place_congr (h : m.own = m'.own) (scope : String) (f : FieldDecl) (field : Field) :
    m.place scope f field = m'.place scope f field :=
  (congrArg (·.place scope f field) h :)

theorem fieldOf_congr (h : AgreeOwn entries entries') (hm : m.own = m'.own) (path : List String)
    (scope : String) (f : FieldDecl) :
    fieldOf entries path scope m f = fieldOf entries' path scope m' f := by
  induction path, scope, m, f using fieldOf.induct entries generalizing m' with
  | case1 path scope m f ih =>
    rcases entry?_cases h path f with ⟨he, he'⟩ | ⟨t, e, e', he, he', hown⟩
    · rw [fieldOf_of_entry?_none he, fieldOf_of_entry?_none he', place_congr hm]
    · rw [fieldOf_of_entry?_some he, fieldOf_of_entry?_some he', place_congr hm,
        keyKind_congr hown, valueDecl?_congr hown]
      cases hv : e'.valueDecl? with
      | none => rfl
      | some v => simp only [Option.map_some, Option.getD_some, ih t e he v hown]

theorem requiredNames_congr (h : AgreeOwn entries entries') (path : List String) (scope : String)
    (f : FieldDecl) : requiredNames entries path scope f = requiredNames entries' path scope f := by
  induction path, scope, f using requiredNames.induct entries with
  | case1 path scope f ih =>
    rcases entry?_cases h path f with ⟨he, he'⟩ | ⟨t, e, e', he, he', hown⟩
    · rw [requiredNames_of_entry?_none he, requiredNames_of_entry?_none he']
    · rw [requiredNames_of_entry?_some he, requiredNames_of_entry?_some he',
        valueDecl?_congr hown]
      cases hv : e'.valueDecl? with
      | none => rfl
      | some v =>
        simp only [Option.map_some, Option.getD_some, ih t e he v]

end

/-! ## Requests -/

namespace Request

variable {r r' : Request} {n : String} {o : MessageDecl}

theorem mem_contents : (n, o) ∈ r.contents ↔ ∃ d, (n, d) ∈ r.messages ∧ d.own = o := by
  simp [contents]

theorem mem_enumContents {values : List NamedDecl} :
    (n, values) ∈ r.enumContents ↔ ∃ d, (n, d) ∈ r.enums ∧ d.values = values := by
  simp [enumContents]

theorem exists_mem_ordinary_iff :
    (∃ d, (n, d) ∈ r.ordinary ∧ d.own = o) ↔ (n, o) ∈ r.contents ∧ o.isMapEntry = false := by
  rw [mem_contents]
  constructor
  · rintro ⟨d, hd, rfl⟩
    obtain ⟨hd, hordinary⟩ := mem_ordinary.1 hd
    exact ⟨⟨d, hd, rfl⟩, hordinary⟩
  · rintro ⟨⟨d, hd, rfl⟩, hordinary⟩
    exact ⟨d, mem_ordinary.2 ⟨hd, hordinary⟩, rfl⟩

theorem map_own_entries (h : r.DistinctMessages) :
    (r.entries.get? n).map MessageDecl.own = some o ↔
      (n, o) ∈ r.contents ∧ o.isMapEntry = true := by
  rw [mem_contents, Option.map_eq_some_iff]
  constructor
  · rintro ⟨d, hd, rfl⟩
    obtain ⟨hd, hentry⟩ := (get?_entries h).1 hd
    exact ⟨⟨d, hd, rfl⟩, hentry⟩
  · rintro ⟨⟨d, hd, rfl⟩, hentry⟩
    exact ⟨d, (get?_entries h).2 ⟨hd, hentry⟩, rfl⟩

theorem SameTypes.agreeOwn_entries (h : r.SameTypes r') : AgreeOwn r.entries r'.entries := by
  intro t
  refine Option.ext fun o => ?_
  rw [map_own_entries h.distinct.1, map_own_entries h.distinct'.1, h.messages]

end Request

namespace Corpus

variable {r r' : Request} {n : String}

theorem message_congr {entries entries' : Dict MessageDecl} (h : AgreeOwn entries entries')
    {m m' : MessageDecl} (hm : m.own = m'.own) :
    message entries (n, m) = message entries' (n, m') := by
  have hfield : fieldOf entries [] n m = fieldOf entries' [] n m' :=
    funext fun f => fieldOf_congr h hm [] n f
  simp only [message, fields_congr hm, hfield]

theorem message?_poolOf_contents (h : r.DistinctMessages) {m : Message} :
    (poolOf r).message? n = some m ↔
      ∃ o, ((n, o) ∈ r.contents ∧ o.isMapEntry = false) ∧ message r.entries (n, o) = m := by
  have hown (d : MessageDecl) : message r.entries (n, d) = message r.entries (n, d.own) :=
    message_congr (fun _ => rfl) rfl
  simp only [message?_poolOf h, ← Request.exists_mem_ordinary_iff]
  constructor
  · rintro ⟨d, hd, rfl⟩
    exact ⟨d.own, ⟨d, hd, rfl⟩, (hown d).symm⟩
  · rintro ⟨-, ⟨d, hd, rfl⟩, rfl⟩
    exact ⟨d, hd, hown d⟩

theorem enum?_poolOf_contents (h : r.DistinctEnums) {e : EnumType} :
    (poolOf r).enum? n = some e ↔
      ∃ values, (n, values) ∈ r.enumContents ∧ ⟨n, values.map fun v => v.name.getD ""⟩ = e := by
  simp only [enum?_poolOf h, Request.mem_enumContents]
  constructor
  · rintro ⟨d, hd, rfl⟩
    exact ⟨_, ⟨d, hd, rfl⟩, rfl⟩
  · rintro ⟨-, ⟨d, hd, rfl⟩, rfl⟩
    exact ⟨d, hd, rfl⟩

theorem contains_requiredOf_contents {x : String} :
    (requiredOf r).contains x = true ↔
      ∃ n o, ((n, o) ∈ r.contents ∧ o.isMapEntry = false) ∧
        ∃ f ∈ o.fields, x ∈ requiredNames r.entries [] n f := by
  simp only [contains_requiredOf_iff, ← Request.exists_mem_ordinary_iff]
  constructor
  · rintro ⟨⟨n, d⟩, hd, hf⟩
    exact ⟨n, d.own, ⟨d, hd, rfl⟩, hf⟩
  · rintro ⟨n, -, ⟨d, hd, rfl⟩, hf⟩
    exact ⟨(n, d), hd, hf⟩

theorem poolOf_congr (h : r.SameTypes r') : poolOf r = poolOf r' := by
  have hmessage (n : String) (o : MessageDecl) :
      message r.entries (n, o) = message r'.entries (n, o) :=
    message_congr h.agreeOwn_entries rfl
  refine Pool.ext_lookup (fun n => Option.ext fun m => ?_) fun n => Option.ext fun e => ?_
  · simp only [message?_poolOf_contents h.distinct.1, message?_poolOf_contents h.distinct'.1,
      h.messages, hmessage]
  · simp only [enum?_poolOf_contents h.distinct.2, enum?_poolOf_contents h.distinct'.2, h.enums]

theorem requiredOf_congr (h : r.SameTypes r') : requiredOf r = requiredOf r' := by
  refine Dict.ext_contains fun x => Bool.eq_iff_iff.2 ?_
  simp only [contains_requiredOf_contents, h.messages, requiredNames_congr h.agreeOwn_entries]

end Corpus
end McpCatalog
