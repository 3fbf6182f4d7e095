import McpCatalog.Proofs.Schema.Unfolding
/-!
# The descent of a builder

A builder makes the schema of a message in one walk over fields and messages. It goes
into a message by putting its name on the path, takes the fields one after the other,
and leaves the message by taking the name off again. A reference to a message on the
path is not followed but recorded.

Here the walk is a machine. A state has the path, the recorded names, what is being
done and what is to be done after that.

Results:
* `reaches_message`: the machine comes to an end with the schema and the recorded names
  of `Builder.messageSchema`.
* `move_of_step`: what a step can do.
* `inv_step`, `inv_reaches`: what holds of the path, step by step and over a whole walk.
* `messageSchema_descent`: a walk ends, and the path never has a name twice, has no names
  but those of the pool after the first, and is as long as the messages are nested, at
  most one more than the pool has messages.
-/
namespace McpCatalog

namespace Descent

/-! ## The machine -/

/-- What the builder does next. -/
inductive Control where
  /-- Go into a message. -/
  | message (m : Message)
  /-- Take the next of the fields that are left; the others have their schemas. -/
  | fields (m : Message) (done : List (Head × Json)) (left : List Field)
  | field (f : Field)
  /-- One value of a kind. -/
  | item (kind : FieldKind) (typeName : Option String)
  | reference (typeName : String)
  /-- Hand back a schema. -/
  | give (schema : Json)

/-- What is left to do with a schema. -/
inductive Frame where
  | member (m : Message) (done : List (Head × Json)) (f : Field) (left : List Field)
  | list
  | map (key : FieldKind)

structure State where
  path : List String
  recursive : NameSet
  control : Control
  frames : List Frame

section
variable (pool : Pool) (required : Requirement)

/-- One step of the builder. -/
def step (s : State) : Option State :=
  match s.control with
  | .message m => some { s with path := m.fullName :: s.path, control := .fields m [] m.fields }
  | .fields _ done [] =>
    some { s with path := s.path.tail, control := .give (Schema.ofMembers done) }
  | .fields m done (f :: left) =>
    some { s with control := .field f, frames := .member m done f left :: s.frames }
  | .field f =>
    match f.cardinality with
    | .map key value => some { s with control := .field value, frames := .map key :: s.frames }
    | .list => some { s with control := .item f.kind f.typeName, frames := .list :: s.frames }
    | .singular => some { s with control := .item f.kind f.typeName }
  | .item kind typeName =>
    if kind.isMessage then
      match typeName with
      | some t => some { s with control := .reference t }
      | none => some { s with control := .give (.object []) }
    else if kind = .enum then
      some { s with control := .give (Schema.ofEnum ((typeName.bind pool.enum?).map (·.values))) }
    else some { s with control := .give (Schema.ofScalar kind) }
  | .reference t =>
    match WellKnown.ofName? t with
    | some w => some { s with control := .give w.schema }
    | none =>
      if t ∈ s.path then
        some { s with
          recursive := s.recursive.insert t ()
          control := .give (.object [("$comment", .str (Schema.backComment t))]) }
      else
        match pool.message? t with
        | none => some { s with control := .give (.object []) }
        | some m => some { s with control := .message m }
  | .give schema =>
    match s.frames with
    | [] => none
    | .member m done f left :: frames =>
      some { s with control := .fields m (done ++ [(f.head required, schema)]) left, frames }
    | .list :: frames => some { s with control := .give (Schema.ofList schema), frames }
    | .map key :: frames => some { s with control := .give (Schema.ofMap key schema), frames }

/-- What a step can do. -/
inductive Move : State → State → Prop
  | enter {path : List String} {names : NameSet} {m : Message} {frames : List Frame} :
    Move ⟨path, names, .message m, frames⟩
      ⟨m.fullName :: path, names, .fields m [] m.fields, frames⟩
  | leave {path : List String} {names : NameSet} {m : Message} {done : List (Head × Json)}
    {frames : List Frame} : Move ⟨path, names, .fields m done [], frames⟩
      ⟨path.tail, names, .give (Schema.ofMembers done), frames⟩
  | take {path : List String} {names : NameSet} {m : Message} {done : List (Head × Json)}
    {f : Field} {left : List Field} {frames : List Frame} :
    Move ⟨path, names, .fields m done (f :: left), frames⟩
      ⟨path, names, .field f, .member m done f left :: frames⟩
  | map {path : List String} {names : NameSet} {f value : Field} {key : FieldKind}
    {frames : List Frame} (hc : f.cardinality = .map key value) :
    Move ⟨path, names, .field f, frames⟩ ⟨path, names, .field value, .map key :: frames⟩
  | list {path : List String} {names : NameSet} {f : Field} {frames : List Frame}
    (hc : f.cardinality = .list) : Move ⟨path, names, .field f, frames⟩
      ⟨path, names, .item f.kind f.typeName, .list :: frames⟩
  | singular {path : List String} {names : NameSet} {f : Field} {frames : List Frame}
    (hc : f.cardinality = .singular) :
    Move ⟨path, names, .field f, frames⟩ ⟨path, names, .item f.kind f.typeName, frames⟩
  | typed {path : List String} {names : NameSet} {kind : FieldKind} {t : String}
    {frames : List Frame} (hm : kind.isMessage = true) :
    Move ⟨path, names, .item kind (some t), frames⟩ ⟨path, names, .reference t, frames⟩
  | untyped {path : List String} {names : NameSet} {kind : FieldKind} {frames : List Frame}
    (hm : kind.isMessage = true) :
    Move ⟨path, names, .item kind none, frames⟩ ⟨path, names, .give (.object []), frames⟩
  | enum {path : List String} {names : NameSet} {typeName : Option String} {frames : List Frame} :
    Move ⟨path, names, .item .enum typeName, frames⟩ ⟨path, names,
      .give (Schema.ofEnum ((typeName.bind pool.enum?).map (·.values))), frames⟩
  | scalar {path : List String} {names : NameSet} {kind : FieldKind} {typeName : Option String}
    {frames : List Frame} (hm : kind.isMessage = false) (he : kind ≠ .enum) :
    Move ⟨path, names, .item kind typeName, frames⟩
      ⟨path, names, .give (Schema.ofScalar kind), frames⟩
  | wellKnown {path : List String} {names : NameSet} {t : String} {w : WellKnown}
    {frames : List Frame} (hw : WellKnown.ofName? t = some w) :
    Move ⟨path, names, .reference t, frames⟩ ⟨path, names, .give w.schema, frames⟩
  | back {path : List String} {names : NameSet} {t : String} {frames : List Frame}
    (hw : WellKnown.ofName? t = none) (hp : t ∈ path) :
    Move ⟨path, names, .reference t, frames⟩ ⟨path, names.insert t (),
      .give (.object [("$comment", .str (Schema.backComment t))]), frames⟩
  | unknown {path : List String} {names : NameSet} {t : String} {frames : List Frame}
    (hw : WellKnown.ofName? t = none) (hp : t ∉ path) (hm : pool.message? t = none) :
    Move ⟨path, names, .reference t, frames⟩ ⟨path, names, .give (.object []), frames⟩
  | known {path : List String} {names : NameSet} {t : String} {m : Message} {frames : List Frame}
    (hw : WellKnown.ofName? t = none) (hp : t ∉ path) (hm : pool.message? t = some m) :
    Move ⟨path, names, .reference t, frames⟩ ⟨path, names, .message m, frames⟩
  | asMember {path : List String} {names : NameSet} {m : Message} {done : List (Head × Json)}
    {f : Field} {left : List Field} {schema : Json} {frames : List Frame} :
    Move ⟨path, names, .give schema, .member m done f left :: frames⟩
      ⟨path, names, .fields m (done ++ [(f.head required, schema)]) left, frames⟩
  | asItem {path : List String} {names : NameSet} {schema : Json} {frames : List Frame} :
    Move ⟨path, names, .give schema, .list :: frames⟩
      ⟨path, names, .give (Schema.ofList schema), frames⟩
  | asValue {path : List String} {names : NameSet} {key : FieldKind} {schema : Json}
    {frames : List Frame} : Move ⟨path, names, .give schema, .map key :: frames⟩
      ⟨path, names, .give (Schema.ofMap key schema), frames⟩

/-- A walk from one state to another. -/
inductive Reaches : State → State → Prop
  | refl (s : State) : Reaches s s
  | head {s s' s'' : State} (h : step pool required s = some s') (hrest : Reaches s' s'') :
    Reaches s s''

end

/-- The builder before it goes into a message. -/
def State.start (recursive : NameSet) (m : Message) : State :=
  ⟨[], recursive, .message m, []⟩

/-- The builder that has a schema and nothing left to do. -/
def State.done (recursive : NameSet) (schema : Json) : State :=
  ⟨[], recursive, .give schema, []⟩

section
variable {pool : Pool} {required : Requirement}

theorem move_of_step {s s' : State} (h : step pool required s = some s') :
    Move pool required s s' := by
  obtain ⟨path, names, control, frames⟩ := s
  unfold step at h
  cases control with
  | message m =>
    obtain rfl := Option.some.inj h
    exact .enter
  | fields m done left =>
    cases left with
    | nil =>
      obtain rfl := Option.some.inj h
      exact .leave
    | cons f left =>
      obtain rfl := Option.some.inj h
      exact .take
  | field f =>
    cases hc : f.cardinality <;> simp only [hc, Option.some.injEq] at h <;> subst h
    case map key value => exact .map hc
    case list => exact .list hc
    case singular => exact .singular hc
  | item kind typeName =>
    dsimp only at h
    split at h
    · next hm =>
      split at h <;> obtain rfl := Option.some.inj h
      · exact .typed hm
      · exact .untyped hm
    · next hm =>
      split at h <;> obtain rfl := Option.some.inj h
      · next he => exact he ▸ .enum
      · next he => exact .scalar (Bool.not_eq_true _ ▸ hm) he
  | reference t =>
    dsimp only at h
    split at h
    · next hw =>
      obtain rfl := Option.some.inj h
      exact .wellKnown hw
    · next hw =>
      split at h
      · next hp =>
        obtain rfl := Option.some.inj h
        exact .back hw hp
      · next hp =>
        split at h <;> obtain rfl := Option.some.inj h
        · next hm => exact .unknown hw hp hm
        · next hm => exact .known hw hp hm
  | give schema =>
    cases frames with
    | nil => simp at h
    | cons frame frames =>
      cases frame <;> simp only [Option.some.injEq] at h <;> subst h
      · exact .asMember
      · exact .asItem
      · exact .asValue

theorem step_done (recursive : NameSet) (schema : Json) :
    step pool required (.done recursive schema) = none := rfl

theorem Reaches.trans {s s' s'' : State} (h : Reaches pool required s s')
    (h' : Reaches pool required s' s'') : Reaches pool required s s'' := by
  induction h with
  | refl => exact h'
  | head hstep _ ih => exact .head hstep (ih h')

/-- A walk that has ended is the end of every walk. -/
theorem Reaches.last {s s' last : State} (h : Reaches pool required s s')
    (hlast : Reaches pool required s last) (hstop : step pool required last = none) :
    Reaches pool required s' last := by
  induction h with
  | refl => exact hlast
  | head hstep _ ih =>
    cases hlast with
    | refl => simp [hstep] at hstop
    | head hstep' hrest =>
      obtain rfl := Option.some.inj (hstep.symm.trans hstep')
      exact ih hrest

/-! ## What a walk gives -/

/-- The names of the cuts of a shape, recorded after others. -/
def record (names : NameSet) (s : Shape) : NameSet :=
  s.cuts.foldl (fun names t => names.insert t ()) names

/-- From the given control, the machine gives the schema of the shape and records its cuts. -/
def Gives (pool : Pool) (required : Requirement) (path : List String) (control : Control)
    (shape : Shape) : Prop :=
  ∀ recursive frames, Reaches pool required ⟨path, recursive, control, frames⟩
    ⟨path, record recursive shape, .give shape.schema, frames⟩

/-- Every reference from the path is resolved. -/
def References (pool : Pool) (required : Requirement) (path : List String) : Prop :=
  ∀ t, Gives pool required path (.reference t) (pool.reference required path t)

/-- A shape without messages is made in one step. -/
theorem gives_of_step {path : List String} {control : Control} {shape : Shape}
    (hcuts : shape.cuts = [])
    (hstep : ∀ recursive frames, step pool required ⟨path, recursive, control, frames⟩
      = some ⟨path, recursive, .give shape.schema, frames⟩) :
    Gives pool required path control shape := by
  intro recursive frames
  have hrecord : record recursive shape = recursive := by rw [record, hcuts, List.foldl_nil]
  rw [hrecord]
  exact .head (hstep recursive frames) (.refl _)

theorem gives_item {path : List String} (href : References pool required path) (kind : FieldKind)
    (typeName : Option String) :
    Gives pool required path (.item kind typeName)
      (Field.itemShape pool (pool.reference required path) kind typeName) := by
  by_cases hm : kind.isMessage = true
  · cases typeName with
    | some t =>
      intro recursive frames
      have hstart : step pool required ⟨path, recursive, .item kind (some t), frames⟩
          = some ⟨path, recursive, .reference t, frames⟩ := by simp [step, hm]
      rw [itemShape_message hm]
      exact .head hstart (href t recursive frames)
    | none =>
      rw [itemShape_untyped hm]
      exact gives_of_step (by simp [Shape.cuts]) (by simp [step, hm, Shape.schema])
  · rw [Bool.not_eq_true] at hm
    by_cases he : kind = .enum
    · subst he
      rw [itemShape_enum]
      exact gives_of_step (by simp [Shape.cuts]) (by simp [step, hm, Shape.schema])
    · rw [itemShape_scalar hm he]
      exact gives_of_step (by simp [Shape.cuts]) (by simp [step, hm, he, Shape.schema])

theorem gives_field {path : List String} (href : References pool required path) (f : Field) :
    Gives pool required path (.field f) (f.shape pool (pool.reference required path)) := by
  intro recursive frames
  induction f using Field.values_induction generalizing recursive frames with
  | map f key value hc ih =>
    have hstart : step pool required ⟨path, recursive, .field f, frames⟩
        = some ⟨path, recursive, .field value, .map key :: frames⟩ := by simp [step, hc]
    have hvalue := ih recursive (.map key :: frames)
    rw [shape_map hc]
    exact .head hstart (hvalue.trans (.head rfl (.refl _)))
  | list f hc =>
    have hstart : step pool required ⟨path, recursive, .field f, frames⟩
        = some ⟨path, recursive, .item f.kind f.typeName, .list :: frames⟩ := by simp [step, hc]
    have hitem := gives_item href f.kind f.typeName recursive (.list :: frames)
    rw [shape_list hc, shape_singular rfl]
    exact .head hstart (hitem.trans (.head rfl (.refl _)))
  | singular f hc =>
    have hstart : step pool required ⟨path, recursive, .field f, frames⟩
        = some ⟨path, recursive, .item f.kind f.typeName, frames⟩ := by simp [step, hc]
    rw [shape_singular hc]
    exact .head hstart (gives_item href f.kind f.typeName recursive frames)

/-- The fields that are left are taken in order, each with the names recorded before. -/
theorem reaches_fields {m : Message} {path : List String}
    (href : References pool required (m.fullName :: path)) (left : List Field) :
    ∀ done recursive frames, Reaches pool required
      ⟨m.fullName :: path, recursive, .fields m done left, frames⟩
      ⟨path,
        left.foldl (fun names f =>
          record names (f.shape pool (pool.reference required (m.fullName :: path)))) recursive,
        .give (Schema.ofMembers (done ++ left.map fun f =>
          (f.head required, (f.shape pool (pool.reference required (m.fullName :: path))).schema))),
        frames⟩ := by
  induction left with
  | nil =>
    intro done recursive frames
    refine .head rfl ?_
    simpa using .refl _
  | cons f left ih =>
    intro done recursive frames
    have hfield := gives_field href f recursive (.member m done f left :: frames)
    have hleft := ih
      (done ++ [(f.head required,
        (f.shape pool (pool.reference required (m.fullName :: path))).schema)])
      (record recursive (f.shape pool (pool.reference required (m.fullName :: path)))) frames
    rw [List.append_assoc] at hleft
    exact .head rfl (hfield.trans (.head rfl hleft))

theorem record_messageShape (names : NameSet) (path : List String) (m : Message) :
    record names (pool.messageShape required path m) = m.fields.foldl (fun names f =>
      record names (f.shape pool (pool.reference required (m.fullName :: path)))) names := by
  unfold record
  rw [cuts_messageShape, List.foldl_flatMap]

theorem gives_message {m : Message} {path : List String}
    (href : References pool required (m.fullName :: path)) :
    Gives pool required path (.message m) (pool.messageShape required path m) := by
  intro recursive frames
  have hfields := reaches_fields href m.fields [] recursive frames
  rw [record_messageShape, schema_messageShape]
  exact .head rfl hfields

/-- References are resolved, as the messages that are not on the path become fewer. -/
theorem references (pool : Pool) (required : Requirement) (path : List String) :
    References pool required path := by
  induction hn : pool.messages.unvisited path using Nat.strongRecOn generalizing path with
  | ind n ih =>
    subst hn
    intro t
    rw [Pool.reference_eq]
    cases hw : WellKnown.ofName? t with
    | some w => exact gives_of_step (by simp [Shape.cuts]) (by simp [step, hw, Shape.schema])
    | none =>
      by_cases hp : t ∈ path
      · intro recursive frames
        have hrecord : record recursive (.back t) = recursive.insert t () := by
          simp [record, Shape.cuts]
        have hstart : step pool required ⟨path, recursive, .reference t, frames⟩
            = some ⟨path, record recursive (.back t), .give (Shape.back t).schema, frames⟩ := by
          simp [step, hw, hp, hrecord, Shape.schema]
        simp only [hp, if_true]
        exact .head hstart (.refl _)
      · simp only [hp, if_false]
        cases hm : pool.message? t with
        | none =>
          exact gives_of_step (by simp [Shape.cuts]) (by simp [step, hw, hp, hm, Shape.schema])
        | some m =>
          intro recursive frames
          have hname := Pool.fullName_of_message? hm
          have href : References pool required (m.fullName :: path) := by
            rw [hname]
            exact ih _ (Dict.unvisited_cons_lt hm hp) (t :: path) rfl
          have hstart : step pool required ⟨path, recursive, .reference t, frames⟩
              = some ⟨path, recursive, .message m, frames⟩ := by simp [step, hw, hp, hm]
          exact .head hstart (gives_message href recursive frames)

theorem reaches_message (b : Builder) (m : Message) :
    Reaches b.pool b.required (.start b.recursive m)
      (.done (b.messageSchema m).2.recursive (b.messageSchema m).1) :=
  gives_message (references b.pool b.required [m.fullName]) b.recursive []

/-! ## The path -/

/-- The message whose fields the builder is at, if it is at fields of a message. -/
def Control.opened : Control → List String
  | .fields m _ _ => [m.fullName]
  | _ => []

def Frame.opened : Frame → List String
  | .member m _ _ _ => [m.fullName]
  | _ => []

/-- The names of the messages that the builder went into and did not leave, innermost first. -/
def State.opened (s : State) : List String :=
  s.control.opened ++ s.frames.flatMap Frame.opened

/-- What holds of the path in every state. -/
structure Inv (pool : Pool) (s : State) : Prop where
  path : s.path = s.opened
  nodup : s.path.Nodup
  /-- Every name but that of the outermost message is one of the pool. -/
  known : ∀ name ∈ s.path.dropLast, name ∈ pool.messages.keys
  /-- The builder goes into a message that is not on the path, and, other than at the start, into
  a message of the pool. -/
  fresh : ∀ m, s.control = .message m →
    m.fullName ∉ s.path ∧ (s.path ≠ [] → m.fullName ∈ pool.messages.keys)

theorem inv_start (pool : Pool) (recursive : NameSet) (m : Message) :
    Inv pool (.start recursive m) := by
  refine ⟨rfl, List.nodup_nil, by simp [State.start], fun m' _ => ?_⟩
  simp [State.start]

theorem known_cons {path : List String} {name : String}
    (hpath : ∀ n ∈ path.dropLast, n ∈ pool.messages.keys)
    (hname : path ≠ [] → name ∈ pool.messages.keys) :
    ∀ n ∈ (name :: path).dropLast, n ∈ pool.messages.keys := by
  intro n hn
  cases path with
  | nil => simp at hn
  | cons n' path =>
    rw [List.dropLast_cons_of_ne_nil (by simp)] at hn
    rcases List.mem_cons.1 hn with rfl | hn
    · exact hname (by simp)
    · exact hpath n hn

/-- A step that neither goes into a message nor comes to one leaves the path as it is. -/
theorem Inv.keep {s s' : State} (h : Inv pool s) (hpath : s'.path = s.path)
    (hopened : s'.opened = s.opened) (hcontrol : ∀ m, s'.control ≠ .message m) : Inv pool s' where
  path := by rw [hpath, hopened, h.path]
  nodup := hpath ▸ h.nodup
  known := hpath ▸ h.known
  fresh := fun m hm => absurd hm (hcontrol m)

section
variable {path : List String} {recursive : NameSet} {frames : List Frame}

theorem Inv.enter {m : Message} (h : Inv pool ⟨path, recursive, .message m, frames⟩) :
    Inv pool ⟨m.fullName :: path, recursive, .fields m [] m.fields, frames⟩ := by
  obtain ⟨hfresh, hknown⟩ := h.fresh m rfl
  have hpath : path = frames.flatMap Frame.opened := h.path
  refine ⟨?_, List.nodup_cons.2 ⟨hfresh, h.nodup⟩, known_cons h.known hknown, by simp⟩
  simp [State.opened, Control.opened, hpath]

theorem Inv.leave {m : Message} {done : List (Head × Json)} {schema : Json}
    (h : Inv pool ⟨path, recursive, .fields m done [], frames⟩) :
    Inv pool ⟨path.tail, recursive, .give schema, frames⟩ := by
  have hpath : path = m.fullName :: frames.flatMap Frame.opened := h.path
  subst hpath
  refine ⟨rfl, (List.nodup_cons.1 h.nodup).2, fun n hn => h.known n ?_, by simp⟩
  have hne : frames.flatMap Frame.opened ≠ [] := by
    intro he
    simp [he] at hn
  rw [List.dropLast_cons_of_ne_nil hne]
  exact List.mem_cons_of_mem _ hn

/-- The message that is found has the name that was looked for. -/
theorem Inv.find {t : String} {m : Message}
    (h : Inv pool ⟨path, recursive, .reference t, frames⟩) (hp : t ∉ path)
    (hm : pool.message? t = some m) : Inv pool ⟨path, recursive, .message m, frames⟩ := by
  have hname := Pool.fullName_of_message? hm
  refine ⟨h.path, h.nodup, h.known, fun m' hm' => ?_⟩
  obtain rfl := Control.message.inj hm'
  rw [hname]
  exact ⟨hp, fun _ => Dict.mem_keys_iff.2 (Option.isSome_iff_exists.2 ⟨m, hm⟩)⟩

/-- What is done for one value keeps to the messages that are open. -/
theorem Inv.go {recursive' : NameSet} {control control' : Control}
    (h : Inv pool ⟨path, recursive, control, frames⟩) (hopened : control.opened = [])
    (hopened' : control'.opened = []) (hcontrol : ∀ m, control' ≠ .message m) :
    Inv pool ⟨path, recursive', control', frames⟩ :=
  h.keep rfl (by simp [State.opened, hopened, hopened']) hcontrol

end

theorem inv_step {s s' : State} (hstep : step pool required s = some s') (h : Inv pool s) :
    Inv pool s' := by
  cases move_of_step hstep with
  | enter => exact h.enter
  | leave => exact h.leave
  | take | map | list | asMember | asItem | asValue =>
    exact h.keep rfl (by simp [State.opened, Control.opened, Frame.opened]) (by simp)
  | known _ hp hm => exact h.find hp hm
  | _ => exact h.go rfl rfl (by simp)

theorem inv_reaches {s s' : State} (hreach : Reaches pool required s s') (h : Inv pool s) :
    Inv pool s' := by
  induction hreach with
  | refl => exact h
  | head hstep _ ih => exact ih (inv_step hstep h)

/-- Names of the pool that differ are as many as the pool has messages at most. -/
theorem Inv.length_le {s : State} (h : Inv pool s) : s.path.length ≤ pool.messageCount + 1 := by
  have hnodup : s.path.dropLast.Nodup := h.nodup.sublist (List.dropLast_sublist _)
  have hle := List.Nodup.length_le_of_subset hnodup h.known
  have hsize : pool.messages.keys.length = pool.messageCount := by
    simp [Dict.keys, Pool.messageCount, Dict.size]
  rw [List.length_dropLast] at hle
  omega

/-- **Descent.** The schema of a message is made in a walk that ends. In every state of the walk
the path has the names of the messages that the builder is in; they differ, all but the outermost
are in the pool, and so there is at most one more than the pool has messages. -/
theorem messageSchema_descent (b : Builder) (m : Message) :
    step b.pool b.required (.done (b.messageSchema m).2.recursive (b.messageSchema m).1) = none ∧
    ∀ s, Reaches b.pool b.required (.start b.recursive m) s →
      Reaches b.pool b.required s (.done (b.messageSchema m).2.recursive (b.messageSchema m).1) ∧
      s.path = s.opened ∧ s.path.Nodup ∧
      (∀ name ∈ s.path.dropLast, name ∈ b.pool.messages.keys) ∧
      s.opened.length ≤ b.pool.messageCount + 1 := by
  have hstop : step b.pool b.required
      (.done (b.messageSchema m).2.recursive (b.messageSchema m).1) = none := step_done _ _
  refine ⟨hstop, fun s hs => ?_⟩
  have h : Inv b.pool s := inv_reaches hs (inv_start b.pool b.recursive m)
  refine ⟨hs.last (reaches_message b m) hstop, h.path, h.nodup, h.known, ?_⟩
  rw [← h.path]
  exact h.length_le

/-- A message of the pool with a number. -/
def leafMessage : Message :=
  ⟨"test.Leaf", [Field.ofKind "number" .int32]⟩

/-- A message that the pool does not hold and that refers to the other. -/
def rootMessage : Message :=
  ⟨"test.Root", [Field.ofMessage "leaf" "test.Leaf"]⟩

/-- The bound is met where the outermost message is not in the pool. -/
theorem messageSchema_descent_rootMessage :
    ∃ s, Reaches (Pool.empty.addMessage leafMessage) (fun _ => false)
        (.start .empty rootMessage) s ∧
      Reaches (Pool.empty.addMessage leafMessage) (fun _ => false) s
        (.done ((Builder.new (Pool.empty.addMessage leafMessage) fun _ => false).messageSchema
            rootMessage).2.recursive
          ((Builder.new (Pool.empty.addMessage leafMessage) fun _ => false).messageSchema
            rootMessage).1) ∧
      s.path = ["test.Leaf", "test.Root"] ∧
      s.opened.length = (Pool.empty.addMessage leafMessage).messageCount + 1 := by
  have hunknown : WellKnown.ofName? "test.Leaf" = none := by decide
  have hleaf : (Pool.empty.addMessage leafMessage).message? "test.Leaf" = some leafMessage := by
    simp [Pool.message?_addMessage, leafMessage]
  have hstep : step (Pool.empty.addMessage leafMessage) (fun _ => false)
      ⟨["test.Root"], .empty, .reference "test.Leaf",
        [.member rootMessage [] (Field.ofMessage "leaf" "test.Leaf") []]⟩
      = some ⟨["test.Root"], .empty, .message leafMessage,
        [.member rootMessage [] (Field.ofMessage "leaf" "test.Leaf") []]⟩ := by
    simp [step, hunknown, hleaf]
  have hreach : Reaches (Pool.empty.addMessage leafMessage) (fun _ => false)
      (.start .empty rootMessage)
      ⟨["test.Leaf", "test.Root"], .empty, .fields leafMessage [] leafMessage.fields,
        [.member rootMessage [] (Field.ofMessage "leaf" "test.Leaf") []]⟩ := by
    refine .head rfl (.head rfl (.head rfl (.head rfl (.head hstep (.head rfl ?_)))))
    exact .refl _
  obtain ⟨hdone, -⟩ := (messageSchema_descent
    (.new (Pool.empty.addMessage leafMessage) fun _ => false) rootMessage).2 _ hreach
  exact ⟨_, hreach, hdone, rfl, rfl⟩

end
end Descent
end McpCatalog
