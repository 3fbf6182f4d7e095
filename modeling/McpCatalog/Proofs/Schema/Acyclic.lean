import Mathlib.Logic.Relation
import McpCatalog.Proofs.Schema.BackReference
import McpCatalog.Proofs.Schema.Content
import McpCatalog.Proofs.Schema.Unguarded
/-!
# Messages that are on no circle

The builder does not follow a reference to a message that it is in, or to a name of the path that it
began with. Where no circle of references can be reached and no name of the path is referred to,
this never happens: the builder makes the same schema as without a path, and a message that is
reached in several ways has one schema in all these places.

Results:
* `Pool.OffCircles.cuts_eq_nil`: a message on no circle is not cut.
* `Descent.walks_step`, `Descent.walks_reaches`: what holds step by step and over a whole walk; the
  messages around a place lead to the one that is unfolded there.
* `Descent.messageShape_of_offCircles`: what a message on no circle unfolds to.
-/
namespace McpCatalog

open Descent (Control Frame State Reaches References record step)
open Relation (ReflTransGen TransGen)

section
variable {pool : Pool} {required : Requirement}

/-! ## Messages that are on no circle -/

/-- The message is one of the pool. Of the messages that references lead to from it, itself
included, none is on a circle of references, and none refers to a name of the path. -/
structure Pool.OffCircles (pool : Pool) (path : List String) (m : Message) : Prop where
  known : pool.message? m.fullName = some m
  acyclic : ∀ m', ReflTransGen pool.Follows m m' → ¬ TransGen pool.Follows m' m'
  off : ∀ m', ReflTransGen pool.Follows m m' → ∀ t, m'.Refers t → t ∉ path

theorem Pool.Follows.known {m m' : Message} (h : pool.Follows m m') :
    pool.message? m'.fullName = some m' := by
  obtain ⟨t, -, hm'⟩ := h
  rwa [fullName_of_message? hm']

/-- References lead from the first message of a chain to each of its messages, and on to the
last. -/
theorem reached_of_isChain {m : Message} {ms : List Message}
    (hchain : List.IsChain pool.Follows (m :: ms)) {a : Message} (ha : a ∈ m :: ms) :
    ReflTransGen pool.Follows m a ∧
      ReflTransGen pool.Follows a ((m :: ms).getLast (List.cons_ne_nil m ms)) ∧
      (a = m ∨ pool.message? a.fullName = some a) := by
  induction ms generalizing m a with
  | nil =>
    obtain rfl := List.mem_singleton.1 ha
    exact ⟨.refl, .refl, .inl rfl⟩
  | cons m' ms ih =>
    obtain ⟨hfollows, hrest⟩ := List.isChain_cons_cons.1 hchain
    rw [List.getLast_cons (List.cons_ne_nil m' ms)]
    rcases List.mem_cons.1 ha with rfl | ha
    · exact ⟨.refl, .head hfollows (ih hrest List.mem_cons_self).2.1, .inl rfl⟩
    · obtain ⟨hto, hon, hknown⟩ := ih hrest ha
      refine ⟨.head hfollows hto, hon, .inr ?_⟩
      rcases hknown with rfl | hknown
      · exact hfollows.known
      · exact hknown

/-- Such a message is not cut anywhere. -/
theorem Pool.OffCircles.cuts_eq_nil {path : List String} {m : Message}
    (h : pool.OffCircles path m) : (pool.messageShape required path m).cuts = [] := by
  refine List.eq_nil_iff_forall_not_mem.2 fun t ht => ?_
  obtain ⟨ms, hchain, -, -, hlast, ht⟩ := returnsTo_of_mem_cuts ht
  have hend := (reached_of_isChain hchain (List.getLast_mem (List.cons_ne_nil m ms))).1
  rcases List.mem_append.1 ht with ht | ht
  · obtain ⟨a, ha, rfl⟩ := List.mem_map.1 ht
    obtain ⟨hto, hon, hknown⟩ := reached_of_isChain hchain ha
    have hknown : pool.message? a.fullName = some a := by
      rcases hknown with rfl | hknown
      · exact h.known
      · exact hknown
    exact h.acyclic a hto (.tail' hon ⟨_, hlast, hknown⟩)
  · exact h.off _ hend t hlast ht

/-- It is the same with the messages that it leads to, behind messages that lead to them. -/
theorem Pool.OffCircles.inside {path : List String} {m m' : Message} (h : pool.OffCircles path m)
    (hm' : ReflTransGen pool.Follows m m') (hknown : pool.message? m'.fullName = some m')
    {opened : List Message} (hopened : ∀ a ∈ opened, pool.message? a.fullName = some a ∧
      ReflTransGen pool.Follows m a ∧ TransGen pool.Follows a m') :
    pool.OffCircles (opened.map (·.fullName) ++ path) m' where
  known := hknown
  acyclic := fun m'' hm'' => h.acyclic m'' (hm'.trans hm'')
  off := by
    intro m'' hm'' t href ht
    rcases List.mem_append.1 ht with ht | ht
    · obtain ⟨a, ha, rfl⟩ := List.mem_map.1 ht
      obtain ⟨hknown, hto, hon⟩ := hopened a ha
      exact h.acyclic a hto ((hon.trans_left hm'').tail ⟨_, href, hknown⟩)
    · exact h.off m'' (hm'.trans hm'') t href ht

/-- To see that a message is on no circle, it is enough to see that every reference leads down, from
the messages in a list back into the list. -/
theorem Pool.OffCircles.of_rank {path : List String} {m : Message} (ms : List Message)
    (rank : Message → Nat) (hm : m ∈ ms) (hknown : pool.message? m.fullName = some m)
    (hdown : ∀ a ∈ ms, ∀ b, pool.Follows a b → b ∈ ms ∧ rank b < rank a)
    (hoff : ∀ a ∈ ms, ∀ t, a.Refers t → t ∉ path) : pool.OffCircles path m := by
  have hstay (a : Message) (h : ReflTransGen pool.Follows m a) : a ∈ ms := by
    induction h with
    | refl => exact hm
    | tail _ hfollows ih => exact (hdown _ ih _ hfollows).1
  have hlt {a b : Message} (ha : a ∈ ms) (h : TransGen pool.Follows a b) :
      b ∈ ms ∧ rank b < rank a := by
    induction h with
    | single hfollows => exact hdown a ha _ hfollows
    | tail _ hfollows ih =>
      obtain ⟨hb, hrank⟩ := hdown _ ih.1 _ hfollows
      exact ⟨hb, hrank.trans ih.2⟩
  exact ⟨hknown, fun a ha hcircle => Nat.lt_irrefl _ (hlt (hstay a ha) hcircle).2,
    fun a ha => hoff a (hstay a ha)⟩

/-! ## The walk -/

namespace Descent

/-- The field holds messages of the given name, which is not well-known. -/
def Holds (f : Field) (t : String) : Prop :=
  f.leaf.kind.isMessage = true ∧ f.leaf.typeName = some t ∧ WellKnown.ofName? t = none

def Control.messages : Control → List Message
  | .fields m _ _ => [m]
  | _ => []

def Frame.messages : Frame → List Message
  | .member m _ _ _ => [m]
  | _ => []

/-- The messages that the builder is in, innermost first. -/
def State.messages (s : State) : List Message :=
  s.control.messages ++ s.frames.flatMap Frame.messages

/-- What is done is done for the given message: its fields are taken, and their references are
resolved. -/
def Control.For (m : Option Message) : Control → Prop
  | .fields m' _ left => ∀ f ∈ left, f ∈ m'.fields
  | .field f => ∃ a, m = some a ∧ ∀ t, Holds f t → a.Refers t
  | .item kind typeName => ∃ a, m = some a ∧ ∀ t, kind.isMessage = true → typeName = some t →
      WellKnown.ofName? t = none → a.Refers t
  | .reference t => ∃ a, m = some a ∧ (WellKnown.ofName? t = none → a.Refers t)
  | _ => True

theorem Control.For.value {top : Option Message} {f value : Field} {key : FieldKind}
    (hc : f.cardinality = .map key value) (h : (Control.field f).For top) :
    (Control.field value).For top := by
  obtain ⟨a, ha, href⟩ := h
  refine ⟨a, ha, fun t ht => href t ?_⟩
  rwa [Holds, leaf_map hc]

theorem Control.For.item {top : Option Message} {f : Field}
    (hc : ∀ key value, f.cardinality ≠ .map key value) (h : (Control.field f).For top) :
    (Control.item f.kind f.typeName).For top := by
  obtain ⟨a, ha, href⟩ := h
  refine ⟨a, ha, fun t hm ht hw => href t ?_⟩
  rw [Holds, leaf_item hc]
  exact ⟨hm, ht, hw⟩

/-- Fields of the message are left to be taken. -/
def Frame.Ready : Frame → Prop
  | .member m _ _ left => ∀ f ∈ left, f ∈ m.fields
  | _ => True

/-- What holds in every state of a walk that begins with the message, behind a path. -/
structure Walks (pool : Pool) (path : List String) (names : NameSet) (m : Message) (s : State) :
    Prop where
  recursive : s.recursive = names
  path : s.path = s.messages.map (·.fullName) ++ path
  /-- References lead from every message to those inside it. -/
  nested : s.messages.Pairwise fun a b => TransGen pool.Follows b a
  reached : ∀ a ∈ s.messages,
    pool.message? a.fullName = some a ∧ ReflTransGen pool.Follows m a
  enters : ∀ m', s.control = .message m' → pool.message? m'.fullName = some m' ∧
    ReflTransGen pool.Follows m m' ∧ ∀ a ∈ s.messages, TransGen pool.Follows a m'
  control : s.control.For s.messages.head?
  frames : ∀ frame ∈ s.frames, frame.Ready

section
variable {path : List String} {names : NameSet} {m : Message}

theorem walks_start (h : pool.OffCircles path m) :
    Walks pool path names m ⟨path, names, .message m, []⟩ := by
  refine ⟨rfl, rfl, .nil, by simp [State.messages, Control.messages], fun m' hm' => ?_, trivial,
    by simp⟩
  obtain rfl := Control.message.inj hm'
  exact ⟨h.known, .refl, by simp [State.messages, Control.messages]⟩

variable {here : List String} {recursive : NameSet} {frames : List Frame}

/-- A step that stays in the messages that the builder is in, and does not come to another one. -/
theorem Walks.go {control control' : Control} {frames' : List Frame}
    (h : Walks pool path names m ⟨here, recursive, control, frames⟩)
    (hmessages : control'.messages ++ frames'.flatMap Frame.messages
      = control.messages ++ frames.flatMap Frame.messages)
    (hcontrol : ∀ m', control' ≠ .message m')
    (hfor : control'.For (control.messages ++ frames.flatMap Frame.messages).head?)
    (hframes : ∀ frame ∈ frames', frame.Ready) :
    Walks pool path names m ⟨here, recursive, control', frames'⟩ where
  recursive := h.recursive
  path := by rw [State.messages, hmessages]; exact h.path
  nested := by rw [State.messages, hmessages]; exact h.nested
  reached := by rw [State.messages, hmessages]; exact h.reached
  enters := fun m' hm' => absurd hm' (hcontrol m')
  control := by rw [State.messages, hmessages]; exact hfor
  frames := hframes

theorem Walks.enter {m' : Message}
    (h : Walks pool path names m ⟨here, recursive, .message m', frames⟩) :
    Walks pool path names m ⟨m'.fullName :: here, recursive, .fields m' [] m'.fields, frames⟩ := by
  obtain ⟨hknown, hreached, hnested⟩ := h.enters m' rfl
  have hpath : here = (frames.flatMap Frame.messages).map (·.fullName) ++ path := h.path
  refine ⟨h.recursive, ?_, List.pairwise_cons.2 ⟨hnested, h.nested⟩, ?_, by simp, fun f hf => hf,
    h.frames⟩
  · simp [State.messages, Control.messages, hpath]
  · exact List.forall_mem_cons.2 ⟨⟨hknown, hreached⟩, h.reached⟩

theorem Walks.leave {m' : Message} {done : List (Head × Json)} {schema : Json}
    (h : Walks pool path names m ⟨here, recursive, .fields m' done [], frames⟩) :
    Walks pool path names m ⟨here.tail, recursive, .give schema, frames⟩ := by
  have hpath : here = m'.fullName :: ((frames.flatMap Frame.messages).map (·.fullName) ++ path) :=
    h.path
  refine ⟨h.recursive, ?_, (List.pairwise_cons.1 h.nested).2,
    (List.forall_mem_cons.1 h.reached).2, by simp, trivial, h.frames⟩
  rw [hpath]
  rfl

/-- The message that the builder is in refers to no name of the path. -/
theorem Walks.not_mem_path {t : String} {s : State} (hm : pool.OffCircles path m)
    (h : Walks pool path names m s) {a : Message} (ha : s.messages.head? = some a)
    (href : a.Refers t) : t ∉ s.path := by
  obtain ⟨outer, houter⟩ : ∃ outer, s.messages = a :: outer := List.head?_eq_some_iff.1 ha
  have hreached := h.reached
  have hnested := h.nested
  rw [houter] at hreached hnested
  have hto := (hreached a List.mem_cons_self).2
  rw [h.path, houter]
  intro ht
  rcases List.mem_append.1 ht with ht | ht
  · obtain ⟨b, hb, rfl⟩ := List.mem_map.1 ht
    have hfollows : pool.Follows a b := ⟨_, href, (hreached b hb).1⟩
    rcases List.mem_cons.1 hb with rfl | hb
    · exact hm.acyclic b hto (.single hfollows)
    · have hon := (List.pairwise_cons.1 hnested).1 b hb
      exact hm.acyclic b (hto.tail hfollows) (hon.tail hfollows)
  · exact hm.off a hto t href ht

/-- The message that a reference leads to is one more that can be reached. -/
theorem Walks.find {t : String} {m' : Message}
    (h : Walks pool path names m ⟨here, recursive, .reference t, frames⟩)
    (hw : WellKnown.ofName? t = none) (hm' : pool.message? t = some m') :
    Walks pool path names m ⟨here, recursive, .message m', frames⟩ := by
  obtain ⟨a, ha, href⟩ := h.control
  have hfollows : pool.Follows a m' := ⟨t, href hw, hm'⟩
  obtain ⟨outer, houter⟩ : ∃ outer, frames.flatMap Frame.messages = a :: outer :=
    List.head?_eq_some_iff.1 ha
  refine ⟨h.recursive, h.path, h.nested, h.reached, fun m'' hm'' => ?_, trivial, h.frames⟩
  obtain rfl := Control.message.inj hm''
  have hmem : a ∈ frames.flatMap Frame.messages := houter ▸ List.mem_cons_self
  refine ⟨hfollows.known, (h.reached a hmem).2.tail hfollows, fun b hb => ?_⟩
  have hnested : (a :: outer).Pairwise fun a b => TransGen pool.Follows b a := houter ▸ h.nested
  rcases List.mem_cons.1 (houter ▸ hb : b ∈ a :: outer) with rfl | hb
  · exact .single hfollows
  · exact ((List.pairwise_cons.1 hnested).1 b hb).tail hfollows

theorem walks_step (hm : pool.OffCircles path m) {s s' : State}
    (hstep : step pool required s = some s') (h : Walks pool path names m s) :
    Walks pool path names m s' := by
  cases move_of_step hstep with
  | enter => exact h.enter
  | leave => exact h.leave
  | @take _ _ m' done f left =>
    obtain ⟨hf, hleft⟩ := List.forall_mem_cons.1 h.control
    exact h.go rfl (by simp) ⟨m', rfl, fun t ht => ⟨f, hf, ht⟩⟩
      (List.forall_mem_cons.2 ⟨hleft, h.frames⟩)
  | map hc =>
    exact h.go rfl (by simp) (Control.For.value hc h.control)
      (List.forall_mem_cons.2 ⟨trivial, h.frames⟩)
  | list hc =>
    exact h.go rfl (by simp) (Control.For.item (by simp [hc]) h.control)
      (List.forall_mem_cons.2 ⟨trivial, h.frames⟩)
  | singular hc => exact h.go rfl (by simp) (Control.For.item (by simp [hc]) h.control) h.frames
  | typed hmessage =>
    obtain ⟨a, ha, href⟩ := h.control
    exact h.go rfl (by simp) ⟨a, ha, href _ hmessage rfl⟩ h.frames
  | back hw hp =>
    obtain ⟨a, ha, href⟩ := h.control
    exact absurd hp (h.not_mem_path hm ha (href hw))
  | known hw _ hm' => exact h.find hw hm'
  | asMember =>
    obtain ⟨hready, hframes⟩ := List.forall_mem_cons.1 h.frames
    exact h.go rfl (by simp) hready hframes
  | asItem | asValue =>
    exact h.go rfl (by simp) trivial (List.forall_mem_cons.1 h.frames).2
  | untyped | enum | scalar | wellKnown | unknown => exact h.go rfl (by simp) trivial h.frames

theorem walks_reaches (hm : pool.OffCircles path m) {s s' : State}
    (hreach : Reaches pool required s s') (h : Walks pool path names m s) :
    Walks pool path names m s' := by
  induction hreach with
  | refl => exact h
  | head hstep _ ih => exact ih (walks_step hm hstep h)

/-- Behind the path, a message is unfolded and nothing is recorded. -/
theorem gives_unfolding (h : pool.OffCircles path m) (names : NameSet) (frames : List Frame) :
    Unfolds pool required (.message m) (pool.messageShape required path m).schema ∧
      Reaches pool required ⟨path, names, .message m, frames⟩
        ⟨path, names, .give (pool.messageShape required path m).schema, frames⟩ := by
  have hcuts : (pool.messageShape required path m).cuts = [] := h.cuts_eq_nil
  have hgives := gives_message (references pool required (m.fullName :: path)) names frames
  rw [record, hcuts, List.foldl_nil] at hgives
  exact ⟨unfolds_messageShape (followed pool required _) hcuts, hgives⟩

/-- **The guard off circles.** No message that references lead to from a message of the pool is on a
circle, and none refers to a name of the path. Then behind this path the message gets the schema
that it unfolds to without a path, nothing is recorded, and no comment in the schema tells of a
reference back. Each time that the walk goes into a message, at whatever place, the schema that is
handed back is what that message unfolds to. -/
theorem messageShape_of_offCircles (h : pool.OffCircles path m) :
    (∀ s, Unfolds pool required (.message m) s ↔ s = (pool.messageShape required path m).schema) ∧
    (∀ names frames, Reaches pool required ⟨path, names, .message m, frames⟩
      ⟨path, names, .give (pool.messageShape required path m).schema, frames⟩) ∧
    (∀ ms, Json.Inside (.obj ms) (pool.messageShape required path m).schema →
      ∀ t, ("$comment", .str (Schema.backComment t)) ∉ ms) ∧
    ∀ names s m', Reaches pool required ⟨path, names, .message m, []⟩ s → s.control = .message m' →
      ∃ schema, (∀ s', Unfolds pool required (.message m') s' ↔ s' = schema) ∧
        Reaches pool required s ⟨s.path, names, .give schema, s.frames⟩ := by
  have hunfolds {path : List String} {m : Message} (h : pool.OffCircles path m) (s : Json) :
      Unfolds pool required (.message m) s ↔ s = (pool.messageShape required path m).schema := by
    have hschema : Unfolds pool required (.message m) (pool.messageShape required path m).schema :=
      (gives_unfolding h .empty []).1
    constructor
    · exact fun hs => hs.unique hschema
    · rintro rfl
      exact hschema
  refine ⟨hunfolds h, fun names frames => (gives_unfolding h names frames).2, ?_, ?_⟩
  · exact fun ms hms t => Shape.not_commented_of_cuts_eq_nil h.cuts_eq_nil hms t
  · intro names s m' hreach hs
    have hwalks := walks_reaches h hreach (walks_start h)
    obtain ⟨hknown, hreached, hopened⟩ := hwalks.enters m' hs
    have hinside : pool.OffCircles s.path m' := by
      rw [hwalks.path]
      exact h.inside hreached hknown fun a ha =>
        ⟨(hwalks.reached a ha).1, (hwalks.reached a ha).2, hopened a ha⟩
    obtain ⟨here, recursive, control, frames⟩ := s
    obtain rfl : control = .message m' := hs
    obtain rfl : recursive = names := hwalks.recursive
    exact ⟨_, hunfolds hinside, (gives_unfolding hinside recursive frames).2⟩

def pointMessage : Message :=
  ⟨"test.Point", [Field.ofKind "x" .int32]⟩

/-- Two points. -/
def segmentMessage : Message :=
  ⟨"test.Segment", [Field.ofMessage "start" "test.Point", Field.ofMessage "stop" "test.Point"]⟩

/-- A point, and more of them in the segments of a list and in those of a map. -/
def figureMessage : Message :=
  ⟨"test.Figure", [Field.ofMessage "center" "test.Point",
    (Field.ofMessage "sides" "test.Segment").repeated,
    Field.ofMap "marks" .string (Field.ofMessage "value" "test.Segment")]⟩

def figurePool : Pool :=
  .ofTypes [figureMessage, segmentMessage, pointMessage] []

/-- A walk through the figure is at the point in the middle. -/
def atCenter : State :=
  ⟨["test.Figure", "test.Layer", "test.Figure"], .empty, .message pointMessage,
    [.member figureMessage [] (Field.ofMessage "center" "test.Point")
      [(Field.ofMessage "sides" "test.Segment").repeated,
        Field.ofMap "marks" .string (Field.ofMessage "value" "test.Segment")]]⟩

/-- It has the schema of that point and is at the first point of a side. -/
def atStart (required : Requirement) (point : Json) : State :=
  ⟨["test.Segment", "test.Figure", "test.Layer", "test.Figure"], .empty, .message pointMessage,
    [.member segmentMessage [] (Field.ofMessage "start" "test.Point")
        [Field.ofMessage "stop" "test.Point"], .list,
      .member figureMessage [((Field.ofMessage "center" "test.Point").head required, point)]
        (Field.ofMessage "sides" "test.Segment").repeated
        [Field.ofMap "marks" .string (Field.ofMessage "value" "test.Segment")]]⟩

theorem message?_point : figurePool.message? "test.Point" = some pointMessage := by
  simp [figurePool, Pool.message?_ofTypes, pointMessage]

theorem message?_segment : figurePool.message? "test.Segment" = some segmentMessage := by
  simp [figurePool, Pool.message?_ofTypes, segmentMessage, pointMessage]

/-- Nothing refers to the names of the path, one of which is that of the message itself. -/
theorem offCircles_figureMessage :
    figurePool.OffCircles ["test.Layer", "test.Figure"] figureMessage := by
  have hnames : ∀ a ∈ [figureMessage, segmentMessage, pointMessage], ∀ t, a.Refers t →
      a = figureMessage ∧ (t = "test.Point" ∨ t = "test.Segment") ∨
        a = segmentMessage ∧ t = "test.Point" := by
    rintro a ha t ⟨f, hf, hm, ht, -⟩
    simp only [List.mem_cons, List.not_mem_nil, or_false] at ha
    rcases ha with rfl | rfl | rfl
    · simp only [figureMessage, List.mem_cons, List.not_mem_nil, or_false] at hf
      rcases hf with rfl | rfl | rfl
      · exact .inl ⟨rfl, .inl (Option.some.inj ht).symm⟩
      · exact .inl ⟨rfl, .inr (Option.some.inj ht).symm⟩
      · exact .inl ⟨rfl, .inr (Option.some.inj ht).symm⟩
    · simp only [segmentMessage, List.mem_cons, List.not_mem_nil, or_false] at hf
      rcases hf with rfl | rfl
      · exact .inr ⟨rfl, (Option.some.inj ht).symm⟩
      · exact .inr ⟨rfl, (Option.some.inj ht).symm⟩
    · simp only [pointMessage, List.mem_cons, List.not_mem_nil, or_false] at hf
      subst hf
      cases hm
  refine .of_rank [figureMessage, segmentMessage, pointMessage] (·.fields.length)
    List.mem_cons_self ?_ ?_ ?_
  · simp [figurePool, Pool.message?_ofTypes, figureMessage, segmentMessage, pointMessage]
  · rintro a ha b ⟨t, href, hb⟩
    rcases hnames a ha t href with ⟨rfl, rfl | rfl⟩ | ⟨rfl, rfl⟩
    · obtain rfl := Option.some.inj (message?_point.symm.trans hb)
      exact ⟨by simp, by decide⟩
    · obtain rfl := Option.some.inj (message?_segment.symm.trans hb)
      exact ⟨by simp, by decide⟩
    · obtain rfl := Option.some.inj (message?_point.symm.trans hb)
      exact ⟨by simp, by decide⟩
  · intro a ha t href
    rcases hnames a ha t href with ⟨-, rfl | rfl⟩ | ⟨-, rfl⟩ <;> decide

/-- A reference to a message of the pool that is not on the path is followed. -/
theorem step_reference {t : String} {m' : Message} (hw : WellKnown.ofName? t = none)
    (hm' : pool.message? t = some m') (hp : t ∉ here) :
    step pool required ⟨here, recursive, .reference t, frames⟩
      = some ⟨here, recursive, .message m', frames⟩ := by
  simp [step, hw, hm', hp]

theorem reaches_atCenter : Reaches figurePool required
    ⟨["test.Layer", "test.Figure"], .empty, .message figureMessage, []⟩ atCenter := by
  have hunknown : WellKnown.ofName? "test.Point" = none := by decide
  have hoff : "test.Point" ∉ ["test.Figure", "test.Layer", "test.Figure"] := by decide
  exact .head rfl (.head rfl (.head rfl (.head rfl
    (.head (step_reference hunknown message?_point hoff) (.refl _)))))

theorem reaches_atStart (point : Json) : Reaches figurePool required
    ⟨atCenter.path, .empty, .give point, atCenter.frames⟩ (atStart required point) := by
  have hunknown : WellKnown.ofName? "test.Point" = none := by decide
  have hunknown' : WellKnown.ofName? "test.Segment" = none := by decide
  have hoff : "test.Point" ∉ ["test.Segment", "test.Figure", "test.Layer", "test.Figure"] := by
    decide
  have hoff' : "test.Segment" ∉ ["test.Figure", "test.Layer", "test.Figure"] := by decide
  refine .head rfl (.head rfl (.head rfl (.head rfl
    (.head (step_reference hunknown' message?_segment hoff') ?_))))
  exact .head rfl (.head rfl (.head rfl (.head rfl
    (.head (step_reference hunknown message?_point hoff) (.refl _)))))

theorem messageShape_of_offCircles_figureMessage :
    figurePool.OffCircles ["test.Layer", "test.Figure"] figureMessage ∧
    ∃ schema point,
      Unfolds figurePool (fun _ => true) (.message figureMessage) schema ∧
      Reaches figurePool (fun _ => true)
        ⟨["test.Layer", "test.Figure"], .empty, .message figureMessage, []⟩
        ⟨["test.Layer", "test.Figure"], .empty, .give schema, []⟩ ∧
      Unfolds figurePool (fun _ => true) (.message pointMessage) point ∧
      Reaches figurePool (fun _ => true) atCenter
        ⟨atCenter.path, .empty, .give point, atCenter.frames⟩ ∧
      Reaches figurePool (fun _ => true) (atStart (fun _ => true) point)
        ⟨(atStart (fun _ => true) point).path, .empty, .give point,
          (atStart (fun _ => true) point).frames⟩ := by
  obtain ⟨hunfolds, hreach, -, hinside⟩ :=
    @messageShape_of_offCircles figurePool (fun _ => true) _ _ offCircles_figureMessage
  obtain ⟨point, hpoint, hgives⟩ := hinside .empty _ _ reaches_atCenter rfl
  have hsecond := reaches_atCenter.trans (hgives.trans (reaches_atStart point))
  obtain ⟨point', hpoint', hgives'⟩ := hinside .empty _ _ hsecond rfl
  obtain rfl : point = point' := (hpoint' _).1 ((hpoint _).2 rfl)
  exact ⟨offCircles_figureMessage, _, point, (hunfolds _).2 rfl, hreach _ _, (hpoint _).2 rfl,
    hgives, hgives'⟩

end
end Descent

end
end McpCatalog
