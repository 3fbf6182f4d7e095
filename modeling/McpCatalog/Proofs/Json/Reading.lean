import McpCatalog.Json.Text
import McpCatalog.Proofs.Json.Token
/-!
# Reading JSON texts

A reader goes over the tokens of a text one by one. It keeps the arrays and objects that are not
closed yet and knows what may come next; a comma without a value behind it, a missing colon and
anything behind the value are refused. Members are kept in the order in which they stand, those
with one name too.

Results:
* `reads`: the reader takes the tokens of a value for that value.
* `read?_eq_some_iff`: it takes no other tokens for it.
* `spells_prettyAt`: a value over several lines is spelled out by its tokens.
* `read?_pretty`: a value is read back from its text.
-/
namespace McpCatalog.Json

/-! ## The reader -/

/-- An array or an object that is not closed yet, with what is in it so far. -/
inductive Frame where
  | items (read : List Json)
  /-- The value of the member with the given name is being read. -/
  | members (read : List (String × Json)) (name : String)

/-- What is read so far. -/
inductive State where
  /-- A value comes next. -/
  | value (frames : List Frame)
  /-- An array was opened. -/
  | firstItem (frames : List Frame)
  /-- An object was opened. -/
  | firstName (frames : List Frame)
  /-- The name of one more member comes next. -/
  | nextName (read : List (String × Json)) (frames : List Frame)
  /-- The name of a member was read. -/
  | named (read : List (String × Json)) (name : String) (frames : List Frame)
  /-- A value was read. -/
  | complete (v : Json) (frames : List Frame)

/-- What a token does where a value is due. -/
def start (t : Token) (frames : List Frame) : Option State :=
  match t with
  | .openArray => some (.firstItem frames)
  | .openObject => some (.firstName frames)
  | .null => some (.complete .null frames)
  | .bool b => some (.complete (.bool b) frames)
  | .int n => some (.complete (.int n) frames)
  | .str s => some (.complete (.str s) frames)
  | _ => none

/-- What a token does behind a value. -/
def goOn (t : Token) (v : Json) : List Frame → Option State
  | .items read :: frames =>
    match t with
    | .comma => some (.value (.items (read ++ [v]) :: frames))
    | .closeArray => some (.complete (.arr (read ++ [v])) frames)
    | _ => none
  | .members read name :: frames =>
    match t with
    | .comma => some (.nextName (read ++ [(name, v)]) frames)
    | .closeObject => some (.complete (.obj (read ++ [(name, v)])) frames)
    | _ => none
  | [] => none

/-- What a token does. -/
def step (s : State) (t : Token) : Option State :=
  match s with
  | .value frames => start t frames
  | .firstItem frames =>
    if t = .closeArray then some (.complete (.arr []) frames) else start t (.items [] :: frames)
  | .firstName frames =>
    match t with
    | .closeObject => some (.complete (.obj []) frames)
    | .str name => some (.named [] name frames)
    | _ => none
  | .nextName read frames =>
    match t with
    | .str name => some (.named read name frames)
    | _ => none
  | .named read name frames =>
    match t with
    | .colon => some (.value (.members read name :: frames))
    | _ => none
  | .complete v frames => goOn t v frames

/-- The value of a text. -/
def read? (text : String) : Option Json := do
  let ts ← tokens? text.toList
  match ← ts.foldlM step (.value []) with
  | .complete v [] => some v
  | _ => none

/-! ## Tokens of values -/

mutual

/-- The tokens of a value. -/
def tokens : Json → List Token
  | .null => [.null]
  | .bool b => [.bool b]
  | .int n => [.int n]
  | .str s => [.str s]
  | .arr items => [.openArray] ++ [.comma].intercalate (tokensOfItems items) ++ [.closeArray]
  | .obj ms => [.openObject] ++ [.comma].intercalate (tokensOfMembers ms) ++ [.closeObject]

def tokensOfItems : List Json → List (List Token)
  | [] => []
  | v :: rest => v.tokens :: tokensOfItems rest

def tokensOfMembers : List (String × Json) → List (List Token)
  | [] => []
  | (k, v) :: rest => ([.str k, .colon] ++ v.tokens) :: tokensOfMembers rest

end

/-- A value does not start with a bracket that closes an array. -/
theorem exists_tokens (v : Json) : ∃ t ts, v.tokens = t :: ts ∧ t ≠ .closeArray := by
  cases v <;> exact ⟨_, _, rfl, Token.noConfusion⟩

/-- What holds of an array if it holds of its items, and of an object if it holds of the values in
it, holds of all values. -/
theorem induct {P : Json → Prop} (null : P .null) (bool : ∀ b, P (.bool b)) (int : ∀ n, P (.int n))
    (str : ∀ s, P (.str s)) (arr : ∀ items, (∀ v ∈ items, P v) → P (.arr items))
    (obj : ∀ ms : List (String × Json), (∀ m ∈ ms, P m.2) → P (.obj ms)) (v : Json) : P v :=
  @Json.rec P (fun items => ∀ v ∈ items, P v) (fun ms => ∀ m ∈ ms, P m.2) (fun m => P m.2)
    null bool int str arr obj
    (fun _ hv => nomatch hv) (fun _ _ hv hrest => List.forall_mem_cons.2 ⟨hv, hrest⟩)
    (fun _ hm => nomatch hm) (fun _ _ hm hrest => List.forall_mem_cons.2 ⟨hm, hrest⟩)
    (fun _ _ hv => hv) v

/-! ## Runs of the reader -/

/-- The tokens lead from one state to another. -/
def Leads (ts : List Token) (s s' : State) : Prop :=
  ts.foldlM step s = some s'

theorem Leads.append {ts ts' : List Token} {s s' s'' : State} (h : Leads ts s s')
    (h' : Leads ts' s' s'') : Leads (ts ++ ts') s s'' := by
  unfold Leads at h h' ⊢
  rw [List.foldlM_append, h]
  exact h'

/-- Wherever a value is due, the reader takes its tokens for it. -/
def Reads (v : Json) : Prop :=
  ∀ frames, Leads v.tokens (.value frames) (.complete v frames)

section
variable {items : List Json} {ms : List (String × Json)}

/-- In an array that was opened just now, the first value is read as any other. -/
theorem Reads.firstItem {v : Json} (h : v.Reads) (frames : List Frame) :
    Leads v.tokens (.firstItem frames) (.complete v (.items [] :: frames)) := by
  obtain ⟨t, ts, htokens, hne⟩ := exists_tokens v
  have hstep : step (.firstItem frames) t = step (.value (.items [] :: frames)) t := if_neg hne
  have hvalue := h (.items [] :: frames)
  unfold Leads at hvalue ⊢
  rw [htokens, List.foldlM_cons] at hvalue ⊢
  rwa [hstep]

/-- The other items of an array are read, and the bracket that closes it. -/
theorem leads_items (h : ∀ w ∈ items, w.Reads) (read : List Json) (v : Json)
    (frames : List Frame) :
    Leads ((tokensOfItems items).flatMap ([.comma] ++ ·) ++ [.closeArray])
      (.complete v (.items read :: frames)) (.complete (.arr (read ++ v :: items)) frames) := by
  induction items generalizing read v with
  | nil => rfl
  | cons w items ih =>
    have hcomma : Leads [.comma] (.complete v (.items read :: frames))
        (.value (.items (read ++ [v]) :: frames)) := rfl
    have hmore := ih (fun w' hw' => h w' (List.mem_cons_of_mem _ hw')) (read ++ [v]) w
    have hall := (hcomma.append (h w List.mem_cons_self _)).append hmore
    rw [List.append_assoc read] at hall
    rw [tokensOfItems, List.flatMap_cons, List.append_assoc]
    exact hall

theorem reads_arr (h : ∀ w ∈ items, w.Reads) : (Json.arr items).Reads := by
  intro frames
  cases items with
  | nil => rfl
  | cons v items =>
    have hopen : Leads [.openArray] (.value frames) (.firstItem frames) := rfl
    have hmore := leads_items (fun w hw => h w (List.mem_cons_of_mem _ hw)) [] v frames
    rw [tokens, tokensOfItems, intercalate_cons, List.append_assoc, List.append_assoc]
    exact hopen.append (((h v List.mem_cons_self).firstItem frames).append hmore)

/-- The other members of an object are read, and the brace that closes it. -/
theorem leads_members (h : ∀ m ∈ ms, m.2.Reads) (read : List (String × Json)) (name : String)
    (v : Json) (frames : List Frame) :
    Leads ((tokensOfMembers ms).flatMap ([.comma] ++ ·) ++ [.closeObject])
      (.complete v (.members read name :: frames))
      (.complete (.obj (read ++ (name, v) :: ms)) frames) := by
  induction ms generalizing read name v with
  | nil => rfl
  | cons m ms ih =>
    have hname : Leads ([.comma] ++ [.str m.1, .colon]) (.complete v (.members read name :: frames))
        (.value (.members (read ++ [(name, v)]) m.1 :: frames)) := rfl
    have hmore := ih (fun m' hm' => h m' (List.mem_cons_of_mem _ hm')) (read ++ [(name, v)]) m.1 m.2
    have hall := (hname.append (h m List.mem_cons_self _)).append hmore
    rw [List.append_assoc read, List.append_assoc [Token.comma]] at hall
    rw [tokensOfMembers, List.flatMap_cons, List.append_assoc]
    exact hall

theorem reads_obj (h : ∀ m ∈ ms, m.2.Reads) : (Json.obj ms).Reads := by
  intro frames
  cases ms with
  | nil => rfl
  | cons m ms =>
    have hname : Leads ([.openObject] ++ [.str m.1, .colon]) (.value frames)
        (.value (.members [] m.1 :: frames)) := rfl
    have hmore := leads_members (fun m' hm' => h m' (List.mem_cons_of_mem _ hm')) [] m.1 m.2 frames
    have hall := hname.append ((h m List.mem_cons_self _).append hmore)
    rw [tokens, tokensOfMembers, intercalate_cons, List.append_assoc, List.append_assoc,
      List.append_assoc]
    rwa [List.append_assoc] at hall

end

/-- The reader takes the tokens of a value for that value. -/
theorem reads (v : Json) : v.Reads := by
  induction v using induct with
  | null => exact fun _ => rfl
  | bool b => exact fun _ => rfl
  | int n => exact fun _ => rfl
  | str s => exact fun _ => rfl
  | arr items ih => exact reads_arr ih
  | obj ms ih => exact reads_obj ih

/-! ## What was read -/

theorem tokensOfItems_eq (items : List Json) : tokensOfItems items = items.map tokens := by
  induction items with
  | nil => rfl
  | cons v items ih => rw [tokensOfItems, ih, List.map_cons]

theorem tokensOfMembers_eq (ms : List (String × Json)) :
    tokensOfMembers ms = ms.map fun m => [.str m.1, .colon] ++ m.2.tokens := by
  induction ms with
  | nil => rfl
  | cons m ms ih => rw [tokensOfMembers, ih, List.map_cons]

/-- What is joined comes before the last part with the separator behind. -/
theorem intercalate_concat {α : Type} (sep x : List α) (xs : List (List α)) :
    sep.intercalate (xs ++ [x]) = xs.flatMap (· ++ sep) ++ x := by
  induction xs with
  | nil => rw [List.nil_append, List.intercalate_singleton, List.flatMap_nil, List.nil_append]
  | cons y ys ih =>
    rw [List.flatMap_cons, List.append_assoc, ← ih]
    cases ys with
    | nil => rw [List.nil_append, List.cons_append, List.nil_append, List.intercalate_cons_cons]
    | cons z zs => rw [List.cons_append, List.cons_append, List.intercalate_cons_cons]

/-- The tokens of an array up to the value that is due. -/
def beforeItem (read : List Json) : List Token :=
  [.openArray] ++ (tokensOfItems read).flatMap (· ++ [.comma])

/-- The tokens of an object up to the name that is due. -/
def beforeName (read : List (String × Json)) : List Token :=
  [.openObject] ++ (tokensOfMembers read).flatMap (· ++ [.comma])

def Frame.taken : Frame → List Token
  | .items read => beforeItem read
  | .members read name => beforeName read ++ [.str name, .colon]

/-- The tokens in front of what is being read, from the outermost array or object on. -/
def taken (frames : List Frame) : List Token :=
  frames.reverse.flatMap Frame.taken

theorem taken_cons (f : Frame) (frames : List Frame) :
    taken (f :: frames) = taken frames ++ f.taken := by
  simp [taken]

/-- The tokens that a state was reached by. -/
def State.taken : State → List Token
  | .value frames => Json.taken frames
  | .firstItem frames => Json.taken frames ++ [.openArray]
  | .firstName frames => Json.taken frames ++ [.openObject]
  | .nextName read frames => Json.taken frames ++ beforeName read
  | .named read name frames => Json.taken frames ++ beforeName read ++ [.str name]
  | .complete v frames => Json.taken frames ++ v.tokens

theorem taken_start {t : Token} {frames : List Frame} {s : State} (h : start t frames = some s) :
    s.taken = taken frames ++ [t] := by
  unfold start at h
  split at h
  case h_7 => cases h
  all_goals
    cases h
    rfl

theorem taken_goOn {t : Token} {v : Json} {frames : List Frame} {s : State}
    (h : goOn t v frames = some s) : s.taken = taken frames ++ v.tokens ++ [t] := by
  unfold goOn at h
  split at h
  · split at h
    · cases h
      simp [State.taken, taken_cons, Frame.taken, beforeItem, tokensOfItems_eq]
    · cases h
      simp [State.taken, taken_cons, Frame.taken, beforeItem, tokens, tokensOfItems_eq,
        intercalate_concat]
    · cases h
  · split at h
    · cases h
      simp [State.taken, taken_cons, Frame.taken, beforeName, tokensOfMembers_eq]
    · cases h
      simp [State.taken, taken_cons, Frame.taken, beforeName, tokens, tokensOfMembers_eq,
        intercalate_concat]
    · cases h
  · cases h

/-- A step takes one token. -/
theorem taken_step {s s' : State} {t : Token} (h : step s t = some s') :
    s'.taken = s.taken ++ [t] := by
  unfold step at h
  split at h
  · exact taken_start h
  · next frames =>
    split at h
    · next ht =>
      cases h
      simp [State.taken, ht, tokens, tokensOfItems]
    · rw [taken_start h, taken_cons]
      rfl
  · split at h
    · cases h
      simp [State.taken, tokens, tokensOfMembers]
    · cases h
      rfl
    · cases h
  · split at h
    · cases h
      rfl
    · cases h
  · split at h
    · cases h
      simp [State.taken, taken_cons, Frame.taken]
    · cases h
  · exact taken_goOn h

/-- A run takes all tokens. -/
theorem taken_of_leads {ts : List Token} {s s' : State} (h : Leads ts s s') :
    s'.taken = s.taken ++ ts := by
  unfold Leads at h
  induction ts generalizing s with
  | nil =>
    cases h
    exact (List.append_nil _).symm
  | cons t ts ih =>
    rw [List.foldlM_cons] at h
    obtain ⟨s₁, hstep, hmore⟩ := Option.bind_eq_some_iff.1 h
    rw [ih hmore, taken_step hstep, List.append_assoc]
    rfl

/-- A text is read as a value if and only if its tokens are those of the value. -/
theorem read?_eq_some_iff {text : String} {v : Json} :
    read? text = some v ↔ tokens? text.toList = some v.tokens := by
  unfold read?
  constructor
  · intro h
    obtain ⟨ts, hts, hrun⟩ := Option.bind_eq_some_iff.1 h
    obtain ⟨s, hs, hv⟩ := Option.bind_eq_some_iff.1 hrun
    split at hv
    · cases hv
      have htaken := taken_of_leads hs
      rw [hts, Option.some.injEq]
      exact htaken.symm
    · cases hv
  · intro h
    have hreads : v.tokens.foldlM step (.value []) = some (.complete v []) := reads v []
    rw [h, Option.bind_eq_bind, Option.bind_some, hreads]
    rfl

example : ["", "[1,]", "01", "1 2", "\"\\uD800\"", "\x7b\"a\" 1\x7d"].all
    (fun text => (read? text).isNone) = true := by
  decide +kernel

/-! ## Values over several lines -/

theorem isSpace_newline (level : Nat) : ∀ c ∈ (newline level).toList, isSpace c = true := by
  intro c hc
  rw [newline, String.toList_ofList, List.mem_cons, List.mem_replicate] at hc
  rcases hc with rfl | ⟨-, rfl⟩
  · rfl
  · rfl

/-- Lines between marks are separated by commas, apart from white space. -/
theorem spells_block {opening closing : Char} {t t' : Token} (ht : mark? opening = some t)
    (ht' : mark? closing = some t') (level : Nat) {tss : List (List Token)} {lines : List String}
    (h : List.Forall₂ (Spells NoDigit) tss (lines.map String.toList)) :
    Spells Anything ([t] ++ [.comma].intercalate tss ++ [t'])
      (block (String.singleton opening) (String.singleton closing) level lines).toList := by
  unfold block
  split
  · next hempty =>
    rw [List.isEmpty_iff] at hempty
    subst hempty
    cases h
    rw [String.toList_append, String.toList_singleton, String.toList_singleton]
    exact ((spells_mark ht).andThen spells_nil).andThen (spells_mark ht')
  · have hlines := spells_intercalate (isSpace_newline (level + 1)) h
    have hall := spells_enclosed ht ht' (isSpace_newline (level + 1)) (isSpace_newline level) hlines
    simpa using hall

theorem forall₂_prettyItems {items : List Json} {level : Nat}
    (h : ∀ v ∈ items, Spells NoDigit v.tokens (v.prettyAt level).toList) :
    List.Forall₂ (Spells NoDigit) (tokensOfItems items)
      ((prettyItems level items).map String.toList) := by
  induction items with
  | nil => exact .nil
  | cons v items ih =>
    exact .cons (h v List.mem_cons_self) (ih fun w hw => h w (List.mem_cons_of_mem _ hw))

theorem forall₂_prettyMembers {ms : List (String × Json)} {level : Nat}
    (h : ∀ m ∈ ms, Spells NoDigit m.2.tokens (m.2.prettyAt level).toList) :
    List.Forall₂ (Spells NoDigit) (tokensOfMembers ms)
      ((prettyMembers level ms).map String.toList) := by
  induction ms with
  | nil => exact .nil
  | cons m ms ih =>
    have hmark : Spells Anything [.colon] [':'] := spells_mark rfl
    have hspace : Spells Anything [] [' '] := spells_space (by simp [isSpace])
    have hcolon : Spells Anything [.colon] ": ".toList := hmark.andThen hspace
    have hname : Spells Anything [.str m.1, .colon] (quoted m.1 ++ ": ").toList := by
      rw [String.toList_append]
      exact (spells_str m.1).andThen hcolon
    have hmember := hname.andThen (h m List.mem_cons_self)
    rw [← String.toList_append] at hmember
    exact .cons hmember (ih fun m' hm' => h m' (List.mem_cons_of_mem _ hm'))

/-- A value over several lines is spelled out by its tokens. -/
theorem spells_prettyAt (v : Json) (level : Nat) :
    Spells NoDigit v.tokens (v.prettyAt level).toList := by
  induction v using induct generalizing level with
  | null => exact spells_null.weaken
  | bool b => exact (spells_bool b).weaken
  | int n => exact spells_int n
  | str s => exact (spells_str s).weaken
  | arr items ih =>
    have hitems := forall₂_prettyItems fun v hv => ih v hv (level + 1)
    have hopening : mark? '[' = some .openArray := rfl
    have hclosing : mark? ']' = some .closeArray := rfl
    exact (spells_block hopening hclosing level hitems).weaken
  | obj ms ih =>
    have hmembers := forall₂_prettyMembers fun m hm => ih m hm (level + 1)
    have hopening : mark? '\x7b' = some .openObject := rfl
    have hclosing : mark? '\x7d' = some .closeObject := rfl
    exact (spells_block hopening hclosing level hmembers).weaken

/-- A value is read back from its text over several lines, with a newline at the end. -/
theorem read?_pretty (v : Json) : read? (v.pretty ++ "\n") = some v := by
  have hnewline : Spells Anything [] "\n".toList := spells_space (by simp [isSpace])
  have hall : Spells NoDigit (v.tokens ++ []) ((v.prettyAt 0).toList ++ "\n".toList) :=
    (spells_prettyAt v 0).append hnewline.weaken fun rest _ => noDigit_cons rfl
  rw [List.append_nil, ← String.toList_append] at hall
  exact read?_eq_some_iff.2 hall.tokens?

end McpCatalog.Json
