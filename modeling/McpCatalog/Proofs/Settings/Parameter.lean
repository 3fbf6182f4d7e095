import Mathlib.Data.List.Forall2
import Mathlib.Data.List.Nodup
import Mathlib.Data.List.ReduceOption
import McpCatalog.Proofs.Settings.Change
import McpCatalog.Proofs.Text.Blank
/-!
# Which settings a parameter stands for

A parameter gives texts to keys. In which order it has the keys, and which blanks and blank segments
it has, makes no difference: the settings are those of the file to start from, with the fields of
the other keys as their texts ask for, if nothing is wrong with them.

Results:
* `pairs_eq_ok_iff`: when a parameter has pairs, and which.
* `pairs_of_writes`: however keys and texts are written down, their pairs are read.
* `ofParameter_of_writes`: so are the settings that the keys and texts describe; no settings are
  read from a parameter with a segment that is no pair, or with a key that is empty, unknown or
  repeated.
-/
namespace McpCatalog.Settings

/-! ## Segments -/

theorem trimmed_congr {cs cs' : List Char} (h : Text.trim cs = Text.trim cs') :
    trimmed cs = trimmed cs' :=
  congrArg String.ofList h

theorem bne_of_not_mem {c : Char} {cs : List Char} (h : c ∉ cs) : ∀ d ∈ cs, (d != c) = true :=
  fun _ hd => bne_iff_ne.2 fun heq => h (heq ▸ hd)

theorem pair_of_not_mem {segment : List Char} (h : '=' ∉ segment) :
    pair segment = .error (.malformed (String.ofList segment)) := by
  have hnil : segment.dropWhile (· != '=') = [] := List.dropWhile_eq_nil_iff.2 (bne_of_not_mem h)
  rw [pair, hnil]

theorem pair_append {key value : List Char} (h : '=' ∉ key) :
    pair (key ++ '=' :: value)
      = if (trimmed key).isEmpty then .error (.emptyKey (String.ofList (key ++ '=' :: value)))
        else .ok (trimmed key, trimmed value) := by
  have hkey := bne_of_not_mem h
  have hdrop : (key ++ '=' :: value).dropWhile (· != '=') = '=' :: value := by
    rw [List.dropWhile_append_of_pos hkey]
    rfl
  have htake : (key ++ '=' :: value).takeWhile (· != '=') = key := by
    rw [List.takeWhile_append_of_pos hkey]
    simp
  rw [pair, hdrop, htake]

theorem isEmpty_trimmed_iff {cs : List Char} : (trimmed cs).isEmpty = true ↔ Text.Blank cs := by
  rw [← Text.trim_eq_nil_iff, String.isEmpty_iff, trimmed, String.ofList_eq_empty_iff]

theorem mem_of_mem_trimStart {c : Char} {cs : List Char} (h : c ∈ Text.trimStart cs) : c ∈ cs :=
  (List.dropWhile_sublist _).subset h

/-- The segment is a pair with blanks around it. -/
def HasPair (segment : List Char) (e : String × String) : Prop :=
  pair (Text.trim segment) = .ok e

section
variable {key value segment : List Char} {e : String × String}

/-- Blanks in a segment make no difference to its key and its value. -/
theorem hasPair_append (h : '=' ∉ key) (hkey : ¬ Text.Blank key) :
    HasPair (key ++ '=' :: value) (trimmed key, trimmed value) := by
  have hstart : '=' ∉ Text.trimStart key := fun hmem => h (mem_of_mem_trimStart hmem)
  have hblank : ¬ (trimmed (Text.trimStart key)).isEmpty = true := by
    rw [trimmed_congr (Text.trim_trimStart key), isEmpty_trimmed_iff]
    exact hkey
  rw [HasPair, Text.trim_middle rfl, pair_append hstart, if_neg hblank,
    trimmed_congr (Text.trim_trimStart key), trimmed_congr (Text.trim_trimEnd value)]

theorem HasPair.not_blank (h : HasPair (key ++ '=' :: value) e) : ¬ Text.Blank key := by
  intro hblank
  have hempty : (trimmed []).isEmpty = true := rfl
  rw [HasPair, Text.trim_middle rfl, Text.trimStart_eq_nil_iff.2 hblank,
    pair_append List.not_mem_nil, if_pos hempty] at h
  cases h

theorem HasPair.eq (h : HasPair (key ++ '=' :: value) e) (hequals : '=' ∉ key) :
    e = (trimmed key, trimmed value) :=
  Except.ok.inj (h.symm.trans (hasPair_append hequals h.not_blank))

theorem HasPair.equals_mem (h : HasPair segment e) : '=' ∈ segment := by
  by_contra hequals
  have htrim : '=' ∉ Text.trim segment := by
    intro hmem
    obtain ⟨ws, ws', -, -, hsegment⟩ := Text.padded_trim segment
    exact hequals (by rw [hsegment]; simp [hmem])
  rw [HasPair, pair_of_not_mem htrim] at h
  cases h

end

theorem not_blank_append (key value : List Char) : ¬ Text.Blank (key ++ '=' :: value) := by
  intro h
  have hequals := h '=' (by simp)
  exact absurd hequals (by decide)

/-! ## Pairs -/

/-- The pair of one more segment, which has none of the keys so far. -/
theorem addPair_eq_ok_iff {acc acc' : List (String × String)} {segment : List Char}
    (h : (acc.map Prod.fst).Nodup) :
    addPair acc segment = .ok acc' ↔
      ∃ e, pair segment = .ok e ∧ acc' = acc ++ [e] ∧ (acc'.map Prod.fst).Nodup := by
  rw [addPair, bind_eq_ok_iff]
  refine exists_congr fun e => and_congr_right fun _ => ?_
  have hnodup : ((acc ++ [e]).map Prod.fst).Nodup ↔ acc.lookup e.1 = none := by
    rw [lookup_eq_none_iff_not_mem, List.map_append, List.map_singleton,
      (List.perm_append_singleton _ _).nodup_iff, List.nodup_cons, and_iff_left h]
  cases hlookup : acc.lookup e.1 with
  | none =>
    have hnew := hnodup.2 hlookup
    simp only [hlookup, pure, Except.pure]
    constructor
    · rintro ⟨⟩
      exact ⟨rfl, hnew⟩
    · rintro ⟨rfl, -⟩
      rfl
  | some value =>
    have hold : ¬ ((acc ++ [e]).map Prod.fst).Nodup := by
      rw [hnodup, hlookup]
      exact Option.some_ne_none value
    simp only [hlookup, bind, Except.bind]
    constructor
    · rintro ⟨⟩
    · rintro ⟨rfl, hnew⟩
      exact absurd hnew hold

theorem foldlM_addPair_eq_ok_iff {segments : List (List Char)} {acc ps : List (String × String)}
    (h : (acc.map Prod.fst).Nodup) :
    segments.foldlM addPair acc = .ok ps ↔
      ∃ new, List.Forall₂ (fun segment e => pair segment = .ok e) segments new ∧
        ps = acc ++ new ∧ (ps.map Prod.fst).Nodup := by
  -- the pairs so far have different keys, which `addPair_eq_ok_iff` keeps up
  induction segments generalizing acc with
  | nil =>
    constructor
    · intro hps
      cases hps
      exact ⟨[], .nil, by simp, h⟩
    · intro ⟨new, hnew, hps, _⟩
      cases hnew
      simp [hps, pure, Except.pure]
  | cons segment segments ih =>
    rw [List.foldlM_cons, bind_eq_ok_iff]
    constructor
    · intro ⟨acc', hacc, hps⟩
      obtain ⟨e, he, rfl, hnodup⟩ := (addPair_eq_ok_iff h).1 hacc
      obtain ⟨new, hnew, rfl, hall⟩ := (ih hnodup).1 hps
      exact ⟨e :: new, .cons he hnew, by simp, hall⟩
    · intro ⟨new, hnew, hps, hall⟩
      cases hnew with
      | @cons _ e _ new he hnew =>
        rw [List.append_cons] at hps
        have hnodup : ((acc ++ [e]).map Prod.fst).Nodup := by
          rw [hps, List.map_append] at hall
          exact (List.nodup_append.1 hall).1
        exact ⟨acc ++ [e], (addPair_eq_ok_iff h).2 ⟨e, he, rfl, hnodup⟩,
          (ih hnodup).2 ⟨new, hnew, hps, hall⟩⟩

/-- The segments that are not blank. -/
def marked (segments : List (List Char)) : List (List Char) :=
  segments.filter fun segment => !(Text.trim segment).isEmpty

theorem marked_cons_of_blank {segment : List Char} (h : Text.Blank segment)
    (segments : List (List Char)) : marked (segment :: segments) = marked segments := by
  simp [marked, Text.trim_eq_nil_iff.2 h]

theorem marked_cons_of_not_blank {segment : List Char} (h : ¬ Text.Blank segment)
    (segments : List (List Char)) : marked (segment :: segments) = segment :: marked segments := by
  rw [← Text.trim_eq_nil_iff] at h
  simp [marked, h]

theorem pairs_eq_ok_iff {parameter : String} {ps : List (String × String)} :
    pairs parameter = .ok ps ↔
      List.Forall₂ HasPair (marked (parameter.toList.splitOn ',')) ps ∧
        (ps.map Prod.fst).Nodup := by
  have hsegments : segments parameter = (marked (parameter.toList.splitOn ',')).map Text.trim :=
    List.filter_map
  rw [pairs, foldlM_addPair_eq_ok_iff (by simp), hsegments]
  simp only [List.forall₂_map_left_iff, List.nil_append]
  constructor
  · intro ⟨new, hnew, hps, hnodup⟩
    exact ⟨hps ▸ hnew, hnodup⟩
  · intro ⟨hps, hnodup⟩
    exact ⟨ps, hps, rfl, hnodup⟩

/-! ## Parameters that are written down -/

/-- A text that can stand in a parameter: without a comma, and without blanks at its ends. -/
structure Plain (text : String) : Prop where
  trimmed : Text.trim text.toList = text.toList
  no_comma : ',' ∉ text.toList

/-- A blank segment, or one of a key and its text with blanks around each. -/
inductive Segment : Option (Key × String) → List Char → Prop
  | blank {ws : List Char} (h : Text.Blank ws) : Segment none ws
  | entry {k : Key} {text : String} {key value : List Char}
      (hkey : Text.Padded k.name.toList key) (hvalue : Text.Padded text.toList value) :
      Segment (some (k, text)) (key ++ '=' :: value)

theorem segment_of_trim {k : Key} {text : String} {key value : List Char}
    (hkey : Text.trim key = k.name.toList) (hvalue : Text.trim value = text.toList) :
    Segment (some (k, text)) (key ++ '=' :: value) :=
  .entry (Text.padded_of_trim hkey) (Text.padded_of_trim hvalue)

/-- The parameter has a segment for each key with a text, in some order, and blank segments. -/
def Writes (texts : Key → Option String) (parameter : String) : Prop :=
  ∃ items segments, List.Forall₂ Segment items segments ∧ Lists texts items.reduceOption ∧
    parameter.toList = [','].intercalate segments

theorem Key.trim_name (k : Key) : Text.trim k.name.toList = k.name.toList := by
  cases k <;> decide

theorem Key.name_ne_nil (k : Key) : k.name.toList ≠ [] := by
  cases k <;> decide

theorem Key.equals_not_mem_name (k : Key) : '=' ∉ k.name.toList := by
  cases k <;> decide

theorem Key.comma_not_mem_name (k : Key) : ',' ∉ k.name.toList := by
  cases k <;> decide

theorem pair_of_segment {k : Key} {text : String} {segment : List Char} (htext : Plain text)
    (h : Segment (some (k, text)) segment) :
    HasPair segment (Key.named (k, text)) := by
  cases h with
  | @entry _ _ key value hkey hvalue =>
    have hequals : '=' ∉ key := hkey.not_mem rfl k.equals_not_mem_name
    have hblank : ¬ Text.Blank key := by
      rw [← Text.trim_eq_nil_iff, hkey.trim_eq, k.trim_name]
      exact k.name_ne_nil
    have hpair := @hasPair_append key value hequals hblank
    rw [trimmed, trimmed, hkey.trim_eq, hvalue.trim_eq, k.trim_name, htext.trimmed,
      String.ofList_toList, String.ofList_toList] at hpair
    exact hpair

theorem segment_not_blank {e : Key × String} {segment : List Char}
    (h : Segment (some e) segment) : ¬ Text.Blank segment := by
  cases h with
  | entry _ _ => exact not_blank_append _ _

theorem comma_not_mem_segment {item : Option (Key × String)} {segment : List Char}
    (hplain : ∀ e, item = some e → Plain e.2) (h : Segment item segment) : ',' ∉ segment := by
  cases h with
  | blank hblank =>
    intro hcomma
    exact absurd (hblank ',' hcomma) (by decide)
  | @entry k text key value hkey hvalue =>
    have hkey' := hkey.not_mem rfl k.comma_not_mem_name
    have hvalue' := hvalue.not_mem rfl (hplain (k, text) rfl).no_comma
    simp [hkey', hvalue']

theorem pairs_of_items {items : List (Option (Key × String))} {segments : List (List Char)}
    (hplain : ∀ e, some e ∈ items → Plain e.2) (h : List.Forall₂ Segment items segments) :
    List.Forall₂ HasPair (marked segments) (items.reduceOption.map Key.named) := by
  induction h with
  | nil => exact .nil
  | @cons item segment items segments hsegment _ ih =>
    have hrest := ih fun e he => hplain e (List.mem_cons_of_mem _ he)
    cases item with
    | none =>
      cases hsegment with
      | blank hblank =>
        rw [marked_cons_of_blank hblank]
        exact hrest
    | some e =>
      rw [marked_cons_of_not_blank (segment_not_blank hsegment)]
      exact .cons (pair_of_segment (hplain e List.mem_cons_self) hsegment) hrest

theorem comma_not_mem_segments {items : List (Option (Key × String))} {segments : List (List Char)}
    (hplain : ∀ e, some e ∈ items → Plain e.2) (h : List.Forall₂ Segment items segments) :
    ∀ segment ∈ segments, ',' ∉ segment := by
  induction h with
  | nil => simp
  | cons hsegment _ ih =>
    have hfirst := comma_not_mem_segment
      (fun e he => hplain e (he ▸ List.mem_cons_self)) hsegment
    have hrest := ih fun e he => hplain e (List.mem_cons_of_mem _ he)
    exact List.forall_mem_cons.2 ⟨hfirst, hrest⟩

theorem marked_splitOn {items : List (Option (Key × String))} {segments : List (List Char)}
    (hplain : ∀ e, some e ∈ items → Plain e.2) (h : List.Forall₂ Segment items segments) :
    marked (([','].intercalate segments).splitOn ',') = marked segments := by
  rcases eq_or_ne segments [] with rfl | hne
  · rfl
  · rw [List.splitOn_intercalate ',' (comma_not_mem_segments hplain h) hne]

theorem Lists.nodup_names {α : Type} {values : Key → Option α} {es : List (Key × α)}
    (h : Lists values es) : ((es.map Key.named).map Prod.fst).Nodup := by
  have hnames := List.Nodup.map Key.name_injective h.nodup
  rw [List.map_map] at hnames ⊢
  exact hnames

theorem pairs_of_writes {texts : Key → Option String} {parameter : String}
    (hplain : ∀ k text, texts k = some text → Plain text) (h : Writes texts parameter) :
    ∃ es, Lists texts es ∧ pairs parameter = .ok (es.map Key.named) := by
  obtain ⟨items, segments, hsegments, hlists, hparameter⟩ := h
  have hitems : ∀ e, some e ∈ items → Plain e.2 := fun e he =>
    hplain e.1 e.2 ((hlists.mem_iff e.1 e.2).1 (List.reduceOption_mem_iff.2 he))
  refine ⟨items.reduceOption, hlists, ?_⟩
  rw [pairs_eq_ok_iff, hparameter, marked_splitOn hitems hsegments]
  exact ⟨pairs_of_items hitems hsegments, hlists.nodup_names⟩

/-! ## The settings that are described -/

/-- The settings to start from: those in the file, if there is one. -/
def Starts (read? : String → Option Bytes) (texts : Key → Option String) (s : Settings) : Prop :=
  match texts .config with
  | some path => load read? path = .ok s
  | none => s = default

/-- There is nothing wrong with the settings, and they are those to start from with the fields of
the other keys as the texts ask for. -/
def Describes (read? : String → Option Bytes) (texts : Key → Option String) (s : Settings) : Prop :=
  ∃ start, Starts read? texts start ∧ Replaces texts start s ∧ s.fault? = none

theorem lookup_named {α : Type} (es : List (Key × α)) (k : Key) :
    (es.map Key.named).lookup k.name = es.lookup k := by
  induction es with
  | nil => rfl
  | cons e es ih =>
    have hname : (k.name == e.1.name) = (k == e.1) := by
      rw [Bool.eq_iff_iff, beq_iff_eq, beq_iff_eq, Key.name_injective.eq_iff]
    rw [List.map_cons, Key.named, List.lookup_cons, List.lookup_cons, hname, ih]

theorem base_eq_ok_iff {read? : String → Option Bytes} {texts : Key → Option String}
    {es : List (Key × String)} (h : Lists texts es) {s : Settings} :
    base read? (es.map Key.named) = .ok s ↔ Starts read? texts s := by
  have hlookup : (es.map Key.named).lookup baseKey = texts .config :=
    (lookup_named es .config).trans (h.lookup_eq .config)
  rw [base, hlookup, Starts]
  cases texts .config with
  | none => exact ⟨fun hs => (Except.ok.inj hs).symm, fun hs => hs ▸ rfl⟩
  | some path => rfl

theorem mapError_check_eq_ok_iff {s t : Settings} :
    s.check.mapError Error.fault = .ok t ↔ s = t ∧ s.fault? = none := by
  have hcheck : s.check.mapError Error.fault = .ok t ↔ s.check = .ok t := by
    cases s.check <;> simp [Except.mapError]
  exact hcheck.trans check_eq_ok_iff

theorem ofParameter_eq_ok_iff {read? : String → Option Bytes} {parameter : String} {s : Settings} :
    ofParameter read? parameter = .ok s ↔
      ∃ ps start, pairs parameter = .ok ps ∧ base read? ps = .ok start ∧
        ps.foldlM withPair start = .ok s ∧ s.fault? = none := by
  simp only [ofParameter, bind_eq_ok_iff, mapError_check_eq_ok_iff]
  constructor
  · rintro ⟨ps, hps, start, hstart, _, ht, rfl, hfault⟩
    exact ⟨ps, start, hps, hstart, ht, hfault⟩
  · rintro ⟨ps, start, hps, hstart, hs, hfault⟩
    exact ⟨ps, hps, start, hstart, s, hs, rfl, hfault⟩

theorem ofParameter_of_pairs {read? : String → Option Bytes} {texts : Key → Option String}
    {parameter : String} {es : List (Key × String)} (hlists : Lists texts es)
    (h : pairs parameter = .ok (es.map Key.named)) {s : Settings} :
    ofParameter read? parameter = .ok s ↔ Describes read? texts s := by
  have htexts : (es.lookup ·) = texts := funext hlists.lookup_eq
  rw [ofParameter_eq_ok_iff]
  constructor
  · rintro ⟨ps, start, hps, hstart, hs, hfault⟩
    obtain rfl : es.map Key.named = ps := Except.ok.inj (h.symm.trans hps)
    rw [foldlM_withPair_eq_ok_iff hlists.nodup, htexts] at hs
    exact ⟨start, (base_eq_ok_iff hlists).1 hstart, hs, hfault⟩
  · rintro ⟨start, hstart, hs, hfault⟩
    rw [← htexts, ← foldlM_withPair_eq_ok_iff hlists.nodup] at hs
    exact ⟨_, start, h, (base_eq_ok_iff hlists).2 hstart, hs, hfault⟩

/-! ## Parameters that stand for no settings -/

/-- There is a segment that is no pair, or a key that is empty, unknown or repeated. -/
inductive Malformed (segments : List (List Char)) : Prop
  | noPair {segment : List Char} (h : segment ∈ segments) (hblank : ¬ Text.Blank segment)
      (hequals : '=' ∉ segment)
  | emptyKey {key value : List Char} (h : key ++ '=' :: value ∈ segments) (hblank : Text.Blank key)
  | unknownKey {key value : List Char} (h : key ++ '=' :: value ∈ segments) (hequals : '=' ∉ key)
      (hunknown : ∀ k : Key, Text.trim key ≠ k.name.toList)
  | repeatedKey {key value key' value' : List Char}
      (h : [key ++ '=' :: value, key' ++ '=' :: value'].Sublist segments) (hequals : '=' ∉ key)
      (hequals' : '=' ∉ key') (hrepeated : Text.trim key = Text.trim key')

theorem exists_sublist_of_forall₂ {α β : Type} {r : α → β → Prop} {as part : List α} {bs : List β}
    (hpart : part.Sublist as) (h : List.Forall₂ r as bs) :
    ∃ part', part'.Sublist bs ∧ List.Forall₂ r part part' := by
  induction hpart generalizing bs with
  | slnil => exact ⟨[], List.nil_sublist _, .nil⟩
  | cons a _ ih =>
    cases h with
    | cons _ hrest =>
      obtain ⟨part', hsub, hr⟩ := ih hrest
      exact ⟨part', hsub.cons _, hr⟩
  | cons_cons a _ ih =>
    cases h with
    | cons hfirst hrest =>
      obtain ⟨part', hsub, hr⟩ := ih hrest
      exact ⟨_ :: part', hsub.cons_cons _, .cons hfirst hr⟩

/-- Some of the segments that are not blank have some of the pairs. -/
theorem exists_pairs_of_sublist {parameter : String} {ps : List (String × String)}
    (hps : pairs parameter = .ok ps) {part : List (List Char)}
    (hpart : part.Sublist (parameter.toList.splitOn ','))
    (hblank : ∀ segment ∈ part, ¬ Text.Blank segment) :
    ∃ es, es.Sublist ps ∧ List.Forall₂ HasPair part es := by
  have hmarked : marked part = part := by
    apply List.filter_eq_self.2
    intro segment hsegment
    simpa [Text.trim_eq_nil_iff] using hblank segment hsegment
  have hsub : part.Sublist (marked (parameter.toList.splitOn ',')) := by
    rw [← hmarked]
    exact hpart.filter _
  exact exists_sublist_of_forall₂ hsub (pairs_eq_ok_iff.1 hps).1

theorem exists_pair_of_mem {parameter : String} {ps : List (String × String)}
    (hps : pairs parameter = .ok ps) {segment : List Char}
    (h : segment ∈ parameter.toList.splitOn ',') (hblank : ¬ Text.Blank segment) :
    ∃ e ∈ ps, HasPair segment e := by
  obtain ⟨es, hsub, hes⟩ := exists_pairs_of_sublist hps (List.singleton_sublist.2 h)
    (by simpa using hblank)
  cases hes with
  | cons he hnil =>
    cases hnil
    exact ⟨_, List.singleton_sublist.1 hsub, he⟩

theorem not_malformed {parameter : String} {ps : List (String × String)}
    (hps : pairs parameter = .ok ps) (hkeys : ∀ e ∈ ps, ∃ k : Key, e.1 = k.name) :
    ¬ Malformed (parameter.toList.splitOn ',') := by
  intro h
  cases h with
  | noPair hmem hblank hequals =>
    obtain ⟨e, _, hpair⟩ := exists_pair_of_mem hps hmem hblank
    exact hequals hpair.equals_mem
  | emptyKey hmem hblank =>
    obtain ⟨e, _, hpair⟩ := exists_pair_of_mem hps hmem (not_blank_append _ _)
    exact hpair.not_blank hblank
  | @unknownKey key value hmem hequals hunknown =>
    obtain ⟨e, he, hpair⟩ := exists_pair_of_mem hps hmem (not_blank_append key value)
    obtain rfl := hpair.eq hequals
    obtain ⟨k, hk⟩ := hkeys _ he
    exact hunknown k (by rw [← hk, trimmed, String.toList_ofList])
  | @repeatedKey key value key' value' hsub hequals hequals' hrepeated =>
    obtain ⟨es, hes, hpairs⟩ := exists_pairs_of_sublist hps hsub (by simp [not_blank_append])
    cases hpairs with
    | cons hfirst hrest =>
      cases hrest with
      | cons hsecond hnil =>
        cases hnil
        obtain rfl := hfirst.eq hequals
        obtain rfl := hsecond.eq hequals'
        have hnodup := (pairs_eq_ok_iff.1 hps).2.sublist (hes.map Prod.fst)
        simp [trimmed_congr hrepeated] at hnodup

theorem exists_error_of_malformed {read? : String → Option Bytes} {parameter : String}
    (h : Malformed (parameter.toList.splitOn ',')) :
    ∃ error, ofParameter read? parameter = .error error := by
  cases hread : ofParameter read? parameter with
  | error error => exact ⟨error, rfl⟩
  | ok s =>
    obtain ⟨ps, start, hps, -, hfold, -⟩ := ofParameter_eq_ok_iff.1 hread
    exact absurd h (not_malformed hps (exists_key_of_mem hfold))

/-- **Parameters.** However keys and texts are written down as a parameter, its settings are those
that they describe: the settings to start from can be read, each text can be read as a value of its
key, and nothing is wrong with what comes out. There are no settings for a parameter with a segment
that is no pair, or with a key that is empty, unknown or repeated. -/
theorem ofParameter_of_writes (read? : String → Option Bytes) :
    (∀ (texts : Key → Option String) (parameter : String),
      (∀ k text, texts k = some text → Plain text) → Writes texts parameter →
        ∀ s, ofParameter read? parameter = .ok s ↔ Describes read? texts s) ∧
    ∀ parameter : String, Malformed (parameter.toList.splitOn ',') →
      ∃ error, ofParameter read? parameter = .error error := by
  constructor
  · intro texts parameter hplain hwrites s
    obtain ⟨es, hlists, hpairs⟩ := pairs_of_writes hplain hwrites
    exact ofParameter_of_pairs hlists hpairs
  · intro parameter hmalformed
    exact exists_error_of_malformed hmalformed

/-- Files of which only one can be read. -/
def oneFile (path : String) : Option Bytes :=
  if path = "base.toml" then some (Text.toBytes "format = \"rust\"\n") else none

/-- Texts with an equals sign, with a plus sign and zeros, and with the name of the file. -/
def oddTexts : Key → Option String
  | .config => some "base.toml"
  | .suffix => some ".x=y"
  | .nameLimit => some "+016"
  | _ => none

theorem plain_oddTexts {k : Key} {text : String} (h : oddTexts k = some text) : Plain text := by
  cases k <;> cases h <;> exact ⟨by decide, by decide⟩

theorem lists_oddTexts :
    Lists oddTexts [(.suffix, ".x=y"), (.nameLimit, "+016"), (.config, "base.toml")] where
  nodup := by decide
  mem_iff k text := by cases k <;> simp [oddTexts, eq_comm]

theorem writes_oddTexts :
    Writes oddTexts " suffix\u3000= .x=y ,,max_tool_name_len=+016\t,config= base.toml" := by
  refine ⟨[some (.suffix, ".x=y"), none, some (.nameLimit, "+016"), some (.config, "base.toml")],
    [" suffix\u3000".toList ++ '=' :: " .x=y ".toList, [],
      "max_tool_name_len".toList ++ '=' :: "+016\t".toList,
      "config".toList ++ '=' :: " base.toml".toList], ?_, lists_oddTexts, by decide⟩
  exact .cons (segment_of_trim (by decide) (by decide)) <| .cons (.blank (by simp [Text.Blank])) <|
    .cons (segment_of_trim (by decide) (by decide)) <|
    .cons (segment_of_trim (by decide) (by decide)) .nil

theorem ofParameter_of_writes_oddTexts :
    ofParameter oneFile " suffix\u3000= .x=y ,,max_tool_name_len=+016\t,config= base.toml"
        = .ok ⟨some ".x=y", 16, .rust, .stderr, none⟩ ∧
      ∃ error, ofParameter oneFile "suffix=.x,suffix =.y" = .error error := by
  have h := ofParameter_of_writes oneFile
  constructor
  · apply (h.1 oddTexts _ (fun _ _ => plain_oddTexts) writes_oddTexts _).2
    refine ⟨⟨none, 64, .rust, .stderr, none⟩, by rfl, fun k => ?_, by decide⟩
    cases k with
    | config => trivial
    | suffix => rfl
    | nameLimit =>
      exact ⟨by decide, ['+'], 1, .inr rfl, by simp [Key.get, Numeral.numeral, Numeral.digit]⟩
    | format => rfl
    | diagnostics => rfl
    | diagnosticsFile => rfl
  · apply h.2
    have hsplit : "suffix=.x,suffix =.y".toList.splitOn ','
        = ["suffix".toList ++ '=' :: ".x".toList, "suffix ".toList ++ '=' :: ".y".toList] := by
      decide
    rw [hsplit]
    exact .repeatedKey (List.Sublist.refl _) (by decide) (by decide) (by decide)

end McpCatalog.Settings
