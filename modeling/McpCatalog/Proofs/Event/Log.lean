import Mathlib.Data.List.Forall2
import McpCatalog.Proofs.Event.Sink
import McpCatalog.Proofs.Json.Normal
/-!
# Lines of a log

A log is read line by line, so that a line must not be broken by what an event says, and must hold
all that is needed to know the event again. Names, paths and messages are any texts.

Results:
* `visible_compact`: there is no control character in a compact text.
* `ToldBy.unique`: an object tells of one event only.
* `lineOf_line`: the line of an event is not broken and tells of the event.
* `log_of_batches`: a log that was opened any number of times holds what it held at first, and a
  line for each event that got through.
-/
namespace McpCatalog

/-! ## Texts without control characters -/

namespace Json

/-- No character is below U+0020. -/
def Visible (cs : List Char) : Prop :=
  ∀ c ∈ cs, 0x20 ≤ c.toNat

theorem visible_of_all {cs : List Char} (h : cs.all (fun c => decide (0x20 ≤ c.toNat)) = true) :
    Visible cs := by
  simpa [Visible] using h

theorem Visible.append {cs cs' : List Char} (h : Visible cs) (h' : Visible cs') :
    Visible (cs ++ cs') := by
  intro c hc
  rcases List.mem_append.1 hc with hc | hc
  · exact h c hc
  · exact h' c hc

theorem visible_flatMap {α : Type} {f : α → List Char} {l : List α} (h : ∀ a ∈ l, Visible (f a)) :
    Visible (l.flatMap f) := by
  intro c hc
  obtain ⟨a, ha, hc⟩ := List.mem_flatMap.1 hc
  exact h a ha c hc

theorem le_toNat_digit : ∀ d < 36, 0x20 ≤ (Numeral.digit d).toNat := by
  decide

theorem visible_escapeChar (c : Char) : Visible (escapeChar c) := by
  unfold escapeChar
  split
  · next h => rcases h with rfl | rfl <;> exact visible_of_all (by decide)
  · split
    · next hcontrol =>
      split
      · next l hl =>
        have hletter : 0x20 ≤ l.toNat := by
          unfold controlLetter? at hl
          split at hl <;> cases hl <;> decide
        exact visible_of_all (by simpa using hletter)
      · have hhigh := le_toNat_digit (c.toNat / 16) (by omega)
        have hlow := le_toNat_digit (c.toNat % 16) (by omega)
        exact visible_of_all (by simpa using ⟨hhigh, hlow⟩)
    · next hplain => exact visible_of_all (by simpa using Nat.le_of_not_lt hplain)

theorem visible_quoted (s : String) : Visible (quoted s).toList := by
  have hmark : Visible ['"'] := visible_of_all (by decide)
  unfold quoted
  rw [String.toList_ofList, ← List.singleton_append]
  exact hmark.append ((visible_flatMap fun c _ => visible_escapeChar c).append hmark)

theorem visible_numeral (n : Nat) : Visible (Numeral.numeral 10 n) := by
  intro c hc
  obtain ⟨d, hd, rfl⟩ := Numeral.exists_digit_of_mem (by decide) hc
  exact le_toNat_digit d (by omega)

theorem visible_decimal (n : Int) : Visible (Numeral.decimal n).toList := by
  cases n with
  | ofNat n =>
    rw [Numeral.decimal, String.toList_ofList]
    exact visible_numeral n
  | negSucc n =>
    have hminus : Visible ['-'] := visible_of_all (by decide)
    rw [Numeral.decimal, String.toList_ofList, ← List.singleton_append]
    exact hminus.append (visible_numeral _)

theorem visible_joined {css : List (List Char)} (h : ∀ cs ∈ css, Visible cs) :
    Visible ([','].intercalate css) := by
  have hcomma : Visible [','] := visible_of_all (by decide)
  cases css with
  | nil => exact visible_of_all rfl
  | cons cs css =>
    rw [intercalate_cons]
    exact (h cs List.mem_cons_self).append
      (visible_flatMap fun cs' hcs' => hcomma.append (h cs' (List.mem_cons_of_mem _ hcs')))

/-- A compact text has no control characters, whatever is in the strings of the value. -/
theorem visible_compact (v : Json) : Visible v.compact.toList := by
  induction v using induct with
  | null => exact visible_of_all (by decide)
  | bool b => cases b <;> exact visible_of_all (by decide)
  | int n => exact visible_decimal n
  | str s => exact visible_quoted s
  | arr items ih =>
    have hitems : ∀ cs ∈ items.map fun v => v.compact.toList, Visible cs := by
      intro cs hcs
      obtain ⟨v, hv, rfl⟩ := List.mem_map.1 hcs
      exact ih v hv
    rw [toList_compact_arr]
    exact ((visible_of_all (by decide)).append (visible_joined hitems)).append
      (visible_of_all (by decide))
  | obj ms ih =>
    have hcolon : Visible [':'] := visible_of_all (by decide)
    have hmembers : ∀ cs ∈ ms.map fun m => (quoted m.1).toList ++ ([':'] ++ m.2.compact.toList),
        Visible cs := by
      intro cs hcs
      obtain ⟨m, hm, rfl⟩ := List.mem_map.1 hcs
      exact (visible_quoted m.1).append (hcolon.append (ih m hm))
    rw [toList_compact_obj]
    exact ((visible_of_all (by decide)).append (visible_joined hmembers)).append
      (visible_of_all (by decide))

end Json

/-! ## What a line tells -/

theorem EventKind.name_injective {k k' : EventKind} : k.name = k'.name → k = k' := by
  cases k <;> cases k' <;> decide

theorem Level.name_injective {l l' : Level} : l.name = l'.name → l = l' := by
  cases l <;> cases l' <;> decide

namespace Event

/-- The members tell of the event; there are ones for the service and the method if and only if the
event has them. -/
structure ToldBy (e : Event) (ms : List (String × Json)) : Prop where
  distinct : (ms.map (·.1)).Nodup
  kind : ms.lookup "event" = some (.str e.kind.name)
  level : ms.lookup "level" = some (.str e.level.name)
  file : ms.lookup "file" = some (.str e.file)
  service : ms.lookup "service" = e.service.map .str
  method : ms.lookup "method" = e.method.map .str
  message : ms.lookup "message" = some (.str e.message)

/-- The line is not broken, and is a JSON object that tells of the event and of no other one. -/
structure LineOf (e : Event) (line : String) : Prop where
  unbroken : '\n' ∉ line.toList
  told : ∃ ms, Json.read? line = some (.obj ms) ∧ ∀ e' : Event, e'.ToldBy ms ↔ e' = e

theorem ToldBy.unique {e e' : Event} {ms : List (String × Json)} (h : e.ToldBy ms)
    (h' : e'.ToldBy ms) : e = e' := by
  have hstr : Function.Injective Json.str := fun _ _ heq => Json.str.inj heq
  have hkind : e.kind = e'.kind := EventKind.name_injective (by simpa [h.kind] using h'.kind)
  have hlevel : e.level = e'.level := Level.name_injective (by simpa [h.level] using h'.level)
  have hfile : e.file = e'.file := by simpa [h.file] using h'.file
  have hservice : e.service = e'.service :=
    Option.map_injective hstr (h.service.symm.trans h'.service)
  have hmethod : e.method = e'.method := Option.map_injective hstr (h.method.symm.trans h'.method)
  have hmessage : e.message = e'.message := by simpa [h.message] using h'.message
  cases e
  cases e'
  simp_all

theorem toldBy_members (e : Event) (time : Nat) :
    e.ToldBy (("timestamp_ms", .int time) :: e.members) := by
  obtain ⟨kind, level, file, service, method, message⟩ := e
  cases service <;> cases method <;>
    exact ⟨by simp [members], rfl, rfl, rfl, rfl, rfl, rfl⟩

theorem lineOf_line (e : Event) (time : Nat) : e.LineOf (e.line time) where
  unbroken := fun h => absurd (Json.visible_compact _ _ h) (by decide)
  told := ⟨_, Json.read?_compact _, fun e' =>
    ⟨fun h => h.unique (e.toldBy_members time), fun h => h ▸ e.toldBy_members time⟩⟩

/-- There is a line for each event. -/
theorem exists_lines (clock : Nat → Nat) (n : Nat) (events : List Event) :
    ∃ ls, List.Forall₂ LineOf events ls ∧
      lines clock n events = String.join (ls.map (· ++ "\n")) := by
  induction events generalizing n with
  | nil => exact ⟨[], .nil, rfl⟩
  | cons e events ih =>
    obtain ⟨ls, htold, hlines⟩ := ih (n + 1)
    refine ⟨e.line (clock n) :: ls, .cons (e.lineOf_line _) htold, ?_⟩
    rw [lines, hlines, List.map_cons, String.join_cons]

end Event

/-! ## Logs -/

/-- **Logs.** When a log is opened again and again, each time for some events and perhaps behind a
filter, the file in the end holds what it held at first, and behind that a line for each event that
got through, in order. A line is not broken, whatever the event says, and tells of the event. -/
theorem log_of_batches (clock : Nat → Nat) {path : String} {held : Bytes} (h : Host)
    (hheld : h.tree.Holds path held) (batches : List Batch) :
    ∃ h' lines, batches.foldlM (Batch.record clock path) h = some h' ∧
      h'.tree.read? path = some (held ++ Text.toBytes (String.join (lines.map (· ++ "\n")))) ∧
      List.Forall₂ Event.LineOf (batches.flatMap Batch.passing) lines := by
  suffices hrun : ∃ h' lines, batches.foldlM (Batch.record clock path) h = some h' ∧
      h'.tree.Holds path (held ++ Text.toBytes (String.join (lines.map (· ++ "\n")))) ∧
      List.Forall₂ Event.LineOf (batches.flatMap Batch.passing) lines by
    obtain ⟨h', lines, hrecord, hholds, htold⟩ := hrun
    exact ⟨h', lines, hrecord, hholds.read?_eq, htold⟩
  induction batches generalizing h held with
  | nil => exact ⟨h, [], rfl, by simpa [Text.toBytes] using hheld, .nil⟩
  | cons b batches ih =>
    obtain ⟨first, hfirst, htext⟩ := Event.exists_lines clock h.readings b.passing
    have hrecord := b.record_eq clock path h
    rw [hheld.open?, Option.map_some, htext] at hrecord
    have hnext := hheld.append (Text.toBytes (String.join (first.map (· ++ "\n"))))
    obtain ⟨h', more, hmore, hholds, htold⟩ := ih ⟨_, h.readings + b.passing.length⟩ hnext
    refine ⟨h', first ++ more, ?_, ?_, ?_⟩
    · rw [List.foldlM_cons, hrecord]
      exact hmore
    · rw [List.map_append, String.join_append, Text.toBytes_append, ← List.append_assoc]
      exact hholds
    · rw [List.flatMap_cons]
      exact List.rel_append hfirst htold

/-- A host with a log that another program has written to, without a newline at the end. -/
def sharedHost : Host :=
  ⟨(FileTree.empty ["work"]).addFile ["work", "events.jsonl"] (Text.toBytes "started"), 0⟩

/-- An event whose message would break a line. -/
def brokenMessage : Event :=
  .inFile .fileFailed .error "a.proto" "first\nsecond \"third\""

/-- Two batches, of which the first one is filtered. -/
def twoBatches : List Batch :=
  [⟨some .warning, [.inFile .fileSkipped .info "b.proto" "", brokenMessage]⟩,
    ⟨none, [(Event.inFile .methodSkipped .info "c.proto" "").inMethod "Feed" "Watch"]⟩]

theorem log_of_batches_twoBatches :
    sharedHost.tree.Holds "events.jsonl" (Text.toBytes "started") ∧
    ∃ h' line line', twoBatches.foldlM (Batch.record id "events.jsonl") sharedHost = some h' ∧
      h'.tree.read? "events.jsonl"
        = some (Text.toBytes "started" ++ Text.toBytes (line ++ "\n" ++ (line' ++ "\n"))) ∧
      brokenMessage.LineOf line := by
  have hheld : sharedHost.tree.Holds "events.jsonl" (Text.toBytes "started") :=
    ⟨["work", "events.jsonl"], by decide +kernel, by decide, by decide +kernel⟩
  obtain ⟨h', lines, hrecord, hread, htold⟩ := log_of_batches id sharedHost hheld twoBatches
  have hpassing : twoBatches.flatMap Batch.passing = [brokenMessage,
      (Event.inFile .methodSkipped .info "c.proto" "").inMethod "Feed" "Watch"] := by
    decide
  rw [hpassing] at htold
  obtain ⟨line, rest, hfirst, hrest, rfl⟩ := List.forall₂_cons_left_iff.1 htold
  obtain ⟨line', rest', -, hnone, rfl⟩ := List.forall₂_cons_left_iff.1 hrest
  obtain rfl := List.forall₂_nil_left_iff.1 hnone
  exact ⟨hheld, h', line, line', hrecord, by simpa [String.join_cons] using hread, hfirst⟩

end McpCatalog
