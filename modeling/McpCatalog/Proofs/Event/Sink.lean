import McpCatalog.FileTree
/-!
# Sinks of events

Events are told to a sink one by one, and what was told cannot be taken back. A sink behind a filter
is told of the events of a level and above. A log is a sink that appends a line to a file for each
event; it looks at the clock for every line.

Results:
* `recordAll_above`: behind a filter a sink is told of a part of the events, in the same order.
* `recordAll_log`: after some events, a log has one line more for each of them.
* `Batch.record_tree`: with a clock that stands still, this is `FileTree.record`.
-/
namespace McpCatalog

/-! ## Sinks -/

/-- What is told of events: its state after one more. -/
structure Sink (σ : Type) where
  record : σ → Event → σ

/-- The levels from one on. -/
def Level.onwards : Level → List Level
  | info => [info, warning, error]
  | warning => [warning, error]
  | error => [error]

theorem Event.atLeast_eq (level : Level) (events : List Event) :
    atLeast level events = events.filter fun e => decide (e.level ∈ level.onwards) := by
  have hlevel : ∀ l : Level, decide (level.rank ≤ l.rank) = decide (l ∈ level.onwards) := by
    intro l
    cases level <;> cases l <;> rfl
  unfold atLeast
  simp only [hlevel]

/-- The events that pass a filter, if there is one. -/
def Event.passing : Option Level → List Event → List Event
  | some level, events => atLeast level events
  | none, events => events

namespace Sink

section
variable {σ : Type} (sink : Sink σ)

/-- The state after some events. -/
def recordAll (s : σ) (events : List Event) : σ :=
  events.foldl sink.record s

/-- A filter that passes the events of a level and above on to the sink. -/
def above (level : Level) : Sink σ :=
  ⟨fun s e => if level.rank ≤ e.level.rank then sink.record s e else s⟩

/-- The sink behind a filter, if there is to be one. -/
def behind : Option Level → Sink σ
  | some level => sink.above level
  | none => sink

theorem recordAll_nil (s : σ) : sink.recordAll s [] = s := rfl

theorem recordAll_cons (s : σ) (e : Event) (events : List Event) :
    sink.recordAll s (e :: events) = sink.recordAll (sink.record s e) events := rfl

theorem recordAll_append (s : σ) (events more : List Event) :
    sink.recordAll s (events ++ more) = sink.recordAll (sink.recordAll s events) more :=
  List.foldl_append

/-- The sink that puts every event into a list. -/
def list : Sink (List Event) :=
  ⟨fun events e => events ++ [e]⟩

theorem recordAll_list (events more : List Event) :
    list.recordAll events more = events ++ more := by
  induction more generalizing events with
  | nil => simp [recordAll_nil]
  | cons e more ih =>
    rw [recordAll_cons, ih, List.append_cons]
    rfl

theorem recordAll_above (level : Level) (s : σ) (events : List Event) :
    (sink.above level).recordAll s events = sink.recordAll s (Event.atLeast level events) := by
  induction events generalizing s with
  | nil => rfl
  | cons e events ih =>
    rw [recordAll_cons, ih]
    by_cases h : level.rank ≤ e.level.rank
    · simp [above, Event.atLeast, h, recordAll_cons]
    · simp [above, Event.atLeast, h]

theorem recordAll_behind (level : Option Level) (s : σ) (events : List Event) :
    (sink.behind level).recordAll s events = sink.recordAll s (Event.passing level events) := by
  cases level with
  | none => rfl
  | some level => exact sink.recordAll_above level s events

end
end Sink

/-! ## Files that are appended to -/

namespace FileTree

section
variable {t : FileTree} {path : String}

theorem appendAt_append (place : List String) (bytes more : Bytes)
    (files : List (List String × Bytes)) :
    appendAt place more (appendAt place bytes files) = appendAt place (bytes ++ more) files := by
  induction files with
  | nil => simp [appendAt]
  | cons f files ih =>
    by_cases h : f.1 = place
    · simp [appendAt, h]
    · simp [appendAt, h, ih]

/-- Appending twice is appending once. -/
theorem append_append (t : FileTree) (path : String) (bytes more : Bytes) :
    (t.append path bytes).append path more = t.append path (bytes ++ more) := by
  have hresolve := t.resolve?_append path bytes
  unfold append at hresolve ⊢
  cases hplace : t.resolve? path with
  | none => simp [hplace]
  | some place =>
    by_cases hnull : place = nullDevice
    · simp [hplace, hnull]
    · simp only [hplace, hnull, if_false] at hresolve ⊢
      simp [hresolve, hplace, hnull, appendAt_append]

/-- Opens a file to append to it; it is made if there is none. -/
def open? (t : FileTree) (path : String) : Option FileTree :=
  if t.canAppend path then some (t.append path []) else none

/-- The path leads to a file that holds the bytes. -/
def Holds (t : FileTree) (path : String) (bytes : Bytes) : Prop :=
  ∃ place, t.resolve? path = some place ∧ place ≠ nullDevice ∧ t.files.lookup place = some bytes

theorem Holds.read?_eq {bytes : Bytes} (h : t.Holds path bytes) : t.read? path = some bytes := by
  obtain ⟨place, hplace, hnull, hlookup⟩ := h
  simp [read?, hplace, hnull, hlookup]

theorem Holds.append {held : Bytes} (h : t.Holds path held) (bytes : Bytes) :
    (t.append path bytes).Holds path (held ++ bytes) := by
  obtain ⟨place, hplace, hnull, hlookup⟩ := h
  have hfiles : (t.append path bytes).files = appendAt place bytes t.files := by
    simp [FileTree.append, hplace, hnull]
  refine ⟨place, by rw [resolve?_append, hplace], hnull, ?_⟩
  rw [hfiles, lookup_appendAt_self, hlookup]
  rfl

theorem Holds.open? {held : Bytes} (h : t.Holds path held) :
    t.open? path = some (t.append path []) := by
  obtain ⟨place, hplace, -, -⟩ := h
  simp [FileTree.open?, canAppend, hplace]

end
end FileTree

/-! ## Logs -/

/-- A file tree on a machine with a clock that was read some times. -/
structure Host where
  tree : FileTree
  readings : Nat

/-- The log under a path. A line has the time of its own reading of the clock. -/
def Sink.log (clock : Nat → Nat) (path : String) : Sink Host :=
  ⟨fun h e => ⟨h.tree.append path (Text.toBytes (e.line (clock h.readings) ++ "\n")),
    h.readings + 1⟩⟩

/-- The lines of some events, the first with the given reading of the clock. -/
def Event.lines (clock : Nat → Nat) : Nat → List Event → String
  | _, [] => ""
  | n, e :: events => e.line (clock n) ++ "\n" ++ lines clock (n + 1) events

theorem Event.lines_const (time n : Nat) (events : List Event) :
    Event.lines (fun _ => time) n events = Event.log time events := by
  induction events generalizing n with
  | nil => rfl
  | cons e events ih =>
    rw [Event.lines, ih]
    unfold Event.log
    rw [List.map_cons, String.join_cons]

theorem Text.toBytes_append (s s' : String) : toBytes (s ++ s') = toBytes s ++ toBytes s' := by
  unfold toBytes
  simp [String.toByteArray_append]

/-- A log grows by the lines of the events. -/
theorem recordAll_log (clock : Nat → Nat) (path : String) (t : FileTree) (n : Nat) (held : Bytes)
    (events : List Event) :
    (Sink.log clock path).recordAll ⟨t.append path held, n⟩ events
      = ⟨t.append path (held ++ Text.toBytes (Event.lines clock n events)), n + events.length⟩ := by
  induction events generalizing n held with
  | nil => simp [Sink.recordAll_nil, Event.lines, Text.toBytes]
  | cons e events ih =>
    have hfirst : (Sink.log clock path).record ⟨t.append path held, n⟩ e
        = ⟨t.append path (held ++ Text.toBytes (e.line (clock n) ++ "\n")), n + 1⟩ := by
      simp [Sink.log, FileTree.append_append]
    rw [Sink.recordAll_cons, hfirst, ih, Event.lines, Text.toBytes_append _ (Event.lines _ _ _),
      List.append_assoc, List.length_cons, Nat.add_assoc, Nat.add_comm 1]

/-- Events for a log that is opened for them, perhaps behind a filter. -/
structure Batch where
  level : Option Level
  events : List Event

/-- Opens the log and tells it of the events. -/
def Batch.record (clock : Nat → Nat) (path : String) (h : Host) (b : Batch) : Option Host :=
  (h.tree.open? path).map fun t =>
    ((Sink.log clock path).behind b.level).recordAll ⟨t, h.readings⟩ b.events

/-- The events that get into the log. -/
def Batch.passing (b : Batch) : List Event :=
  Event.passing b.level b.events

theorem Batch.record_eq (clock : Nat → Nat) (path : String) (h : Host) (b : Batch) :
    b.record clock path h = (h.tree.open? path).map fun _ =>
      ⟨h.tree.append path (Text.toBytes (Event.lines clock h.readings b.passing)),
        h.readings + b.passing.length⟩ := by
  unfold Batch.record FileTree.open?
  split
  · rw [Option.map_some, Option.map_some, Sink.recordAll_behind, recordAll_log]
    rfl
  · rfl

/-- With a clock that stands still, all lines of a batch are appended at once. -/
theorem Batch.record_tree (time : Nat) (path : String) (h : Host) (b : Batch) :
    (b.record (fun _ => time) path h).map (·.tree) = h.tree.record time path b.passing := by
  rw [Batch.record_eq, Event.lines_const]
  unfold FileTree.open? FileTree.record
  split <;> rfl

end McpCatalog
