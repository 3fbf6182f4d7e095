import McpCatalog.Dict
import McpCatalog.Proto.Descriptor
/-!
# The pool of known types

Messages and enumerations under their full names. A type that is added again takes
the place of the earlier one.

Results:
* `message?_addMessage`, `enum?_addEnum`: an addition is seen under its name only.
* `message?_ofTypes`, `enum?_ofTypes`: of types with one name the last is found.
-/
namespace McpCatalog

/-- The types that a reference can be resolved to, each under its own full name.
mirrors core/descriptor:314-319 -/
structure Pool where
  messages : Dict Message
  enums : Dict EnumType
  fullName_message : ∀ {n : String} {m : Message}, messages.get? n = some m → m.fullName = n
  fullName_enum : ∀ {n : String} {e : EnumType}, enums.get? n = some e → e.fullName = n

namespace Pool

def empty : Pool :=
  ⟨.empty, .empty, by simp, by simp⟩

instance : Inhabited Pool := ⟨empty⟩

/-- mirrors core/descriptor:329-331 -/
def addMessage (pool : Pool) (m : Message) : Pool :=
  { pool with
    messages := pool.messages.insert m.fullName m
    fullName_message := fun {n m'} h => by
      rw [Dict.get?_insert] at h
      split at h
      · next hn => simp_all
      · exact pool.fullName_message h }

/-- mirrors core/descriptor:334-336 -/
def addEnum (pool : Pool) (e : EnumType) : Pool :=
  { pool with
    enums := pool.enums.insert e.fullName e
    fullName_enum := fun {n e'} h => by
      rw [Dict.get?_insert] at h
      split at h
      · next hn => simp_all
      · exact pool.fullName_enum h }

/-- The pool of some messages and enumerations. -/
def ofTypes (messages : List Message) (enums : List EnumType) : Pool :=
  enums.foldl addEnum (messages.foldl addMessage empty)

/-- mirrors core/descriptor:354-356 -/
def message? (pool : Pool) (fullName : String) : Option Message :=
  pool.messages.get? fullName

/-- mirrors core/descriptor:360-362 -/
def enum? (pool : Pool) (fullName : String) : Option EnumType :=
  pool.enums.get? fullName

/-- mirrors core/descriptor:366-368 -/
def messageCount (pool : Pool) : Nat :=
  pool.messages.size

/-! ## Look-ups -/

theorem fullName_of_message? {pool : Pool} {n : String} {m : Message}
    (h : pool.message? n = some m) : m.fullName = n :=
  pool.fullName_message h

theorem message?_addMessage (pool : Pool) (m : Message) (n : String) :
    (pool.addMessage m).message? n = if n = m.fullName then some m else pool.message? n :=
  pool.messages.get?_insert m.fullName n m

theorem enum?_addEnum (pool : Pool) (e : EnumType) (n : String) :
    (pool.addEnum e).enum? n = if n = e.fullName then some e else pool.enum? n :=
  pool.enums.get?_insert e.fullName n e

theorem messages_foldl_addEnum (pool : Pool) (enums : List EnumType) :
    (enums.foldl addEnum pool).messages = pool.messages := by
  induction enums generalizing pool with
  | nil => rfl
  | cons e rest ih => exact ih (pool.addEnum e)

theorem enums_foldl_addMessage (pool : Pool) (messages : List Message) :
    (messages.foldl addMessage pool).enums = pool.enums := by
  induction messages generalizing pool with
  | nil => rfl
  | cons m rest ih => exact ih (pool.addMessage m)

theorem message?_foldl_addMessage (pool : Pool) (messages : List Message) (n : String) :
    (messages.foldl addMessage pool).message? n
      = (messages.reverse.find? fun m => m.fullName == n).or (pool.message? n) := by
  induction messages generalizing pool with
  | nil => simp
  | cons m rest ih =>
    rw [List.foldl_cons, ih, message?_addMessage, List.reverse_cons, List.find?_append,
      Option.or_assoc]
    by_cases h : n = m.fullName
    · simp [h]
    · have h' : (m.fullName == n) = false := by simpa using fun e => h e.symm
      simp [h, h']

theorem enum?_foldl_addEnum (pool : Pool) (enums : List EnumType) (n : String) :
    (enums.foldl addEnum pool).enum? n
      = (enums.reverse.find? fun e => e.fullName == n).or (pool.enum? n) := by
  induction enums generalizing pool with
  | nil => simp
  | cons e rest ih =>
    rw [List.foldl_cons, ih, enum?_addEnum, List.reverse_cons, List.find?_append,
      Option.or_assoc]
    by_cases h : n = e.fullName
    · simp [h]
    · have h' : (e.fullName == n) = false := by simpa using fun e => h e.symm
      simp [h, h']

theorem message?_ofTypes (messages : List Message) (enums : List EnumType) (n : String) :
    (ofTypes messages enums).message? n = messages.reverse.find? fun m => m.fullName == n := by
  have h : (ofTypes messages enums).message? n = (messages.foldl addMessage empty).message? n := by
    simp only [ofTypes, message?, messages_foldl_addEnum]
  rw [h, message?_foldl_addMessage]
  simp [message?, empty]

theorem enum?_ofTypes (messages : List Message) (enums : List EnumType) (n : String) :
    (ofTypes messages enums).enum? n = enums.reverse.find? fun e => e.fullName == n := by
  rw [ofTypes, enum?_foldl_addEnum]
  simp [enum?, enums_foldl_addMessage, empty]

end Pool
end McpCatalog
