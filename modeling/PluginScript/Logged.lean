import PluginScript.Event

/-! # Logged values

A value together with the log events that were emitted while it came about. Logged steps follow
each other as the steps of a monad do: the value of the last one counts, and the events of all of
them, in order.
-/

namespace PluginScript

/-- A value, and the events on the way to it. -/
structure Logged (α : Type) where
  value : α
  events : List Event
deriving Repr

namespace Logged

variable {α β : Type}

/-- A value that came about silently. -/
def silent (value : α) : Logged α := ⟨value, []⟩

/-- Goes on with the value; the events of both parts follow each other. -/
def andThen (first : Logged α) (next : α → Logged β) : Logged β :=
  let second := next first.value
  ⟨second.value, first.events ++ second.events⟩

instance : Monad Logged where
  pure := silent
  bind := andThen

@[simp] theorem value_pure (value : α) : (pure value : Logged α).value = value := rfl

@[simp] theorem events_pure (value : α) : (pure value : Logged α).events = [] := rfl

@[simp] theorem value_bind (first : Logged α) (next : α → Logged β) :
    (first >>= next).value = (next first.value).value := rfl

@[simp] theorem events_bind (first : Logged α) (next : α → Logged β) :
    (first >>= next).events = first.events ++ (next first.value).events := rfl

end Logged

end PluginScript
