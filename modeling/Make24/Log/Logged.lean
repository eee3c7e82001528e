import Make24.Log.Event

namespace Make24.Log

/-- A value and the events on the way to it, in order. -/
structure Logged (α : Type) where
  value : α
  events : List Event

namespace Logged

instance : Monad Logged where
  pure value := ⟨value, []⟩
  bind first next := ⟨(next first.value).value, first.events ++ (next first.value).events⟩

@[simp] theorem value_pure (a : α) : (pure a : Logged α).value = a := rfl

@[simp] theorem events_pure (a : α) : (pure a : Logged α).events = [] := rfl

@[simp] theorem value_bind (first : Logged α) (next : α → Logged β) :
    (first >>= next).value = (next first.value).value := rfl

@[simp] theorem events_bind (first : Logged α) (next : α → Logged β) :
    (first >>= next).events = first.events ++ (next first.value).events := rfl

instance : LawfulMonad Logged :=
  LawfulMonad.mk' Logged
    (fun first => by simp [Functor.map])
    (fun _ _ => by simp [bind, pure])
    (fun _ _ _ => by simp [bind, List.append_assoc])

end Logged

def log (event : Event) : Logged Unit :=
  ⟨(), [event]⟩

def logAll (events : List Event) : Logged Unit :=
  ⟨(), events⟩

@[simp] theorem events_log (event : Event) : (log event).events = [event] := rfl

@[simp] theorem events_logAll (events : List Event) : (logAll events).events = events := rfl

/-- The events that a threshold lets through. -/
def visible (threshold : Level) (events : List Event) : List Event :=
  events.filter (fun event => threshold.admits event.level)

end Make24.Log
