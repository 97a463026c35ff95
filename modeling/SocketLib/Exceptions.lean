import Mathlib.Data.List.Basic

/-!
# Calls that return, throw or end the process

A run is what a call did, event by event, and how it ended. Nothing happens after an exception until
something catches it, and nothing at all after the end of the process. `noexcept` turns an exception
into the end of the process, so that a handler around it has nothing to do. A loop returns just when
every turn does, and has then done what its turns did, one after the other.
-/

/-- How a call ends. -/
inductive Outcome (ε α : Type*)
  | returned (a : α)
  | thrown (e : ε)
  | terminated
  deriving DecidableEq

/-- What a call did and how it ended. -/
structure Run (τ ε α : Type*) where
  trace : List τ
  outcome : Outcome ε α
  deriving DecidableEq

namespace Run

universe u

variable {τ ε ι : Type*} {α β : Type u}

def emit (event : τ) : Run τ ε Unit := ⟨[event], .returned ()⟩

def throw (e : ε) : Run τ ε α := ⟨[], .thrown e⟩

protected def pure (a : α) : Run τ ε α := ⟨[], .returned a⟩

protected def bind (r : Run τ ε α) (f : α → Run τ ε β) : Run τ ε β :=
  match r.outcome with
  | .returned a => ⟨r.trace ++ (f a).trace, (f a).outcome⟩
  | .thrown e => ⟨r.trace, .thrown e⟩
  | .terminated => ⟨r.trace, .terminated⟩

instance : Monad (Run τ ε) where
  pure := Run.pure
  bind := Run.bind

/-- An exception that leaves the call ends the process. -/
def noexcept (r : Run τ ε α) : Run τ ε α :=
  match r.outcome with
  | .thrown _ => ⟨r.trace, .terminated⟩
  | _ => r

def tryCatch (r : Run τ ε α) (handler : ε → Run τ ε α) : Run τ ε α :=
  match r.outcome with
  | .thrown e => ⟨r.trace ++ (handler e).trace, (handler e).outcome⟩
  | _ => r

/-- The body is run for one element after the other. -/
def forEach (body : ι → Run τ ε Unit) : List ι → Run τ ε Unit
  | [] => pure ()
  | x :: xs => do
      body x
      forEach body xs

variable {r : Run τ ε α} {f : α → Run τ ε β} {a : α} {b : β} {body : ι → Run τ ε Unit}
  {xs : List ι}

theorem pure_eq : (pure a : Run τ ε α) = ⟨[], .returned a⟩ := rfl

theorem bind_of_returned (h : r.outcome = .returned a) :
    r >>= f = ⟨r.trace ++ (f a).trace, (f a).outcome⟩ := by
  change r.bind f = _
  rw [Run.bind, h]

theorem bind_returned_iff :
    (r >>= f).outcome = .returned b ↔
      ∃ a, r.outcome = .returned a ∧ (f a).outcome = .returned b := by
  change (r.bind f).outcome = _ ↔ _
  rw [Run.bind]
  cases r.outcome with
  | returned a => simp
  | thrown e => simp
  | terminated => simp

theorem noexcept_of_thrown {e : ε} (h : r.outcome = .thrown e) :
    r.noexcept = ⟨r.trace, .terminated⟩ := by rw [noexcept, h]

theorem noexcept_of_returned (h : r.outcome = .returned a) : r.noexcept = r := by rw [noexcept, h]

theorem noexcept_not_thrown (e : ε) : r.noexcept.outcome ≠ .thrown e := by
  rw [noexcept]
  split
  · nofun
  · rename_i hother
    exact hother e

theorem noexcept_returned_iff : r.noexcept.outcome = .returned a ↔ r.outcome = .returned a := by
  cases h : r.outcome with
  | returned a' => rw [noexcept_of_returned h, h]
  | thrown e => simp [noexcept_of_thrown h]
  | terminated => simp [noexcept, h]

theorem noexcept_idem : r.noexcept.noexcept = r.noexcept := by
  cases h : r.noexcept.outcome with
  | returned a => exact noexcept_of_returned h
  | thrown e => exact absurd h (noexcept_not_thrown e)
  | terminated => rw [noexcept, h]

/-- There is nothing to catch. -/
theorem tryCatch_noexcept (handler : ε → Run τ ε α) :
    r.noexcept.tryCatch handler = r.noexcept := by
  rw [tryCatch]
  split
  · rename_i e h
    exact absurd h (noexcept_not_thrown e)
  · rfl

theorem tryCatch_returned_iff {handler : ε → Run τ ε α} :
    (r.tryCatch handler).outcome = .returned a ↔
      r.outcome = .returned a ∨ ∃ e, r.outcome = .thrown e ∧ (handler e).outcome = .returned a := by
  rw [tryCatch]
  cases h : r.outcome with
  | returned a' => simp [h]
  | thrown e => simp
  | terminated => simp [h]

theorem forEach_returned_iff :
    (forEach body xs).outcome = .returned () ↔ ∀ x ∈ xs, (body x).outcome = .returned () := by
  induction xs with
  | nil => simp [forEach, pure_eq]
  | cons x xs ih =>
      rw [forEach, bind_returned_iff, List.forall_mem_cons, ih]
      exact ⟨fun ⟨_, hx, hxs⟩ => ⟨hx, hxs⟩, fun ⟨hx, hxs⟩ => ⟨(), hx, hxs⟩⟩

theorem forEach_of_returned (h : ∀ x ∈ xs, (body x).outcome = .returned ()) :
    forEach body xs = ⟨xs.flatMap fun x => (body x).trace, .returned ()⟩ := by
  induction xs with
  | nil => rfl
  | cons x xs ih =>
      obtain ⟨hx, hxs⟩ := List.forall_mem_cons.mp h
      rw [forEach, bind_of_returned hx, ih hxs, List.flatMap_cons]

end Run
