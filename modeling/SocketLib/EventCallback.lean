import SocketLib.Exceptions
import SocketLib.SetContainer

/-!
# `ThreadSafeEventCallback` and what it calls

A subscription is a function pointer, a member function with an instance, or anything else that has
been converted to a `std::function`. Two type-erasing layers stand between the callback and the
user's function, and all their call operators are `noexcept`; what `invokeError` would catch has
ended the process before (`invokeError_eq_invoke`).

The subscriptions are in a `std::set` that compares `ptr()` (`EventCallback`), or in a hash table
(`UnorderedEventCallback`). What the user's functions do is a parameter.
-/

namespace SocketLib.EventCallback

/-- What a `void *` is; the null pointer is zero. -/
abbrev Address := ℕ

/-- What can be caught: a `std::exception`, or anything else. -/
inductive Thrown (E : Type*)
  | exception (e : E)
  | other
  deriving DecidableEq

/-- A pointer to a member function is two words long. -/
structure MemberPointer where
  word : Address
  adjustment : ℕ
  deriving DecidableEq

inductive FunctionWrapper (L : Type*)
  | pointer (held : Address)
  | member (held : MemberPointer) (inst : Address)
  | function (held : L) (handle : Address)
  deriving DecidableEq

structure ThinVirtualLayer (L : Type*) where
  func : FunctionWrapper L
  deriving DecidableEq

section Layers

variable {L : Type*}

namespace FunctionWrapper

/-- `instance()`. -/
def inst : FunctionWrapper L → Address
  | .pointer _ => 0
  | .member _ inst => inst
  | .function _ _ => 0

/-- `ptr()`, which is the first word of a member pointer, read through a union. -/
def ptr : FunctionWrapper L → Address
  | .pointer held => held
  | .member held _ => held.word
  | .function _ handle => handle

/-- `operator==`. -/
def eq (a b : FunctionWrapper L) : Bool := a.inst = b.inst && a.ptr = b.ptr

/-- `operator<`. -/
def lt (a b : FunctionWrapper L) : Bool := a.ptr < b.ptr

/-- `std::hash`, on top of the one for pointers. -/
def hash (hashPointer : Address → UInt64) (obj : FunctionWrapper L) : UInt64 :=
  let seed := hashPointer obj.inst
  seed ^^^ (hashPointer obj.ptr + (0x9e3779b9 : UInt64) + (seed <<< (6 : UInt64)) +
    (seed >>> (2 : UInt64)))

end FunctionWrapper

namespace ThinVirtualLayer

/-- The wrapper that a conversion to `std::function` makes keeps the address of its argument. -/
def ofFunction (held : L) (handle : Address) : ThinVirtualLayer L := ⟨.function held handle⟩

def inst (layer : ThinVirtualLayer L) : Address := layer.func.inst

def ptr (layer : ThinVirtualLayer L) : Address := layer.func.ptr

def eq (layer other : ThinVirtualLayer L) : Bool := layer.func.eq other.func

def lt (layer other : ThinVirtualLayer L) : Bool := layer.func.lt other.func

def hash (hashPointer : Address → UInt64) (obj : ThinVirtualLayer L) : UInt64 :=
  obj.func.hash hashPointer

end ThinVirtualLayer

/-- `std::set<ThinVirtualLayer>`. -/
def orderedSet (L : Type*) : SetContainer (ThinVirtualLayer L) := .ordered ThinVirtualLayer.lt

/-- `std::unordered_set<ThinVirtualLayer>`. -/
def unorderedSet (L : Type*) (hashPointer : Address → UInt64) : SetContainer (ThinVirtualLayer L) :=
  .hashed (ThinVirtualLayer.hash hashPointer) ThinVirtualLayer.eq

end Layers

structure ThreadSafeEventCallback {L : Type*} (C : SetContainer (ThinVirtualLayer L)) where
  callbacks : List (ThinVirtualLayer L)

abbrev OrderedEventCallback (L : Type*) := ThreadSafeEventCallback (orderedSet L)

abbrev UnorderedEventCallback (L : Type*) (hashPointer : Address → UInt64) :=
  ThreadSafeEventCallback (unorderedSet L hashPointer)

namespace ThreadSafeEventCallback

variable {L : Type*} {C : SetContainer (ThinVirtualLayer L)}

def empty (event : ThreadSafeEventCallback C) : Bool := event.callbacks.isEmpty

def addCallback (event : ThreadSafeEventCallback C) (callback : ThinVirtualLayer L) :
    ThreadSafeEventCallback C := ⟨C.emplace event.callbacks callback⟩

def addFunction (event : ThreadSafeEventCallback C) (callback : Address) :
    ThreadSafeEventCallback C := event.addCallback ⟨.pointer callback⟩

def addMember (event : ThreadSafeEventCallback C) (callback : MemberPointer) (inst : Address) :
    ThreadSafeEventCallback C := event.addCallback ⟨.member callback inst⟩

def removeCallback (event : ThreadSafeEventCallback C) (callback : ThinVirtualLayer L) :
    ThreadSafeEventCallback C := ⟨C.erase event.callbacks callback⟩

def removeFunction (event : ThreadSafeEventCallback C) (callback : Address) :
    ThreadSafeEventCallback C := event.removeCallback ⟨.pointer callback⟩

/-- Member functions go whatever their instance. -/
def removeMember (event : ThreadSafeEventCallback C) (callback : MemberPointer) :
    ThreadSafeEventCallback C := ⟨event.callbacks.filter fun layer => layer.ptr ≠ callback.word⟩

def clear (_ : ThreadSafeEventCallback C) : ThreadSafeEventCallback C := ⟨[]⟩

end ThreadSafeEventCallback

/-! ### Calls -/

section Calls

variable {L Args E τ : Type*} (body : FunctionWrapper L → Args → Run τ (Thrown E) Unit)

/-- `operator()` of the three wrappers. -/
def FunctionWrapper.call (wrapper : FunctionWrapper L) (args : Args) : Run τ (Thrown E) Unit :=
  match wrapper with
  | .pointer held => (body (.pointer held) args).noexcept
  | .member held inst => (body (.member held inst) args).noexcept
  | .function held handle => (body (.function held handle) args).noexcept

def ThinVirtualLayer.call (layer : ThinVirtualLayer L) (args : Args) : Run τ (Thrown E) Unit :=
  (layer.func.call body args).noexcept

namespace ThreadSafeEventCallback

variable {C : SetContainer (ThinVirtualLayer L)}

def invoke (event : ThreadSafeEventCallback C) (args : Args) : Run τ (Thrown E) Unit :=
  if event.empty then pure ()
  else Run.forEach (fun callback => callback.call body args) event.callbacks

def invokeError (event : ThreadSafeEventCallback C) (args : Args)
    (exceptionHandle : E → Run τ (Thrown E) Unit) : Run τ (Thrown E) Unit :=
  if event.empty then pure ()
  else Run.forEach (fun callback => (callback.call body args).tryCatch fun
    | .exception e => exceptionHandle e
    | .other => Run.throw .other) event.callbacks

end ThreadSafeEventCallback

variable {body} {args : Args}

theorem FunctionWrapper.call_eq (wrapper : FunctionWrapper L) :
    wrapper.call body args = (body wrapper args).noexcept := by
  cases wrapper with
  | pointer held => rfl
  | member held inst => rfl
  | function held handle => rfl

theorem ThinVirtualLayer.call_eq (layer : ThinVirtualLayer L) :
    layer.call body args = (body layer.func args).noexcept := by
  rw [call, FunctionWrapper.call_eq, Run.noexcept_idem]

namespace ThreadSafeEventCallback

variable {C : SetContainer (ThinVirtualLayer L)} {event : ThreadSafeEventCallback C}

/-- No exception gets as far as the handler. -/
theorem invokeError_eq_invoke (exceptionHandle : E → Run τ (Thrown E) Unit) :
    event.invokeError body args exceptionHandle = event.invoke body args := by
  simp only [invokeError, invoke, ThinVirtualLayer.call, Run.tryCatch_noexcept]

theorem invoke_eq_forEach :
    event.invoke body args = Run.forEach (fun callback => callback.call body args)
      event.callbacks := by
  rw [invoke, empty]
  cases event.callbacks with
  | nil => rfl
  | cons callback callbacks => rfl

theorem invoke_returned_iff : (event.invoke body args).outcome = .returned () ↔
    ∀ callback ∈ event.callbacks, (body callback.func args).outcome = .returned () := by
  rw [invoke_eq_forEach, Run.forEach_returned_iff]
  simp only [ThinVirtualLayer.call_eq, Run.noexcept_returned_iff]

theorem invoke_of_returned
    (h : ∀ callback ∈ event.callbacks, (body callback.func args).outcome = .returned ()) :
    event.invoke body args =
      ⟨event.callbacks.flatMap fun callback => (body callback.func args).trace, .returned ()⟩ := by
  have hcalls : ∀ callback ∈ event.callbacks, callback.call body args = body callback.func args :=
    fun callback hc => (callback.call_eq).trans (Run.noexcept_of_returned (h callback hc))
  have hreturned : ∀ callback ∈ event.callbacks,
      (callback.call body args).outcome = .returned () := by
    intro callback hc
    rw [hcalls callback hc, h callback hc]
  rw [invoke_eq_forEach, Run.forEach_of_returned hreturned]
  congr 1
  exact List.flatMap_congr fun callback hc => by rw [hcalls callback hc]

end ThreadSafeEventCallback
end Calls
end SocketLib.EventCallback
