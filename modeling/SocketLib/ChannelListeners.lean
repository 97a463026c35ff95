import SocketLib.Channel
import SocketLib.EventCallback

/-!
# Listeners that throw

`readData` hands the incoming queue to the listen callback, with a handler that logs what a listener
throws, inside a `try` that shuts the channel down for what anything else throws. A listener's
exception gets to neither, since the call operators around the listener are `noexcept`.
-/

namespace SocketLib.Channel

open EventCallback

/-- What the listeners, the handler and `readData` do for others to see. -/
inductive Event (L Args E : Type*)
  | called (callback : FunctionWrapper L) (args : Args)
  | handled (e : E)
  | enqueued (bytes : Bytes)
  | queuedShutdown
  | crashed (what : Option E)
  deriving DecidableEq

/-- What `readData` finds on its way, and the exceptions of `throwIfError` and `enqueueMove`. -/
structure Reading (E : Type*) where
  active : Bool
  tryLock : Bool
  received : Received
  isActive : Bool
  error : E
  enqueueMove : Option (Thrown E)

section Listeners

variable {L Args E : Type*} {C : SetContainer (ThinVirtualLayer L)}

/-- A listener that is called and may throw. -/
def listen (throws : FunctionWrapper L → Args → Option (Thrown E)) (callback : FunctionWrapper L)
    (args : Args) : Run (Event L Args E) (Thrown E) Unit :=
  ⟨[.called callback args], (throws callback args).elim (.returned ()) .thrown⟩

section ReadData

variable (throws : FunctionWrapper L → Args → Option (Thrown E))
  (listenCallback : ThreadSafeEventCallback C) (args : Args)

/-- The call of the listeners, and the handler that logs what it is given. -/
def invokeListeners : Run (Event L Args E) (Thrown E) Unit :=
  listenCallback.invokeError (listen throws) args fun e => Run.emit (.handled e)

def notifyListeners : Run (Event L Args E) (Thrown E) Unit :=
  if listenCallback.empty then pure () else invokeListeners throws listenCallback args

/-- The `try` block of `readData`. -/
def tryRead (reading : Reading E) : Run (Event L Args E) (Thrown E) Bool :=
  if reading.isActive = false then pure false
  else
    match reading.received with
    | .ended | .connectionReset => do
        Run.emit .queuedShutdown
        pure false
    | .wouldBlock => pure false
    | .error => do
        Run.emit .queuedShutdown
        Run.throw (.exception reading.error)
    | .data bytes => do
        match reading.enqueueMove with
        | some e => Run.throw e
        | none => Run.emit (.enqueued bytes)
        notifyListeners throws listenCallback args
        pure true

/-- The `catch` blocks of `readData`, and the `return` after them. -/
def catchRead : Thrown E → Run (Event L Args E) (Thrown E) Bool
  | .exception what => do
      Run.emit (.crashed (some what))
      Run.emit .queuedShutdown
      pure false
  | .other => do
      Run.emit (.crashed none)
      Run.emit .queuedShutdown
      pure false

def readData (reading : Reading E) : Run (Event L Args E) (Thrown E) Bool :=
  if reading.active = false then pure false
  else if reading.tryLock = false then pure false
  else (tryRead throws listenCallback args reading).tryCatch catchRead

end ReadData

def Event.call? : Event L Args E → Option (FunctionWrapper L × Args)
  | .called callback args => some (callback, args)
  | _ => none

def Event.handled? : Event L Args E → Option E
  | .handled e => some e
  | _ => none

/-- The channel stays active, data has come, and it is in the queue. -/
def Reading.gotData (reading : Reading E) : Prop :=
  reading.active = true ∧ reading.tryLock = true ∧ reading.isActive = true ∧
    (∃ bytes, reading.received = .data bytes) ∧ reading.enqueueMove = none

/-- Every listener is called once, its exception is handled once, and the call returns. -/
structure Isolated (throws : FunctionWrapper L → Args → Option E)
    (callbacks : List (ThinVirtualLayer L)) (args : Args)
    (r : Run (Event L Args E) (Thrown E) Unit) : Prop where
  calls : (r.trace.filterMap Event.call?).Perm (callbacks.map fun c => (c.func, args))
  handled : (r.trace.filterMap Event.handled?).Perm
    (callbacks.filterMap fun c => throws c.func args)
  returned : r.outcome = .returned ()

variable {throws : FunctionWrapper L → Args → Option (Thrown E)}
  {listenCallback : ThreadSafeEventCallback C} {args : Args}

theorem listen_returned_iff {callback : FunctionWrapper L} :
    (listen throws callback args).outcome = .returned () ↔ throws callback args = none := by
  rw [listen]
  cases throws callback args with
  | none => exact iff_of_true rfl rfl
  | some e => exact iff_of_false nofun nofun

theorem invokeListeners_returned_iff :
    (invokeListeners throws listenCallback args).outcome = .returned () ↔
      ∀ c ∈ listenCallback.callbacks, throws c.func args = none := by
  rw [invokeListeners, ThreadSafeEventCallback.invokeError_eq_invoke,
    ThreadSafeEventCallback.invoke_returned_iff]
  simp only [listen_returned_iff]

theorem invokeListeners_of_silent (h : ∀ c ∈ listenCallback.callbacks, throws c.func args = none) :
    invokeListeners throws listenCallback args =
      ⟨listenCallback.callbacks.map fun c => .called c.func args, .returned ()⟩ := by
  rw [invokeListeners, ThreadSafeEventCallback.invokeError_eq_invoke,
    ThreadSafeEventCallback.invoke_of_returned fun c hc => listen_returned_iff.mpr (h c hc)]
  simp only [listen, List.map_eq_flatMap]

theorem notifyListeners_eq :
    notifyListeners throws listenCallback args = invokeListeners throws listenCallback args := by
  rw [notifyListeners, invokeListeners, ThreadSafeEventCallback.invokeError]
  split
  · rfl
  · rfl

/-- With data in the queue it is up to the listeners whether `readData` returns. -/
theorem readData_true_iff {reading : Reading E} (hgot : reading.gotData) :
    (readData throws listenCallback args reading).outcome = .returned true ↔
      ∀ c ∈ listenCallback.callbacks, throws c.func args = none := by
  obtain ⟨hactive, hlock, hstill, ⟨bytes, hreceived⟩, henqueue⟩ := hgot
  have htry : tryRead throws listenCallback args reading = Run.emit (.enqueued bytes) >>=
      fun _ => notifyListeners throws listenCallback args >>= fun _ => pure true := by
    simp only [tryRead, hstill, hreceived, henqueue]
    rfl
  have hcatch : ∀ e, (catchRead e : Run (Event L Args E) (Thrown E) Bool).outcome ≠
      .returned true := by
    intro e
    cases e with
    | exception what => nofun
    | other => nofun
  have hread : readData throws listenCallback args reading =
      (tryRead throws listenCallback args reading).tryCatch catchRead := by
    simp only [readData, hactive, hlock]
    rfl
  rw [← invokeListeners_returned_iff, hread, Run.tryCatch_returned_iff, htry, notifyListeners_eq]
  constructor
  · rintro (h | ⟨e, -, h⟩)
    · obtain ⟨_, -, h⟩ := Run.bind_returned_iff.mp h
      obtain ⟨_, hlisteners, -⟩ := Run.bind_returned_iff.mp h
      exact hlisteners
    · exact absurd h (hcatch e)
  · intro hlisteners
    refine Or.inl (Run.bind_returned_iff.mpr ⟨(), rfl, ?_⟩)
    exact Run.bind_returned_iff.mpr ⟨(), hlisteners, rfl⟩

/-- Every set of callbacks is isolated, and `readData` gets to its end, just when none throws. -/
theorem isolated_iff (throws : FunctionWrapper L → Args → Option E)
    (listenCallback : ThreadSafeEventCallback C) (args : Args) :
    (Isolated throws listenCallback.callbacks args
        (invokeListeners (fun c a => (throws c a).map .exception) listenCallback args) ∧
      ∀ reading : Reading E, reading.gotData →
        (readData (fun c a => (throws c a).map .exception) listenCallback args reading).outcome =
          .returned true) ↔
      ∀ c ∈ listenCallback.callbacks, throws c.func args = none := by
  constructor
  · rintro ⟨hisolated, -⟩ c hc
    have hnone := invokeListeners_returned_iff.mp hisolated.returned c hc
    exact Option.map_eq_none_iff.mp hnone
  · intro hsilent
    have hmap : ∀ c ∈ listenCallback.callbacks,
        (throws c.func args).map Thrown.exception = none := by
      intro c hc
      rw [hsilent c hc, Option.map_none]
    refine ⟨?_, fun reading hgot => (readData_true_iff hgot).mpr hmap⟩
    rw [invokeListeners_of_silent hmap]
    refine ⟨?_, ?_, rfl⟩
    · rw [List.filterMap_map]
      simp [Function.comp_def, Event.call?]
    · rw [List.filterMap_map]
      have hnone : listenCallback.callbacks.filterMap (fun c => throws c.func args) = [] :=
        List.filterMap_eq_nil_iff.mpr hsilent
      rw [hnone]
      simp [Function.comp_def, Event.handled?]

/-- A listener throws, and the process ends. -/
theorem not_isolated :
    ¬ ∀ (throws : FunctionWrapper Unit → Unit → Option Unit)
      (listenCallback : OrderedEventCallback Unit),
      Isolated throws listenCallback.callbacks ()
        (invokeListeners (fun c a => (throws c a).map .exception) listenCallback ()) ∧
      ∀ reading : Reading Unit, reading.gotData →
        (readData (fun c a => (throws c a).map .exception) listenCallback () reading).outcome =
          .returned true := by
  intro hall
  have hreturned := (hall (fun _ _ => some ()) ⟨[⟨.pointer 1⟩]⟩).1.returned
  cases hreturned

end Listeners
end SocketLib.Channel
