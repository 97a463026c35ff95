import SocketLib.EventCallbackSubscriptions
import SocketLib.ThreadFamily

/-!
# A `ThreadSafeEventCallback` and the threads that use it

`invoke` and `invokeError` hold `mutex` in shared mode while they go through the subscriptions,
the registrations and removals hold it in exclusive mode. A subscription that is called may itself
use the event: a thread is a stack of calls, and calls from outside stand at its bottom.

`std::shared_mutex` lets a reader in while a writer waits, or makes it wait behind the writer
(`writersFirst`); both are allowed. The iterator is the index of the subscription it stands at. An
exception does not leave a callback, and the two forms of `invoke` are one here. An `invoke` keeps
the subscriptions it found when it locked and those it has called so far.
-/

namespace SocketLib.EventCallbackThreads

open EventCallback TransitionSystem ThreadFamily

/-- One call of a function of the event. -/
inductive Frame (L : Type*)
  -- invoke and invokeError
  | invokeTest
  | invokeLock
  | invokeLoop (found called : List (ThinVirtualLayer L)) (itr : ℕ)
  | callback (found called : List (ThinVirtualLayer L)) (itr : ℕ)
  -- addCallback, removeCallback and clear
  | changeLock (op : Op L)
  | change (op : Op L)
  | changeUnlock

/-- `std::shared_mutex`: how often it is locked in shared mode, and whether in exclusive mode. -/
structure SharedMutex where
  shared : ℕ
  exclusive : Bool

variable {L T : Type*} {C : SetContainer (ThinVirtualLayer L)}

/-- Where a call begins. -/
def Frame.isEntry : Frame L → Bool
  | .invokeTest | .changeLock _ => true
  | _ => false

def Frame.isCallback : Frame L → Bool
  | .callback _ _ _ => true
  | _ => false

/-- With the lock in shared mode. -/
def Frame.sharing : Frame L → Bool
  | .invokeLoop _ _ _ | .callback _ _ _ => true
  | _ => false

/-- With the lock in exclusive mode. -/
def Frame.owning : Frame L → Bool
  | .change _ | .changeUnlock => true
  | _ => false

/-- In `lock()`. -/
def Frame.waiting : Frame L → Bool
  | .changeLock _ => true
  | _ => false

/-- The change that is about to be made. -/
def Frame.changing : Frame L → Option (Op L)
  | .change op => some op
  | _ => none

variable (C T) in
structure State where
  event : ThreadSafeEventCallback C
  mutex : SharedMutex
  frames : T → List (Frame L)

/-- The next step of the innermost call; `held` says that `lock_shared` waits behind a writer. -/
def act (held : Bool) (event : ThreadSafeEventCallback C) (mutex : SharedMutex) :
    List (Frame L) → Option (ThreadSafeEventCallback C × SharedMutex × List (Frame L))
  | .invokeTest :: outer => some (event, mutex, if event.empty then outer else .invokeLock :: outer)
  | .invokeLock :: outer =>
      if mutex.exclusive || held then none
      else some (event, { mutex with shared := mutex.shared + 1 },
        .invokeLoop event.callbacks [] 0 :: outer)
  | .invokeLoop found called itr :: outer =>
      match event.callbacks[itr]? with
      | some callback => some (event, mutex, .callback found (called ++ [callback]) itr :: outer)
      | none => some (event, { mutex with shared := mutex.shared - 1 }, outer)
  | .callback found called itr :: outer =>
      some (event, mutex, .invokeLoop found called (itr + 1) :: outer)
  | .changeLock op :: outer =>
      if mutex.exclusive || mutex.shared ≠ 0 then none
      else some (event, { mutex with exclusive := true }, .change op :: outer)
  | .change op :: outer => some (event.apply op, mutex, .changeUnlock :: outer)
  | .changeUnlock :: outer => some (event, { mutex with exclusive := false }, outer)
  | [] => none

inductive Label (L T : Type*)
  | run (t : T)
  | call (t : T) (frame : Frame L)

/-- Some thread is in `lock()`. -/
def State.writerWaits [Fintype T] (s : State T C) : Bool :=
  decide (∃ t, (s.frames t).head?.any Frame.waiting)

variable [Fintype T] [DecidableEq T]

def next (writersFirst : Bool) (s : State T C) : Label L T → Option (State T C)
  | .run t =>
      (act (writersFirst && s.writerWaits) s.event s.mutex (s.frames t)).map fun r =>
        ⟨r.1, r.2.1, Function.update s.frames t r.2.2⟩
  | .call t frame =>
      if frame.isEntry && (s.frames t).head?.all Frame.isCallback then
        some { s with frames := Function.update s.frames t (frame :: s.frames t) }
      else none

variable (C T) in
def initial : State T C := ⟨⟨[]⟩, ⟨0, false⟩, fun _ => []⟩

variable (C T) in
def system (writersFirst : Bool) : TransitionSystem (State T C) (Label L T) :=
  ⟨initial T C, next writersFirst⟩

/-! ### Steps -/

section Steps

variable {held : Bool} {event event' : ThreadSafeEventCallback C} {mutex mutex' : SharedMutex}
  {frames frames' outer : List (Frame L)}

/-- The steps of the innermost call, with what they find and what they leave. -/
inductive Steps (held : Bool) (event : ThreadSafeEventCallback C) (mutex : SharedMutex) :
    List (Frame L) → ThreadSafeEventCallback C → SharedMutex → List (Frame L) → Prop
  | nobody (outer : List (Frame L)) (h : event.empty = true) :
      Steps held event mutex (.invokeTest :: outer) event mutex outer
  | somebody (outer : List (Frame L)) (h : event.empty = false) :
      Steps held event mutex (.invokeTest :: outer) event mutex (.invokeLock :: outer)
  | lockShared (outer : List (Frame L)) (h : mutex.exclusive = false) (hheld : held = false) :
      Steps held event mutex (.invokeLock :: outer) event
        { mutex with shared := mutex.shared + 1 } (.invokeLoop event.callbacks [] 0 :: outer)
  | enter (found called : List (ThinVirtualLayer L)) (itr : ℕ) (outer : List (Frame L))
      (callback : ThinVirtualLayer L) (h : event.callbacks[itr]? = some callback) :
      Steps held event mutex (.invokeLoop found called itr :: outer) event mutex
        (.callback found (called ++ [callback]) itr :: outer)
  | unlockShared (found called : List (ThinVirtualLayer L)) (itr : ℕ) (outer : List (Frame L))
      (h : event.callbacks[itr]? = none) :
      Steps held event mutex (.invokeLoop found called itr :: outer) event
        { mutex with shared := mutex.shared - 1 } outer
  | leave (found called : List (ThinVirtualLayer L)) (itr : ℕ) (outer : List (Frame L)) :
      Steps held event mutex (.callback found called itr :: outer) event mutex
        (.invokeLoop found called (itr + 1) :: outer)
  | lock (op : Op L) (outer : List (Frame L)) (h : mutex.exclusive = false)
      (hshared : mutex.shared = 0) :
      Steps held event mutex (.changeLock op :: outer) event { mutex with exclusive := true }
        (.change op :: outer)
  | change (op : Op L) (outer : List (Frame L)) :
      Steps held event mutex (.change op :: outer) (event.apply op) mutex (.changeUnlock :: outer)
  | unlock (outer : List (Frame L)) :
      Steps held event mutex (.changeUnlock :: outer) event { mutex with exclusive := false } outer

theorem steps_of_act (h : act held event mutex frames = some (event', mutex', frames')) :
    Steps held event mutex frames event' mutex' frames' := by
  revert h
  fun_cases act held event mutex frames
  all_goals
    simp only [Option.some.injEq, Prod.mk.injEq, reduceCtorEq, false_implies, and_imp]
    try rintro rfl rfl rfl
  case case1 outer =>
    split_ifs with hempty
    · exact .nobody outer hempty
    · exact .somebody outer (Bool.eq_false_iff.mpr hempty)
  case case3 outer h =>
    obtain ⟨hexclusive, hheld⟩ := Bool.or_eq_false_iff.mp (Bool.eq_false_iff.mpr h)
    exact .lockShared outer hexclusive hheld
  case case4 found called itr outer callback h => exact .enter found called itr outer callback h
  case case5 found called itr outer h => exact .unlockShared found called itr outer h
  case case6 found called itr outer => exact .leave found called itr outer
  case case8 op outer h =>
    obtain ⟨hexclusive, hshared⟩ := Bool.or_eq_false_iff.mp (Bool.eq_false_iff.mpr h)
    exact .lock op outer hexclusive (by simpa using hshared)
  case case9 op outer => exact .change op outer
  case case10 outer => exact .unlock outer

end Steps

section Runs

variable {writersFirst : Bool} {s s' : State T C} {t : T} {a : Label L T}

/-- A step is one of the innermost call of a thread, or the beginning of a call. -/
theorem next_cases (h : next writersFirst s a = some s') :
    (∃ t event mutex frames, a = .run t ∧
      Steps (writersFirst && s.writerWaits) s.event s.mutex (s.frames t) event mutex frames ∧
      s' = ⟨event, mutex, Function.update s.frames t frames⟩) ∨
    ∃ t frame, a = .call t frame ∧ frame.isEntry = true ∧
      ((s.frames t).head?.all Frame.isCallback) = true ∧
      s' = { s with frames := Function.update s.frames t (frame :: s.frames t) } := by
  cases a with
  | run t =>
      obtain ⟨⟨event, mutex, frames⟩, hact, rfl⟩ := Option.map_eq_some_iff.mp h
      exact Or.inl ⟨t, event, mutex, frames, rfl, steps_of_act hact, rfl⟩
  | call t frame =>
      rw [next] at h
      split_ifs at h with hentry
      obtain ⟨hframe, hhead⟩ := Bool.and_eq_true_iff.mp hentry
      exact Or.inr ⟨t, frame, rfl, hframe, hhead, (Option.some.inj h).symm⟩

/-! ### The lock and the iterators -/

/-- How often these calls have locked in shared mode. -/
def shares (frames : List (Frame L)) : ℕ := frames.countP Frame.sharing

def owns (frames : List (Frame L)) : ℕ := frames.countP Frame.owning

/-- The iterator has got as far as the calls that were made, among the subscriptions that are still
those found. -/
def Frame.Follows (callbacks : List (ThinVirtualLayer L)) : Frame L → Prop
  | .invokeLoop found called itr =>
      found = callbacks ∧ itr ≤ callbacks.length ∧ called = callbacks.take itr
  | .callback found called itr =>
      found = callbacks ∧ itr < callbacks.length ∧ called = callbacks.take (itr + 1)
  | _ => True

structure Sound (s : State T C) : Prop where
  shared : s.mutex.shared = total shares s.frames
  exclusive : s.mutex.exclusive.toNat = total owns s.frames
  apart : s.mutex.exclusive = true → s.mutex.shared = 0
  nested : ∀ t, ∀ f ∈ (s.frames t).tail, f.isCallback = true
  follows : ∀ t, ∀ f ∈ s.frames t, f.Follows s.event.callbacks

omit [Fintype T] [DecidableEq T] in
@[simp] theorem shares_cons (f : Frame L) (frames : List (Frame L)) :
    shares (f :: frames) = shares frames + f.sharing.toNat := by
  rw [shares, List.countP_cons, shares]
  cases f.sharing <;> rfl

omit [Fintype T] [DecidableEq T] in
@[simp] theorem owns_cons (f : Frame L) (frames : List (Frame L)) :
    owns (f :: frames) = owns frames + f.owning.toNat := by
  rw [owns, List.countP_cons, owns]
  cases f.owning <;> rfl

omit [DecidableEq T] in
theorem sound_initial : Sound (initial T C) := by
  constructor
  · exact (Finset.sum_const_zero).symm
  · exact (Finset.sum_const_zero).symm
  · exact nofun
  · exact fun _ _ => nofun
  · exact fun _ _ => nofun

section OneStep

variable {held : Bool} {event event' : ThreadSafeEventCallback C} {mutex mutex' : SharedMutex}
  {frames frames' : List (Frame L)}

theorem Steps.shared (h : Steps held event mutex frames event' mutex' frames')
    (hle : shares frames ≤ mutex.shared) :
    mutex'.shared + shares frames = mutex.shared + shares frames' := by
  cases h <;> simp [Frame.sharing] at hle ⊢ <;> omega

theorem Steps.exclusive (h : Steps held event mutex frames event' mutex' frames')
    (hle : owns frames ≤ mutex.exclusive.toNat) :
    mutex'.exclusive.toNat + owns frames = mutex.exclusive.toNat + owns frames' := by
  have hone := Bool.toNat_le mutex.exclusive
  cases h <;> simp_all [Frame.owning]
  omega

theorem Steps.apart (h : Steps held event mutex frames event' mutex' frames')
    (hapart : mutex.exclusive = true → mutex.shared = 0) :
    mutex'.exclusive = true → mutex'.shared = 0 := by
  cases h <;> simp_all

theorem Steps.nested (h : Steps held event mutex frames event' mutex' frames')
    (hnested : ∀ f ∈ frames.tail, f.isCallback = true) :
    ∀ f ∈ frames'.tail, f.isCallback = true := by
  cases h with
  | nobody outer | unlockShared _ _ _ outer | unlock outer =>
      exact fun f hf => hnested f (List.mem_of_mem_tail hf)
  | _ => exact hnested

/-- The subscriptions change only under the exclusive lock. -/
theorem Steps.changes (h : Steps held event mutex frames event' mutex' frames') :
    event' = event ∨ ∃ op outer, frames = .change op :: outer ∧ event' = event.apply op ∧
      frames' = .changeUnlock :: outer := by
  cases h with
  | change op outer => exact Or.inr ⟨op, outer, rfl, rfl, rfl⟩
  | _ => exact Or.inl rfl

theorem follows_of_not_sharing {f : Frame L} (callbacks : List (ThinVirtualLayer L))
    (h : f.sharing = false) : f.Follows callbacks := by
  cases f with
  | invokeLoop _ _ _ | callback _ _ _ => cases h
  | _ => trivial

theorem follows_of_shares {callbacks : List (ThinVirtualLayer L)} (h : shares frames = 0)
    {f : Frame L} (hf : f ∈ frames) : f.Follows callbacks :=
  follows_of_not_sharing callbacks (Bool.eq_false_iff.mpr (List.countP_eq_zero.mp h f hf))

theorem Steps.follows (h : Steps held event mutex frames event' mutex' frames')
    (hapart : owns frames ≠ 0 → shares frames = 0)
    (hfollows : ∀ f ∈ frames, f.Follows event.callbacks) :
    ∀ f ∈ frames', f.Follows event'.callbacks := by
  cases h with
  | nobody outer hempty => exact (List.forall_mem_cons.mp hfollows).2
  | somebody outer hempty =>
      exact List.forall_mem_cons.mpr ⟨trivial, (List.forall_mem_cons.mp hfollows).2⟩
  | lockShared outer =>
      exact List.forall_mem_cons.mpr
        ⟨⟨rfl, Nat.zero_le _, rfl⟩, (List.forall_mem_cons.mp hfollows).2⟩
  | enter found called itr outer callback hitr =>
      obtain ⟨⟨rfl, hle, rfl⟩, houter⟩ := List.forall_mem_cons.mp hfollows
      obtain ⟨hlt, hget⟩ := List.getElem?_eq_some_iff.mp hitr
      refine List.forall_mem_cons.mpr ⟨⟨rfl, hlt, ?_⟩, houter⟩
      rw [← hget, List.take_append_getElem hlt]
  | unlockShared found called itr outer => exact (List.forall_mem_cons.mp hfollows).2
  | leave found called itr outer =>
      obtain ⟨⟨rfl, hlt, rfl⟩, houter⟩ := List.forall_mem_cons.mp hfollows
      exact List.forall_mem_cons.mpr ⟨⟨rfl, hlt, rfl⟩, houter⟩
  | lock op outer =>
      exact List.forall_mem_cons.mpr ⟨trivial, (List.forall_mem_cons.mp hfollows).2⟩
  | change op outer =>
      have hnone : shares (.change op :: outer) = 0 := hapart (by simp [Frame.owning])
      have houter : shares outer = 0 := by
        rw [shares_cons] at hnone
        omega
      exact List.forall_mem_cons.mpr ⟨trivial, fun f hf => follows_of_shares houter hf⟩
  | unlock outer => exact (List.forall_mem_cons.mp hfollows).2

end OneStep

omit [DecidableEq T] in
/-- Nobody goes through the subscriptions while a thread changes them. -/
theorem Sound.shares_eq_zero (hs : Sound s) (h : owns (s.frames t) ≠ 0) (u : T) :
    shares (s.frames u) = 0 := by
  have howns := le_total owns s.frames t
  have hexclusive : s.mutex.exclusive = true := by
    have hpos : s.mutex.exclusive.toNat ≠ 0 := by
      rw [hs.exclusive]
      omega
    cases hx : s.mutex.exclusive with
    | false => rw [hx] at hpos; exact absurd rfl hpos
    | true => rfl
  have hshares := le_total shares s.frames u
  have hnone := hs.apart hexclusive
  rw [hs.shared] at hnone
  omega

theorem Sound.run {held : Bool} {event : ThreadSafeEventCallback C} {mutex : SharedMutex}
    {frames : List (Frame L)} (hs : Sound s)
    (h : Steps held s.event s.mutex (s.frames t) event mutex frames) :
    Sound (⟨event, mutex, Function.update s.frames t frames⟩ : State T C) := by
  have hshares := total_update shares s.frames t frames
  have howns := total_update owns s.frames t frames
  have hle : shares (s.frames t) ≤ s.mutex.shared := hs.shared ▸ le_total shares s.frames t
  have hle' : owns (s.frames t) ≤ s.mutex.exclusive.toNat := hs.exclusive ▸ le_total owns s.frames t
  have hshared := h.shared hle
  have hexclusive := h.exclusive hle'
  constructor
  case shared =>
    have := hs.shared
    dsimp only
    omega
  case exclusive =>
    have := hs.exclusive
    dsimp only
    omega
  case apart => exact h.apart hs.apart
  case nested =>
    intro u
    by_cases hu : u = t
    · subst u
      simpa only [Function.update_self] using h.nested (hs.nested t)
    · simpa only [Function.update_of_ne hu] using hs.nested u
  case follows =>
    intro u
    by_cases hu : u = t
    · subst u
      simpa only [Function.update_self] using
        h.follows (fun howns => hs.shares_eq_zero howns t) (hs.follows t)
    · simp only [Function.update_of_ne hu]
      rcases h.changes with rfl | ⟨op, outer, hframes, -, -⟩
      · exact hs.follows u
      · have hnone : shares (s.frames u) = 0 :=
          hs.shares_eq_zero (t := t) (by rw [hframes, owns_cons]; simp [Frame.owning]) u
        exact fun f hf => follows_of_shares hnone hf

theorem entry_weights {frame : Frame L} (h : frame.isEntry = true) :
    frame.sharing = false ∧ frame.owning = false := by
  cases frame with
  | invokeTest | changeLock _ => exact ⟨rfl, rfl⟩
  | _ => cases h

theorem Sound.call {frame : Frame L} (hs : Sound s) (hentry : frame.isEntry = true)
    (hhead : ((s.frames t).head?.all Frame.isCallback) = true) :
    Sound { s with frames := Function.update s.frames t (frame :: s.frames t) } := by
  obtain ⟨hsharing, howning⟩ := entry_weights hentry
  constructor
  case shared =>
    exact hs.shared.trans (total_update_eq (by rw [shares_cons, hsharing]; rfl)).symm
  case exclusive =>
    exact hs.exclusive.trans (total_update_eq (by rw [owns_cons, howning]; rfl)).symm
  case apart => exact hs.apart
  case nested =>
    intro u
    by_cases hu : u = t
    · subst u
      simp only [Function.update_self, List.tail_cons]
      have hnested := hs.nested t
      cases hframes : s.frames t with
      | nil => exact nofun
      | cons f outer =>
          rw [hframes] at hnested hhead
          exact List.forall_mem_cons.mpr ⟨hhead, hnested⟩
    · simpa only [Function.update_of_ne hu] using hs.nested u
  case follows =>
    intro u
    by_cases hu : u = t
    · subst u
      simp only [Function.update_self]
      exact List.forall_mem_cons.mpr
        ⟨follows_of_not_sharing s.event.callbacks hsharing, hs.follows t⟩
    · simpa only [Function.update_of_ne hu] using hs.follows u

theorem Sound.next (hs : Sound s) (h : next writersFirst s a = some s') : Sound s' := by
  obtain ⟨t, event, mutex, frames, -, hsteps, rfl⟩ | ⟨t, frame, -, hentry, hhead, rfl⟩ :=
    next_cases h
  · exact hs.run hsteps
  · exact hs.call hentry hhead

theorem sound_of_reachable (h : (system T C writersFirst).Reachable s) : Sound s :=
  h.invariant sound_initial (fun _ _ _ _ hs _ hnext => hs.next hnext)

/-! ### What an `invoke` calls -/

def Frame.found : Frame L → List (ThinVirtualLayer L)
  | .invokeLoop found _ _ | .callback found _ _ => found
  | _ => []

def Frame.called : Frame L → List (ThinVirtualLayer L)
  | .invokeLoop _ called _ | .callback _ called _ => called
  | _ => []

/-- The subscription that is being called. -/
def Frame.calling : Frame L → Option (ThinVirtualLayer L)
  | .callback _ called _ => called.getLast?
  | _ => none

omit [Fintype T] [DecidableEq T] in
theorem Frame.Follows.called {f : Frame L} {callbacks : List (ThinVirtualLayer L)}
    (h : f.Follows callbacks) (hf : f.sharing = true) :
    f.found = callbacks ∧ f.called <+: callbacks := by
  cases f with
  | invokeLoop found called itr | callback found called itr =>
      obtain ⟨rfl, -, rfl⟩ := h
      exact ⟨rfl, List.take_prefix _ _⟩
  | _ => cases hf

omit [Fintype T] [DecidableEq T] in
theorem Frame.Follows.calling {f : Frame L} {callbacks : List (ThinVirtualLayer L)}
    {callback : ThinVirtualLayer L} (h : f.Follows callbacks) (hf : f.calling = some callback) :
    callback ∈ callbacks := by
  cases f with
  | callback found called itr =>
      obtain ⟨-, -, rfl⟩ := h
      exact List.mem_of_mem_take (List.mem_of_getLast? hf)
  | _ => cases hf

/-- With any number of threads and calls within calls: the subscriptions of the event stay those
that an `invoke` under way has found, of which it has called the first ones in order; and when it
returns it has called all of them, each once. -/
theorem invoke_once (h : (system T C writersFirst).Reachable s) (t : T) :
    (∀ f ∈ s.frames t, f.sharing = true → f.found = s.event.called ∧ f.called <+: f.found) ∧
    ∀ found called itr outer s', s.frames t = .invokeLoop found called itr :: outer →
      next writersFirst s (.run t) = some s' → s'.frames t = outer → called = found := by
  have hs := sound_of_reachable h
  constructor
  · intro f hf hsharing
    obtain ⟨hfound, hcalled⟩ := (hs.follows t f hf).called hsharing
    rw [ThreadSafeEventCallback.called_eq, hfound]
    exact ⟨rfl, hcalled⟩
  · intro found called itr outer s' hframes hnext hreturn
    obtain ⟨u, event, mutex, frames, heq, hsteps, rfl⟩ | ⟨u, frame, heq, -⟩ := next_cases hnext
    · obtain rfl := Label.run.inj heq
      simp only [Function.update_self] at hreturn
      subst hreturn
      obtain ⟨hfound, hle, hcalled⟩ := hs.follows t _ (hframes ▸ List.mem_cons_self)
      rw [hframes] at hsteps
      cases hsteps with
      | unlockShared _ _ _ _ hend =>
          have hge := List.getElem?_eq_none_iff.mp hend
          rw [hcalled, hfound, List.take_of_length_le hge]
    · cases heq

/-- What a change to the subscriptions may add. -/
theorem mem_apply (hC : C.Contained) {event : ThreadSafeEventCallback C} {op : Op L}
    {callback : ThinVirtualLayer L} (h : callback ∈ (event.apply op).callbacks) :
    op.added = some callback ∨ callback ∈ event.callbacks := by
  rcases op.added_or_removed with ⟨added, hadded⟩ | ⟨removed, hremoved⟩ | ⟨member, rfl⟩ | rfl
  · rw [ThreadSafeEventCallback.apply_of_added hadded] at h
    rcases hC.mem_emplace h with rfl | hmem
    · exact Or.inl hadded
    · exact Or.inr hmem
  · rw [ThreadSafeEventCallback.apply_of_removed hremoved] at h
    exact Or.inr ((hC.erase _ _).subset h)
  · exact Or.inr (List.mem_filter.mp h).1
  · cases h

/-- The step does not add the subscription. -/
def AddsNot (callback : ThinVirtualLayer L) (s : State T C) : Label L T → Prop
  | .run t => ∀ op ∈ (s.frames t).head?.bind Frame.changing, op.added ≠ some callback
  | .call _ _ => True

/-- A subscription that is not there any more is not being called, and is not called until somebody
adds it again. -/
theorem not_called_until_added (hC : C.Contained) {callback : ThinVirtualLayer L}
    (h : (system T C writersFirst).Reachable s) (hremoved : callback ∉ s.event.callbacks)
    (hrun : (system T C writersFirst).LeadsBy (AddsNot callback) s s') :
    callback ∉ s'.event.callbacks ∧ ∀ t, ∀ f ∈ s'.frames t, f.calling ≠ some callback := by
  have hstep : ∀ s a s', (system T C writersFirst).Reachable s → callback ∉ s.event.callbacks →
      AddsNot callback s a → (system T C writersFirst).next s a = some s' →
      callback ∉ s'.event.callbacks := by
    intro s a s' _ hnot hadds hnext hmem
    obtain ⟨t, event, mutex, frames, rfl, hsteps, rfl⟩ | ⟨t, frame, -, -, -, rfl⟩ :=
      next_cases hnext
    · rcases hsteps.changes with rfl | ⟨op, outer, hframes, rfl, -⟩
      · exact hnot hmem
      · rcases mem_apply hC hmem with hadded | hmem
        · exact hadds op (by rw [hframes]; rfl) hadded
        · exact hnot hmem
    · exact hnot hmem
  obtain ⟨hreach, hnot⟩ := hrun.keeps h hremoved hstep
  refine ⟨hnot, fun t f hf hcalling => hnot ?_⟩
  exact ((sound_of_reachable hreach).follows t f hf).calling hcalling

end Runs

/-! ### A removal that waits for a call -/

instance [DecidableEq L] (callback : ThinVirtualLayer L) (s : State T C) (a : Label L T) :
    Decidable (AddsNot callback s a) :=
  match a with
  | .run t =>
      match h : (s.frames t).head?.bind Frame.changing with
      | none => isTrue (fun op hop => by rw [h] at hop; cases hop)
      | some op =>
          if hadded : op.added = some callback then
            isFalse (fun hadds => hadds op h hadded)
          else isTrue (fun op' hop => Option.some.inj (h.symm.trans hop) ▸ hadded)
  | .call _ _ => instDecidableTrue

def runs (t : T) (n : ℕ) : List (Label L T) := List.replicate n (.run t)

/-- `u` removes 5 while `t` is in its call, and then `t` calls 7. -/
def removeDuringCall (t u : T) : List (Label Unit T) × List (Label Unit T) :=
  (.call u (.changeLock (.addFunction 5)) :: runs u 3 ++
    .call u (.changeLock (.addFunction 7)) :: runs u 3 ++ .call t .invokeTest :: runs t 3 ++
    .call u (.changeLock (.removeFunction 5)) :: runs t 4 ++ runs u 3,
  .call t .invokeTest :: runs t 3)

theorem invoke_once_removeDuringCall :
    ∃ s : State (Fin 2) (orderedSet Unit), (system (Fin 2) (orderedSet Unit) true).Reachable s ∧
      ∃ f ∈ s.frames 0, f.called.map ThinVirtualLayer.ptr = [5, 7] ∧
        f.found = s.event.called ∧ f.called <+: f.found := by
  have hrun : ((system (Fin 2) (orderedSet Unit) true).exec
      (system (Fin 2) (orderedSet Unit) true).start ((removeDuringCall 0 1).1.take 15)).any
      (fun s => (s.frames 0).any fun f =>
        f.sharing && f.called.map ThinVirtualLayer.ptr == [5, 7]) = true := by decide
  obtain ⟨s, hr, hs⟩ := exists_reachedBy_of_execWhile hrun
  obtain ⟨f, hf, hcalled⟩ := List.any_eq_true.mp hs
  rw [Bool.and_eq_true, beq_iff_eq] at hcalled
  obtain ⟨hfound, hprefix⟩ := (invoke_once hr 0).1 f hf hcalled.1
  exact ⟨s, hr, f, hf, hcalled.2, hfound, hprefix⟩

theorem not_called_until_added_removeDuringCall :
    ∃ s s' : State (Fin 2) (orderedSet Unit),
      (system (Fin 2) (orderedSet Unit) true).Reachable s ∧
      (system (Fin 2) (orderedSet Unit) true).LeadsTo s s' ∧
      ((s'.frames 0).any fun f => f.calling = some ⟨.pointer 7⟩) ∧
      ∀ t, ∀ f ∈ s'.frames t, f.calling ≠ some ⟨.pointer 5⟩ := by
  let S := system (Fin 2) (orderedSet Unit) true
  have hrun : ((S.exec S.start (removeDuringCall 0 1).1).bind (fun s =>
      (S.execWhile (AddsNot ⟨.pointer 5⟩) s (removeDuringCall 0 1).2).map (Prod.mk s))).any
      (fun r => decide (⟨.pointer 5⟩ ∉ r.1.event.callbacks) &&
        (r.2.frames 0).any fun f => f.calling = some ⟨.pointer 7⟩) = true := by decide
  obtain ⟨r, hr, hstate⟩ := (Option.any_eq_true _ _).mp hrun
  obtain ⟨s, hs, hrest⟩ := Option.bind_eq_some_iff.mp hr
  obtain ⟨s', hs', rfl⟩ := Option.map_eq_some_iff.mp hrest
  rw [Bool.and_eq_true, decide_eq_true_eq] at hstate
  have hreach : S.Reachable s := execWhile_reachedBy .start hs
  have hleads : S.LeadsBy (AddsNot ⟨.pointer 5⟩) s s' := execWhile_leadsBy hs'
  exact ⟨s, s', hreach, hleads.mono (fun _ _ _ => trivial), hstate.2,
    (not_called_until_added (SetContainer.ordered_contained _) hreach hstate.1 hleads).2⟩

end SocketLib.EventCallbackThreads
