import SocketLib.EventCallbackThreads

/-!
# When the calls of an event return

A callback runs under the shared lock of its `invoke`. If it registers or removes on its own event
it waits for that lock, and if it invokes its own event while a writer waits, and `lock_shared`
waits behind writers, it waits for one that waits for it. `Clear` excludes just these two. In a
clear state all calls under way return, whatever the order of their steps; in any other there is one
that never does (`returns_iff_clear`).
-/

namespace SocketLib.EventCallbackThreads

open EventCallback TransitionSystem ThreadFamily

variable {L T : Type*} {C : SetContainer (ThinVirtualLayer L)}

/-- In an `invoke` that has not got the lock yet. -/
def Frame.entering : Frame L → Bool
  | .invokeTest | .invokeLock => true
  | _ => false

variable [Fintype T]

structure Clear (writersFirst : Bool) (s : State T C) : Prop where
  change : ∀ t f outer, s.frames t = f :: outer → f.waiting = true → outer = []
  invoke : writersFirst = true → ∀ t f outer, s.frames t = f :: outer → f.entering = true →
    outer ≠ [] → s.writerWaits = false

/-- The calls under way, without new ones. -/
def calls [DecidableEq T] (writersFirst : Bool) (s : State T C) : TransitionSystem (State T C) T :=
  ⟨s, fun s t => next writersFirst s (.run t)⟩

theorem writerWaits_iff {s : State T C} :
    s.writerWaits = true ↔ ∃ t f outer, s.frames t = f :: outer ∧ f.waiting = true := by
  rw [State.writerWaits, decide_eq_true_eq]
  constructor
  · rintro ⟨t, ht⟩
    cases hframes : s.frames t with
    | nil => rw [hframes] at ht; cases ht
    | cons f outer =>
        rw [hframes] at ht
        exact ⟨t, f, outer, hframes, ht⟩
  · rintro ⟨t, f, outer, hframes, hf⟩
    exact ⟨t, by rw [hframes]; exact hf⟩

section Steps

variable {held : Bool} {event event' : ThreadSafeEventCallback C} {mutex mutex' : SharedMutex}
  {frames frames' : List (Frame L)}

omit [Fintype T] in
/-- After a step the innermost call is not in `lock()`, and it is before the lock of an `invoke`
only if it was so before. -/
theorem Steps.head (h : Steps held event mutex frames event' mutex' frames')
    (hnested : ∀ f ∈ frames.tail, f.isCallback = true) {f : Frame L} {outer : List (Frame L)}
    (hframes' : frames' = f :: outer) :
    f.waiting = false ∧ (f.entering = true → frames = .invokeTest :: outer) := by
  have hpop : ∀ {g : Frame L} {rest : List (Frame L)}, frames = g :: rest → rest = f :: outer →
      f.waiting = false ∧ (f.entering = true → frames = .invokeTest :: outer) := by
    rintro g rest rfl rfl
    have hcallback := hnested f List.mem_cons_self
    cases f with
    | callback _ _ _ => exact ⟨rfl, nofun⟩
    | _ => cases hcallback
  cases h with
  | nobody rest _ | unlockShared _ _ _ rest _ | unlock rest => exact hpop rfl hframes'
  | somebody rest _ =>
      obtain ⟨rfl, rfl⟩ := List.cons.inj hframes'
      exact ⟨rfl, fun _ => rfl⟩
  | _ =>
      obtain ⟨rfl, rfl⟩ := List.cons.inj hframes'
      exact ⟨rfl, nofun⟩

omit [Fintype T] in
/-- Only the two locks are waited for. -/
theorem exists_act {f : Frame L} {outer : List (Frame L)} (hlock : f ≠ .invokeLock)
    (hwaiting : f.waiting = false) : ∃ r, act held event mutex (f :: outer) = some r := by
  cases f with
  | invokeLock => exact absurd rfl hlock
  | changeLock _ => cases hwaiting
  | invokeLoop found called itr =>
      rw [act]
      cases event.callbacks[itr]? with
      | none => exact ⟨_, rfl⟩
      | some callback => exact ⟨_, rfl⟩
  | _ => exact ⟨_, rfl⟩

end Steps

variable [DecidableEq T] {writersFirst : Bool} {s s' : State T C} {t : T}

/-! ### Clear states stay clear and go on -/

theorem Clear.run (hc : Clear writersFirst s) (hs : Sound s)
    (h : next writersFirst s (.run t) = some s') : Clear writersFirst s' := by
  obtain ⟨u, event, mutex, frames, heq, hsteps, rfl⟩ | ⟨u, frame, heq, -⟩ := next_cases h
  swap
  · cases heq
  obtain rfl := Label.run.inj heq
  have hhead := fun f outer (hf : frames = f :: outer) => hsteps.head (hs.nested t) hf
  have hwaits : s.writerWaits = false →
      (⟨event, mutex, Function.update s.frames t frames⟩ : State T C).writerWaits = false := by
    intro hnone
    refine Bool.eq_false_iff.mpr (fun hsome => ?_)
    obtain ⟨u, f, outer, hframes, hf⟩ := writerWaits_iff.mp hsome
    by_cases hu : u = t
    · subst u
      simp only [Function.update_self] at hframes
      rw [(hhead _ _ hframes).1] at hf
      cases hf
    · simp only [Function.update_of_ne hu] at hframes
      rw [writerWaits_iff.mpr ⟨u, f, outer, hframes, hf⟩] at hnone
      cases hnone
  constructor
  case change =>
    intro u f outer hframes hf
    by_cases hu : u = t
    · subst u
      simp only [Function.update_self] at hframes
      rw [(hhead _ _ hframes).1] at hf
      cases hf
    · simp only [Function.update_of_ne hu] at hframes
      exact hc.change u f outer hframes hf
  case invoke =>
    intro hfirst u f outer hframes hf houter
    by_cases hu : u = t
    · subst u
      simp only [Function.update_self] at hframes
      have hbefore := (hhead _ _ hframes).2 hf
      exact hwaits (hc.invoke hfirst t _ outer hbefore rfl houter)
    · simp only [Function.update_of_ne hu] at hframes
      exact hwaits (hc.invoke hfirst u f outer hframes hf houter)

omit [Fintype T] [DecidableEq T] in
theorem shares_of_callbacks {frames : List (Frame L)} (h : ∀ f ∈ frames, f.isCallback = true) :
    owns frames = 0 ∧ (frames ≠ [] → 0 < shares frames) := by
  constructor
  · refine List.countP_eq_zero.mpr (fun f hf hown => ?_)
    have hcallback := h f hf
    cases f with
    | callback _ _ _ => cases hown
    | _ => cases hcallback
  · intro hne
    obtain ⟨f, hf⟩ := List.exists_mem_of_ne_nil frames hne
    refine List.countP_pos_iff.mpr ⟨f, hf, ?_⟩
    have hcallback := h f hf
    cases f with
    | callback _ _ _ => rfl
    | _ => cases hcallback

/-- In a clear state somebody goes on, unless all calls have returned. -/
theorem Clear.progress (hc : Clear writersFirst s) (hs : Sound s) (hsome : ∃ t, s.frames t ≠ []) :
    ∃ t s', next writersFirst s (.run t) = some s' := by
  have hrun : ∀ {t}, (∃ r, act (writersFirst && s.writerWaits) s.event s.mutex (s.frames t) =
      some r) → ∃ t s', next writersFirst s (.run t) = some s' := by
    rintro t ⟨r, hr⟩
    exact ⟨t, _, by rw [next, hr]; rfl⟩
  by_cases hlocks : ∀ t f outer, s.frames t = f :: outer → f = .invokeLock ∨ f.waiting = true
  swap
  · push Not at hlocks
    obtain ⟨t, f, outer, hframes, hlock, hwaiting⟩ := hlocks
    exact hrun (hframes ▸ exists_act hlock (Bool.eq_false_iff.mpr hwaiting))
  -- Nobody is past a lock of its innermost call, so that the mutex is not owned.
  have howns : ∀ t, owns (s.frames t) = 0 := by
    intro t
    cases hframes : s.frames t with
    | nil => rfl
    | cons f outer =>
        have hnested := hs.nested t
        rw [hframes, List.tail_cons] at hnested
        rw [owns_cons, (shares_of_callbacks hnested).1]
        rcases hlocks t f outer hframes with rfl | hf
        · rfl
        · cases f with
          | changeLock _ => rfl
          | _ => cases hf
  have hfree : s.mutex.exclusive = false := by
    have hzero : s.mutex.exclusive.toNat = 0 :=
      hs.exclusive.trans (Finset.sum_eq_zero (fun t _ => howns t))
    exact Bool.toNat_eq_zero.mp hzero
  by_cases henter : ∃ t outer, s.frames t = .invokeLock :: outer ∧
      (writersFirst && s.writerWaits) = false
  · obtain ⟨t, outer, hframes, hheld⟩ := henter
    have hact : act (writersFirst && s.writerWaits) s.event s.mutex (s.frames t) =
        some (s.event, { s.mutex with shared := s.mutex.shared + 1 },
          .invokeLoop s.event.callbacks [] 0 :: outer) := by
      rw [hframes, act, if_neg]
      rw [hfree, hheld]
      exact Bool.false_ne_true
    exact hrun ⟨_, hact⟩
  · -- A writer waits, and every other call that waits does so from outside.
    push Not at henter
    have hfirst : ∀ t f outer, s.frames t = f :: outer → outer = [] := by
      intro t f outer hframes
      by_contra houter
      rcases hlocks t f outer hframes with rfl | hf
      · have hheld := henter t outer hframes
        rw [Ne, Bool.not_eq_false, Bool.and_eq_true] at hheld
        have hnone := hc.invoke hheld.1 t _ outer hframes rfl houter
        rw [hnone] at hheld
        cases hheld.2
      · exact houter (hc.change t f outer hframes hf)
    have hshares : s.mutex.shared = 0 := by
      refine hs.shared.trans (Finset.sum_eq_zero (fun t _ => ?_))
      cases hframes : s.frames t with
      | nil => rfl
      | cons f outer =>
          rw [hfirst t f outer hframes, shares_cons]
          rcases hlocks t f outer hframes with rfl | hf
          · rfl
          · cases f with
            | changeLock _ => rfl
            | _ => cases hf
    have hwriter : ∃ u op outer, s.frames u = .changeLock op :: outer := by
      obtain ⟨t, ht⟩ := hsome
      obtain ⟨f, outer, hframes⟩ := List.exists_cons_of_ne_nil ht
      have hwaits : ∃ u g outer, s.frames u = g :: outer ∧ g.waiting = true := by
        rcases hlocks t f outer hframes with rfl | hf
        · have hheld := henter t outer hframes
          rw [Ne, Bool.not_eq_false, Bool.and_eq_true] at hheld
          exact writerWaits_iff.mp hheld.2
        · exact ⟨t, f, outer, hframes, hf⟩
      obtain ⟨u, g, outer, hframes, hg⟩ := hwaits
      cases g with
      | changeLock op => exact ⟨u, op, outer, hframes⟩
      | _ => cases hg
    obtain ⟨u, op, outer, hframes⟩ := hwriter
    have hact : act (writersFirst && s.writerWaits) s.event s.mutex (s.frames u) =
        some (s.event, { s.mutex with exclusive := true }, .change op :: outer) := by
      rw [hframes, act, if_neg]
      rw [hfree, hshares]
      exact Bool.false_ne_true
    exact hrun ⟨_, hact⟩

/-! ### All calls return -/

/-- A change that is still to be made. -/
def Frame.pending : Frame L → Bool
  | .changeLock _ | .change _ => true
  | _ => false

/-- The steps that a call can still take while the event has so many subscriptions at most. -/
def Frame.steps (bound : ℕ) : Frame L → ℕ
  | .invokeTest => 2 * bound + 3
  | .invokeLock => 2 * bound + 2
  | .invokeLoop _ _ itr => 2 * (bound - itr) + 1
  | .callback _ _ itr => 2 * (bound - itr)
  | .changeLock _ => 3
  | .change _ => 2
  | .changeUnlock => 1

def steps (bound : ℕ) (frames : List (Frame L)) : ℕ := (frames.map (Frame.steps bound)).sum

def pending (frames : List (Frame L)) : ℕ := frames.countP Frame.pending

/-- The subscriptions there can be when all changes under way have been made. -/
def State.bound (s : State T C) : ℕ := s.event.callbacks.length + total pending s.frames

omit [Fintype T] [DecidableEq T] in
theorem pending_cons (f : Frame L) (frames : List (Frame L)) :
    pending (f :: frames) = pending frames + f.pending.toNat := by
  rw [pending, List.countP_cons, pending]
  cases f.pending <;> rfl

omit [Fintype T] [DecidableEq T] in
theorem steps_cons (bound : ℕ) (f : Frame L) (frames : List (Frame L)) :
    steps bound (f :: frames) = f.steps bound + steps bound frames := by
  rw [steps, List.map_cons, List.sum_cons, steps]

omit [Fintype T] [DecidableEq T] in
theorem length_apply_le (hC : C.Contained) (event : ThreadSafeEventCallback C) (op : Op L) :
    (event.apply op).callbacks.length ≤ event.callbacks.length + 1 := by
  rcases op.added_or_removed with ⟨added, hadded⟩ | ⟨removed, hremoved⟩ | ⟨member, rfl⟩ | rfl
  · rw [ThreadSafeEventCallback.apply_of_added hadded]
    exact hC.length_emplace_le _ _
  · rw [ThreadSafeEventCallback.apply_of_removed hremoved]
    exact (hC.erase _ _).length_le.trans (Nat.le_succ _)
  · exact (List.length_filter_le _ _).trans (Nat.le_succ _)
  · exact Nat.zero_le _

section Steps

variable {held : Bool} {event event' : ThreadSafeEventCallback C} {mutex mutex' : SharedMutex}
  {frames frames' : List (Frame L)}

omit [Fintype T] [DecidableEq T] in
theorem Steps.bound (hC : C.Contained) (h : Steps held event mutex frames event' mutex' frames') :
    event'.callbacks.length + pending frames' ≤ event.callbacks.length + pending frames := by
  cases h with
  | change op outer =>
      have hlength := length_apply_le hC event op
      simp only [pending_cons, Frame.pending, Bool.toNat_true, Bool.toNat_false]
      omega
  | _ => simp [pending_cons, Frame.pending]

omit [Fintype T] [DecidableEq T] in
theorem Steps.steps {bound : ℕ} (h : Steps held event mutex frames event' mutex' frames')
    (hfollows : ∀ f ∈ frames, f.Follows event.callbacks) (hbound : event.callbacks.length ≤ bound) :
    steps bound frames' < steps bound frames := by
  cases h with
  | leave found called itr outer =>
      obtain ⟨-, hlt, -⟩ := hfollows _ List.mem_cons_self
      simp only [steps_cons, Frame.steps]
      omega
  | nobody | somebody | lockShared | enter | unlockShared | lock | change | unlock =>
      simp only [steps_cons, Frame.steps]
      omega

end Steps

/-- A step of a call under way takes one off what all calls can still do. -/
theorem steps_lt (hC : C.Contained) (hs : Sound s) {bound : ℕ} (hbound : s.bound ≤ bound)
    (h : next writersFirst s (.run t) = some s') :
    s'.bound ≤ bound ∧ total (steps bound) s'.frames < total (steps bound) s.frames := by
  obtain ⟨u, event, mutex, frames, heq, hsteps, rfl⟩ | ⟨u, frame, heq, -⟩ := next_cases h
  · obtain rfl := Label.run.inj heq
    have hpending := total_update pending s.frames t frames
    have hcost := total_update (steps bound) s.frames t frames
    have hle := hsteps.bound hC
    rw [State.bound] at hbound
    have hlt : steps bound frames < steps bound (s.frames t) :=
      hsteps.steps (hs.follows t) (by omega)
    dsimp only [State.bound]
    omega
  · cases heq

/-! ### Calls that never return -/

/-- A callback that waits for the lock of its own `invoke`, to own it or behind a writer. -/
def Stuck (writersFirst : Bool) (s : State T C) (t : T) : Prop :=
  ∃ f outer, s.frames t = f :: outer ∧ outer ≠ [] ∧
    (f.waiting = true ∨ writersFirst = true ∧ f.entering = true ∧ s.writerWaits = true)

omit [DecidableEq T] in
theorem not_clear_iff : ¬ Clear writersFirst s ↔ ∃ t, Stuck writersFirst s t := by
  constructor
  · intro h
    by_contra hnone
    push Not at hnone
    refine h ⟨fun t f outer hframes hf => ?_, fun hfirst t f outer hframes hf houter => ?_⟩
    · by_contra houter
      exact hnone t ⟨f, outer, hframes, houter, Or.inl hf⟩
    · refine Bool.eq_false_iff.mpr (fun hwaits => ?_)
      exact hnone t ⟨f, outer, hframes, houter, Or.inr ⟨hfirst, hf, hwaits⟩⟩
  · rintro ⟨t, f, outer, hframes, houter, hf | ⟨hfirst, hf, hwaits⟩⟩ hc
    · exact houter (hc.change t f outer hframes hf)
    · rw [hc.invoke hfirst t f outer hframes hf houter] at hwaits
      cases hwaits

/-- While the event is locked in shared mode, a thread in `lock()` stays there. -/
theorem stays_waiting {a : Label L T} {u : T} {g : Frame L} {rest : List (Frame L)}
    (hshared : s.mutex.shared ≠ 0) (hframes : s.frames u = g :: rest) (hg : g.waiting = true)
    (h : next writersFirst s a = some s') : s'.frames u = g :: rest := by
  obtain ⟨op, rfl⟩ : ∃ op, g = .changeLock op := by
    cases g with
    | changeLock op => exact ⟨op, rfl⟩
    | _ => cases hg
  obtain ⟨v, event, mutex, frames, -, hsteps, rfl⟩ | ⟨v, frame, -, -, hhead, rfl⟩ := next_cases h
  · by_cases hv : u = v
    · subst v
      rw [hframes] at hsteps
      cases hsteps with
      | lock _ _ _ hnone => exact absurd hnone hshared
    · exact (Function.update_of_ne hv ..).trans hframes
  · by_cases hv : u = v
    · subst v
      rw [hframes] at hhead
      cases hhead
    · exact (Function.update_of_ne hv ..).trans hframes

/-- While a callback is stuck, the event stays locked in shared mode, so that every writer that
waits keeps waiting, and the callback stays before its lock. -/
theorem Stuck.next {a : Label L T} (hstuck : Stuck writersFirst s t) (hs : Sound s)
    (h : next writersFirst s a = some s') : Stuck writersFirst s' t := by
  obtain ⟨f, outer, hframes, houter, hf⟩ := hstuck
  have hnested := hs.nested t
  rw [hframes, List.tail_cons] at hnested
  have hshared : s.mutex.shared ≠ 0 := by
    have hpos := (shares_of_callbacks hnested).2 houter
    have hle := le_total shares s.frames t
    rw [hframes, shares_cons] at hle
    have := hs.shared
    omega
  rcases hf with hf | ⟨hfirst, hf, hwaits⟩
  · exact ⟨f, outer, stays_waiting hshared hframes hf h, houter, Or.inl hf⟩
  have hwaits' : s'.writerWaits = true := by
    obtain ⟨u, g, rest, hu, hg⟩ := writerWaits_iff.mp hwaits
    exact writerWaits_iff.mpr ⟨u, g, rest, stays_waiting hshared hu hg h, hg⟩
  suffices hstay : ∃ f, s'.frames t = f :: outer ∧ f.entering = true by
    obtain ⟨f, hframes, hf⟩ := hstay
    exact ⟨f, outer, hframes, houter, Or.inr ⟨hfirst, hf, hwaits'⟩⟩
  obtain ⟨v, event, mutex, frames, -, hsteps, rfl⟩ | ⟨v, frame, -, -, hhead, rfl⟩ := next_cases h
  · by_cases hv : t = v
    · subst v
      simp only [Function.update_self]
      rw [hframes] at hsteps
      cases hsteps with
      | nobody _ hempty =>
          -- a callback of the event runs, so that it has a subscription
          obtain ⟨g, hg⟩ := List.exists_mem_of_ne_nil outer houter
          have hfollows := hs.follows t g (hframes ▸ List.mem_cons_of_mem _ hg)
          have hcallback := hnested g hg
          cases g with
          | callback found called itr =>
              have hlt := hfollows.2.1
              rw [List.isEmpty_iff.mp hempty] at hlt
              cases hlt
          | _ => cases hcallback
      | somebody => exact ⟨.invokeLock, rfl, rfl⟩
      | lockShared _ _ hheld =>
          rw [hfirst, hwaits] at hheld
          cases hheld
      | _ => cases hf
    · exact ⟨f, (Function.update_of_ne hv ..).trans hframes, hf⟩
  · by_cases hv : t = v
    · subst v
      rw [hframes] at hhead
      cases f with
      | callback _ _ _ => cases hf
      | _ => cases hhead
    · exact ⟨f, (Function.update_of_ne hv ..).trans hframes, hf⟩

/-! ### The condition is exact -/

/-- If no callback waits on its own event, nor before its lock behind a writer, there are only so
many steps until all calls under way have returned, whatever their order is; otherwise some call
never returns, whatever calls are made. -/
theorem returns_iff_clear (hC : C.Contained) (h : (system T C writersFirst).Reachable s) :
    (Clear writersFirst s → ∃ n, ∀ ts s', (calls writersFirst s).exec s ts = some s' →
      ts.length ≤ n ∧
        ((∀ t, next writersFirst s' (.run t) = none) → ∀ t, s'.frames t = [])) ∧
    (¬ Clear writersFirst s → ∃ t, ∀ s', (system T C writersFirst).LeadsTo s s' →
      s'.frames t ≠ []) := by
  have hs := sound_of_reachable h
  constructor
  · intro hc
    refine ⟨total (steps s.bound) s.frames, fun ts s' hexec => ⟨?_, fun hstop => ?_⟩⟩
    · refine length_le_of_measure (I := fun s' => Sound s' ∧ s'.bound ≤ s.bound)
        (μ := fun s' => total (steps s.bound) s'.frames) ?_ ⟨hs, le_rfl⟩ hexec
      rintro s₁ t s₂ ⟨hs₁, hbound⟩ (hnext : next writersFirst s₁ (.run t) = some s₂)
      obtain ⟨hbound', hlt⟩ := steps_lt hC hs₁ hbound hnext
      exact ⟨⟨hs₁.next hnext, hbound'⟩, hlt⟩
    · have hboth : Sound s' ∧ Clear writersFirst s' := by
        refine ReachedBy.invariant (I := fun s' => Sound s' ∧ Clear writersFirst s') ⟨hs, hc⟩ ?_
          (execWhile_reachedBy .start hexec)
        rintro s₁ t s₂ - ⟨hs₁, hc₁⟩ - (hnext : next writersFirst s₁ (.run t) = some s₂)
        exact ⟨hs₁.next hnext, hc₁.run hs₁ hnext⟩
      by_contra hsome
      push Not at hsome
      obtain ⟨t, s'', hnext⟩ := hboth.2.progress hboth.1 hsome
      rw [hstop t] at hnext
      cases hnext
  · intro hc
    obtain ⟨t, hstuck⟩ := not_clear_iff.mp hc
    refine ⟨t, fun s' hleads => ?_⟩
    obtain ⟨-, f, outer, hframes, -⟩ := hleads.keeps (I := fun s => Stuck writersFirst s t) h hstuck
      (fun _ _ _ hr hstuck _ hnext => hstuck.next (sound_of_reachable hr) hnext)
    rw [hframes]
    exact List.cons_ne_nil f outer

/-- A callback that unsubscribes itself. -/
theorem returns_iff_clear_unsubscribe :
    ∃ s : State (Fin 2) (orderedSet Unit), (system (Fin 2) (orderedSet Unit) false).Reachable s ∧
      ¬ Clear false s ∧ ∃ t, ∀ s', (system (Fin 2) (orderedSet Unit) false).LeadsTo s s' →
        s'.frames t ≠ [] := by
  have hrun : ((system (Fin 2) (orderedSet Unit) false).exec
      (system (Fin 2) (orderedSet Unit) false).start
      (.call 0 (.changeLock (.addFunction 5)) :: runs 0 3 ++ .call 0 .invokeTest :: runs 0 3 ++
        [.call 0 (.changeLock (.removeFunction 5))])).any (fun s =>
      (s.frames 0).head?.any Frame.waiting && (s.frames 0).length == 2) = true := by decide
  obtain ⟨s, hr, hs⟩ := exists_reachedBy_of_execWhile hrun
  rw [Bool.and_eq_true, beq_iff_eq] at hs
  obtain ⟨hwaiting, hlength⟩ := hs
  have hc : ¬ Clear false s := by
    obtain ⟨f, g, hframes⟩ := List.length_eq_two.mp hlength
    rw [hframes] at hwaiting
    exact not_clear_iff.mpr ⟨0, f, [g], hframes, List.cons_ne_nil g [], Or.inl hwaiting⟩
  exact ⟨s, hr, hc, (returns_iff_clear (SetContainer.ordered_contained _) hr).2 hc⟩

end SocketLib.EventCallbackThreads
