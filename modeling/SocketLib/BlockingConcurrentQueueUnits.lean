import SocketLib.BlockingConcurrentQueue

/-!
# Units and elements

Inside the queue a thread is in `inner` or in `sema` or in neither (`Placed`), so the two by
themselves run as they would alone (`inner_reachedBy`, `sema_reachable`). Whatever the threads do,
the elements in the queue are as many as the units that are available, in the hands of a call of the
semaphore, still to be dequeued for, or about to be signalled (`elements_cover_units`).
-/

namespace SocketLib.BlockingConcurrentQueue

open TransitionSystem ThreadFamily

variable {T P α : Type*}

/-- The elements that a call of `inner.try_dequeue_bulk` has moved the head past. -/
def held : ConcurrentQueue.Point P α → ℕ
  | .dequeueReturn batch | .nextProducer _ batch | .loadTail _ _ batch
  | .loadOvercommit _ _ batch _ | .loadCount _ _ batch _ _ | .addCount _ _ batch _ _
  | .reloadTail _ _ batch _ _ _ | .addSurplus _ _ batch _ _ | .claim _ _ batch _
  | .giveBack _ _ batch _ => batch.length
  | .take _ _ batch index stop => batch.length + (stop - index)
  | _ => 0

/-- A call of `inner.try_dequeue_bulk` for so many elements. -/
def Serves (room : ℕ) : ConcurrentQueue.Point P α → Prop
  | .dequeueReturn batch => batch.length ≤ room
  | .nextProducer max _ | .loadTail _ max _ | .loadOvercommit _ max _ _ | .loadCount _ max _ _ _
  | .addCount _ max _ _ _ | .reloadTail _ max _ _ _ _ | .addSurplus _ max _ _ _
  | .claim _ max _ _ | .take _ max _ _ _ | .giveBack _ max _ _ => max = room
  | _ => False

def published : ConcurrentQueue.Point P α → ℕ
  | .enqueueReturn true => 1
  | _ => 0

/-- The units that a call of `sema->signal` has not added to the counter yet. -/
def adds : LightweightSemaphore.Point → ℕ
  | .signalAdd count => count
  | _ => 0

def ofSignal : LightweightSemaphore.Point → Bool
  | .outside | .signalAdd _ | .signalPost _ => true
  | _ => false

/-- The elements of a thread that are in the queue, and whose unit is not signalled. -/
def Thread.pending (th : Thread P α) : ℕ := published th.inner + adds th.sema

/-- The elements a thread has units for and is still to dequeue. -/
def Thread.remaining (th : Thread P α) : ℕ := match th.point with
  | .dequeue max batch => max - (batch.length + held th.inner)
  | _ => 0

/-- Where a thread is in `inner` and in `sema` goes with where it is in the queue. -/
def Thread.Placed (th : Thread P α) : Prop := match th.point with
  | .outside | .returning _ => th.inner = .outside ∧ th.sema = .outside
  | .enqueue => th.inner.dequeuing = false ∧ th.sema = .outside
  | .signal => th.inner = .outside ∧ ofSignal th.sema = true
  | .wait => th.inner = .outside ∧ ofSignal th.sema = false
  | .dequeue max batch => batch.length ≤ max ∧ th.sema = .outside ∧
      (th.inner = .outside ∨ Serves (max - batch.length) th.inner)

section Parts

variable {subs subs' : P → ConcurrentQueue.Sub α} {x x' : ConcurrentQueue.Point P α}
  {maxSpins : ℕ} {m m' : LightweightSemaphore.Mem} {y y' : LightweightSemaphore.Point}
  {room : ℕ}

theorem held_le (hx : x.Fits) (h : Serves room x) : held x ≤ room := by
  cases x <;> simp only [Serves, held, ConcurrentQueue.Point.Fits] at * <;> omega

theorem inner_serves [DecidableEq P] (h : ConcurrentQueue.Moves subs x subs' x') (hx : x.Fits)
    (hroom : Serves room x) : Serves room x' := by
  cases h with
  | finish max batch =>
      obtain rfl : max = room := hroom
      exact hx
  | _ => exact hroom

/-- A step inside the queue moves the tails with what it publishes, and the heads with what it
holds. -/
theorem inner_totals [DecidableEq P] [Fintype P] (h : ConcurrentQueue.Moves subs x subs' x') :
    total ConcurrentQueue.Sub.tailIndex subs' + published x =
      total ConcurrentQueue.Sub.tailIndex subs + published x' ∧
    total ConcurrentQueue.Sub.headIndex subs' + held x =
      total ConcurrentQueue.Sub.headIndex subs + held x' := by
  cases h with
  | construct | add | addSurplus | giveBack =>
      exact ⟨congrArg (· + 0) (total_update_eq rfl), congrArg (· + _) (total_update_eq rfl)⟩
  | publish p z =>
      refine ⟨?_, congrArg (· + 0) (total_update_eq rfl)⟩
      have htail := total_update ConcurrentQueue.Sub.tailIndex subs p { subs p with
        tailIndex := (subs p).tailIndex + 1, enqueued := (subs p).enqueued ++ [z] }
      simp only [published] at htail ⊢
      omega
  | claim p max batch actual =>
      refine ⟨congrArg (· + 0) (total_update_eq rfl), ?_⟩
      have hhead := total_update ConcurrentQueue.Sub.headIndex subs p { subs p with
        headIndex := (subs p).headIndex + actual }
      simp only [held] at hhead ⊢
      omega
  | take p max batch index stop z hlt _ =>
      refine ⟨congrArg (· + 0) (total_update_eq rfl), ?_⟩
      have hhead : total ConcurrentQueue.Sub.headIndex (Function.update subs p { subs p with
          elements := Function.update (subs p).elements index none }) =
        total ConcurrentQueue.Sub.headIndex subs := total_update_eq rfl
      simp only [held, List.length_append, List.length_singleton] at hhead ⊢
      omega
  | leave p max batch index stop hge =>
      refine ⟨rfl, ?_⟩
      simp only [held]
      omega
  | _ => exact ⟨rfl, rfl⟩

theorem adds_spinNext (max : ℕ) (timeout : ℤ) (spin : ℕ) :
    adds (LightweightSemaphore.spinNext max timeout spin) = 0 ∧
      ofSignal (LightweightSemaphore.spinNext max timeout spin) = false := by
  cases spin <;> exact ⟨rfl, rfl⟩

theorem adds_returns (units : ℕ) (caller : LightweightSemaphore.Caller) :
    adds (caller.returns maxSpins units) = 0 ∧ ofSignal (caller.returns maxSpins units) = false := by
  cases caller with
  | waitMany max timeout =>
      rw [LightweightSemaphore.Caller.returns]
      split_ifs
      · exact adds_spinNext max timeout maxSpins
      · exact ⟨rfl, rfl⟩
  | _ => exact ⟨rfl, rfl⟩

theorem adds_tryTest (max : ℕ) (oldCount : ℤ) (caller : LightweightSemaphore.Caller) :
    adds (LightweightSemaphore.tryTest maxSpins max oldCount caller) = 0 ∧
      ofSignal (LightweightSemaphore.tryTest maxSpins max oldCount caller) = false := by
  rw [LightweightSemaphore.tryTest]
  split_ifs
  · exact ⟨rfl, rfl⟩
  · exact adds_returns 0 caller

theorem adds_waited (max : ℕ) :
    adds (LightweightSemaphore.waited max) = 0 ∧
      ofSignal (LightweightSemaphore.waited max) = false := by
  rw [LightweightSemaphore.waited]
  split_ifs <;> exact ⟨rfl, rfl⟩

/-- A step in the semaphore adds what it signals, and returns nothing. -/
theorem semaAct_adds {choice : LightweightSemaphore.Choice}
    (h : semaAct maxSpins m y choice = some (m', y')) :
    m'.signalled + adds y' = m.signalled + adds y ∧ m'.taken = m.taken ∧
      ofSignal y' = ofSignal y := by
  have hact : LightweightSemaphore.act maxSpins m y choice = some (m', y') ∧
      ∀ units, y ≠ .returning units := by
    cases y <;> first | exact ⟨h, nofun⟩ | cases h
  obtain ⟨hact, hret⟩ := hact
  have hquiet : ∀ {z : LightweightSemaphore.Point}, adds z = 0 ∧ ofSignal z = false →
      m.signalled + adds z = m.signalled + 0 ∧ m.taken = m.taken ∧ ofSignal z = false :=
    fun hz => ⟨congrArg (m.signalled + ·) hz.1, rfl, hz.2⟩
  clear h
  revert hact
  fun_cases LightweightSemaphore.act maxSpins m y choice
  all_goals
    simp only [Option.some.injEq, Prod.mk.injEq, reduceCtorEq, false_implies, and_imp]
    try rintro rfl rfl
  case case1 units => exact absurd rfl (hret units)
  -- tryWaitMany
  case case2 max caller => exact hquiet (adds_tryTest max m.count caller)
  case case3 max caller => exact hquiet (adds_returns _ caller)
  case case4 max oldCount caller _ | case5 max oldCount caller =>
    exact hquiet (adds_tryTest max m.count caller)
  -- waitManyWithPartialSpinning
  case case6 spin max timeout =>
    split_ifs
    · exact hquiet ⟨rfl, rfl⟩
    · exact hquiet (adds_spinNext max timeout spin)
  case case8 spin max timeout oldCount _ => exact hquiet (adds_spinNext max timeout spin)
  case case9 max timeout =>
    split_ifs
    · exact hquiet (adds_waited max)
    · exact hquiet ⟨rfl, rfl⟩
    · exact hquiet ⟨rfl, rfl⟩
  case case10 max timeout hsema | case14 max hsema => exact hquiet (adds_waited max)
  case case13 max => split_ifs <;> exact hquiet ⟨rfl, rfl⟩
  case case7 | case12 | case15 | case16 | case17 => exact hquiet ⟨rfl, rfl⟩
  -- signal
  case case18 | case19 | case20 | case21 => exact ⟨rfl, rfl, rfl⟩

end Parts

section Runs

variable [DecidableEq T] [DecidableEq P] [Fintype T] {maxSpins : ℕ} {s s' : State T P α} {t : T}
  {a : Label T P α} {m : LightweightSemaphore.Mem} {subs : P → ConcurrentQueue.Sub α}
  {th th' : Thread P α}

/-- What every thread keeps to. -/
def Thread.Sound (th : Thread P α) : Prop := th.Placed ∧ th.inner.Fits

omit [DecidableEq P] in
theorem Glues.sound {m m' : LightweightSemaphore.Mem} (h : Glues m th m' th') (hs : th.Sound) :
    th'.Sound := by
  cases h with
  | units units => exact ⟨⟨Nat.zero_le _, rfl, Or.inl rfl⟩, trivial⟩
  | again max batch h => exact ⟨⟨hs.1.1, rfl, Or.inr rfl⟩, Nat.zero_le _⟩
  | part max batch part =>
      obtain ⟨⟨hle, -, hinner⟩, -⟩ := hs
      have hpart : part.length ≤ max - batch.length := hinner.resolve_left nofun
      refine ⟨⟨?_, rfl, Or.inl rfl⟩, trivial⟩
      rw [List.length_append]
      omega
  | _ => exact ⟨⟨rfl, rfl⟩, trivial⟩

theorem Thread.Sound.inner {x' : ConcurrentQueue.Point P α} (hs : th.Sound)
    {subs' : P → ConcurrentQueue.Sub α} (h : ConcurrentQueue.Moves subs th.inner subs' x') :
    Thread.Sound { th with inner := x' } := by
  obtain ⟨point, x, y⟩ := th
  obtain ⟨hplaced, hfits⟩ := hs
  refine ⟨?_, h.fits hfits⟩
  have hout : x ≠ .outside := by
    rintro rfl
    cases h
  cases point with
  | enqueue =>
      refine ⟨?_, hplaced.2⟩
      by_contra hdequeuing
      have hold := h.dequeuing (by simpa using hdequeuing)
      rw [hplaced.1] at hold
      cases hold
  | dequeue max batch =>
      exact ⟨hplaced.1, hplaced.2.1,
        Or.inr (inner_serves h hfits (hplaced.2.2.resolve_left hout))⟩
  | _ => exact absurd hplaced.1 hout

omit [DecidableEq P] in
theorem Thread.Sound.sema {y' : LightweightSemaphore.Point}
    {m m' : LightweightSemaphore.Mem} {choice : LightweightSemaphore.Choice} (hs : th.Sound)
    (h : semaAct maxSpins m th.sema choice = some (m', y')) :
    Thread.Sound { th with sema := y' } := by
  obtain ⟨point, x, y⟩ := th
  obtain ⟨hplaced, hfits⟩ := hs
  refine ⟨?_, hfits⟩
  have hsignal := (semaAct_adds h).2.2
  have hout : y ≠ .outside := by
    rintro rfl
    cases h
  cases point with
  | signal | wait => exact ⟨hplaced.1, hsignal.trans hplaced.2⟩
  | dequeue max batch => exact absurd hplaced.2.1 hout
  | _ => exact absurd hplaced.2 hout

omit [DecidableEq T] [Fintype T] in
theorem Steps.sound (h : Steps maxSpins s t a m subs th) (hs : (s.threads t).Sound) : th.Sound := by
  cases h with
  | run m th h => exact h.sound hs
  | inner choice subs x h => exact hs.inner (ConcurrentQueue.moves_of_act h)
  | sema choice m y h => exact hs.sema h
  | _ => exact ⟨⟨rfl, rfl⟩, trivial⟩

theorem sound_of_reachable (h : (system T P α maxSpins).Reachable s) :
    ∀ t, (s.threads t).Sound := by
  refine h.invariant (I := fun s => ∀ t, (s.threads t).Sound) ?_ (fun s a s' _ hs _ hnext => ?_)
  · exact fun _ => ⟨⟨rfl, rfl⟩, trivial⟩
  · obtain ⟨t, m, subs, th, rfl, hsteps⟩ := steps_of_next maxSpins hnext
    intro u
    by_cases hu : u = t
    · subst u
      rw [setThread_self]
      exact hsteps.sound (hs t)
    · rw [setThread_ne _ _ _ _ hu]
      exact hs u

/-! ### The queue and the semaphore by themselves -/

def InRange (s : State T P α) : Label T P α → Prop
  | .inner t choice => ConcurrentQueue.InRange s.inner (.run t choice)
  | _ => True

instance (s : State T P α) : (a : Label T P α) → Decidable (InRange s a)
  | .inner t choice =>
      inferInstanceAs (Decidable (ConcurrentQueue.InRange s.inner (.run t choice)))
  | .enqueue _ _ _ => instDecidableTrue
  | .tryDequeueBulk _ _ => instDecidableTrue
  | .waitDequeueBulkTimed _ _ _ => instDecidableTrue
  | .run _ => instDecidableTrue
  | .sema _ _ => instDecidableTrue

omit [DecidableEq P] [Fintype T] in
theorem inner_eq (h : th.inner = (s.threads t).inner) :
    (s.setThread t m s.subs th).inner = s.inner := by
  have hself : Function.update s.inner.points t (s.inner.points t) = s.inner.points :=
    Function.update_eq_self ..
  rw [setThread_inner, ConcurrentQueue.State.setPoint, h]
  exact congrArg _ hself

omit [DecidableEq P] [Fintype T] in
theorem sema_eq (h : th.sema = (s.threads t).sema) :
    (s.setThread t s.mem subs th).sema = s.sema := by
  have hself : Function.update s.sema.points t (s.sema.points t) = s.sema.points :=
    Function.update_eq_self ..
  rw [setThread_sema, LightweightSemaphore.State.setPoint, h]
  exact congrArg _ hself

/-- A call of `inner`, or the return from one. -/
theorem inner_enters {b : ConcurrentQueue.Label T P α} (hb : b.thread = t)
    (hrun : ∀ u choice, b ≠ .run u choice)
    (henter : ConcurrentQueue.enter s.inner b (s.threads t).inner = some th.inner) :
    ConcurrentQueue.next s.inner b = some (s.setThread t m s.subs th).inner := by
  have hnext : ConcurrentQueue.next s.inner b =
      (ConcurrentQueue.enter s.inner b (s.threads t).inner).map (s.inner.setPoint t s.subs) := by
    subst t
    cases b with
    | run u choice => exact absurd rfl (hrun u choice)
    | _ => rfl
  rw [hnext, henter, setThread_inner]
  rfl

/-- What a step is in the inner queue. -/
theorem Steps.next_inner (h : Steps maxSpins s t a m subs th) (hs : (s.threads t).Sound)
    (hrange : InRange s a) :
    (s.setThread t m subs th).inner = s.inner ∨
      ∃ b, ConcurrentQueue.InRange s.inner b ∧
        ConcurrentQueue.next s.inner b = some (s.setThread t m subs th).inner := by
  cases h with
  | enqueue p x hout hfree =>
      refine Or.inr ⟨.enqueue t p x, trivial, inner_enters rfl (by simp) ?_⟩
      rw [hout]
      exact if_pos hfree
  | tryDequeueBulk max hout | waitDequeueBulkTimed max timeout hout =>
      exact Or.inl (inner_eq (congrArg Thread.inner hout).symm)
  | sema choice m y h => exact Or.inl (inner_eq rfl)
  | inner choice subs x h =>
      refine Or.inr ⟨.run t choice, hrange, ?_⟩
      rw [setThread_inner, ConcurrentQueue.next]
      change (ConcurrentQueue.act s.subs (s.threads t).inner choice).map _ = _
      rw [h]
      rfl
  | run m th h =>
      have hret : ∀ th' : Thread P α, ConcurrentQueue.enter s.inner (.ret t) (s.threads t).inner =
          some th'.inner → ∃ b, ConcurrentQueue.InRange s.inner b ∧
            ConcurrentQueue.next s.inner b = some (s.setThread t m s.subs th').inner :=
        fun th' henter => ⟨.ret t, trivial, inner_enters rfl (by simp) henter⟩
      cases hth : s.threads t with
      | mk point x y =>
      rw [hth] at h hs
      cases h with
      | signal | refused | part max batch part =>
          refine Or.inr (hret _ ?_)
          rw [hth]
          rfl
      | again max batch hne =>
          have hle : batch.length ≤ max := hs.1.1
          refine Or.inr ⟨.tryDequeueBulk t (max - batch.length), trivial,
            inner_enters rfl (by simp) ?_⟩
          rw [hth]
          exact if_pos (by omega)
      | _ => exact Or.inl (inner_eq (congrArg Thread.inner hth).symm)

omit [DecidableEq P] [Fintype T] in
theorem sema_calls (op : LightweightSemaphore.Op) (hout : (s.threads t).sema = .outside)
    (hentry : th.sema = op.entry) :
    LightweightSemaphore.next maxSpins s.sema (.call t op) =
      some (s.setThread t s.mem subs th).sema := by
  rw [setThread_sema, hentry]
  exact if_pos hout

omit [Fintype T] in
/-- What a step is in the semaphore. -/
theorem Steps.next_sema (h : Steps maxSpins s t a m subs th) :
    (s.setThread t m subs th).sema = s.sema ∨
      ∃ b, LightweightSemaphore.next maxSpins s.sema b = some (s.setThread t m subs th).sema := by
  cases h with
  | enqueue p x hout hfree =>
      exact Or.inl (sema_eq (congrArg Thread.sema hout).symm)
  | tryDequeueBulk max hout =>
      exact Or.inr ⟨_, sema_calls (.tryWaitMany max) (congrArg Thread.sema hout) rfl⟩
  | waitDequeueBulkTimed max timeout hout =>
      exact Or.inr ⟨_, sema_calls (.waitMany max timeout) (congrArg Thread.sema hout) rfl⟩
  | inner choice subs x h => exact Or.inl (sema_eq rfl)
  | sema choice m y h =>
      refine Or.inr ⟨.run t choice, ?_⟩
      have hact : LightweightSemaphore.act maxSpins s.mem (s.threads t).sema choice =
          some (m, y) := by
        cases hy : (s.threads t).sema <;> rw [hy] at h <;> first | exact h | cases h
      rw [setThread_sema, LightweightSemaphore.next]
      change (LightweightSemaphore.act maxSpins s.mem (s.threads t).sema choice).map _ = _
      rw [hact]
      rfl
  | run m th h =>
      cases hth : s.threads t with
      | mk point x y =>
      rw [hth] at h
      cases h with
      | signal => exact Or.inr ⟨_, sema_calls (.signal 1) (congrArg Thread.sema hth) rfl⟩
      | units units =>
          refine Or.inr ⟨.run t .go, ?_⟩
          rw [setThread_sema, LightweightSemaphore.next]
          change (LightweightSemaphore.act maxSpins s.mem (s.threads t).sema .go).map _ = _
          rw [hth]
          rfl
      | _ => exact Or.inl (sema_eq (congrArg Thread.sema hth).symm)

theorem sema_reachable (h : (system T P α maxSpins).Reachable s) :
    (LightweightSemaphore.system T maxSpins).Reachable s.sema := by
  have hstart : (system T P α maxSpins).start.sema =
      (LightweightSemaphore.system T maxSpins).start := rfl
  refine Reachable.map (f := State.sema) h hstart (fun s a s' hnext => ?_)
  obtain ⟨t, m, subs, th, rfl, hsteps⟩ := steps_of_next maxSpins hnext
  exact hsteps.next_sema

theorem inner_reachedBy (h : (system T P α maxSpins).ReachedBy InRange s) :
    (ConcurrentQueue.system T P α).ReachedBy ConcurrentQueue.InRange s.inner := by
  have hstart : (system T P α maxSpins).start.inner = (ConcurrentQueue.system T P α).start := rfl
  refine ReachedBy.map (f := State.inner) h hstart (fun s a s' hr hrange hnext => ?_)
  obtain ⟨t, m, subs, th, rfl, hsteps⟩ := steps_of_next maxSpins hnext
  exact hsteps.next_inner (sound_of_reachable hr.reachable t) hrange

/-! ### The account -/

variable [Fintype P]

structure Account (s : State T P α) : Prop where
  published : total ConcurrentQueue.Sub.tailIndex s.subs =
    s.mem.signalled + total Thread.pending s.threads
  dequeued : total ConcurrentQueue.Sub.headIndex s.subs + total Thread.remaining s.threads =
    s.mem.taken

omit [DecidableEq T] [DecidableEq P] [Fintype T] [Fintype P] in
theorem held_of_not_dequeuing {x : ConcurrentQueue.Point P α} (h : x.dequeuing = false) :
    held x = 0 := by
  cases x <;> first | rfl | cases h

omit [DecidableEq T] [DecidableEq P] [Fintype T] [Fintype P] in
theorem Thread.Sound.held_le (hs : th.Sound) {max : ℕ} {batch : List (P × α)}
    (hx : th.point = .dequeue max batch) : batch.length + held th.inner ≤ max := by
  obtain ⟨point, x, y⟩ := th
  obtain rfl : point = .dequeue max batch := hx
  obtain ⟨⟨hle, -, hinner⟩, hfits⟩ := hs
  rcases hinner with hout | hserves
  · obtain rfl : x = .outside := hout
    exact hle
  · have hheld : held x ≤ max - batch.length := BlockingConcurrentQueue.held_le hfits hserves
    change batch.length + held x ≤ max
    omega

omit [DecidableEq P] [Fintype P] in
theorem Glues.account {m m' : LightweightSemaphore.Mem} (h : Glues m th m' th') :
    m'.signalled + th'.pending = m.signalled + th.pending ∧
      th'.remaining + m.taken = th.remaining + m'.taken := by
  cases h with
  | units units =>
      refine ⟨rfl, ?_⟩
      simp only [Thread.remaining, held, List.length_nil]
      omega
  | full max batch h =>
      refine ⟨rfl, ?_⟩
      simp only [Thread.remaining, held]
      omega
  | part max batch part =>
      refine ⟨rfl, ?_⟩
      simp only [Thread.remaining, held, List.length_append]
      omega
  | _ => exact ⟨rfl, rfl⟩

/-- A step inside the queue leaves as much less to dequeue as it moves the heads. -/
theorem inner_remaining {x' : ConcurrentQueue.Point P α} (hs : th.Sound)
    {subs subs' : P → ConcurrentQueue.Sub α}
    (h : ConcurrentQueue.Moves subs th.inner subs' x') :
    total ConcurrentQueue.Sub.headIndex subs' + Thread.remaining { th with inner := x' } =
      total ConcurrentQueue.Sub.headIndex subs + th.remaining := by
  have hs' := hs.inner h
  have hheads := (inner_totals h).2
  obtain ⟨point, x, y⟩ := th
  change _ + held x = _ at hheads
  have hsame : held x = 0 → held x' = 0 → total ConcurrentQueue.Sub.headIndex subs' + 0 =
      total ConcurrentQueue.Sub.headIndex subs + 0 := by
    intro hx hx'
    rwa [hx, hx'] at hheads
  cases point with
  | dequeue max batch =>
      have hle := hs.held_le rfl
      have hle' := hs'.held_le rfl
      simp only [Thread.remaining] at hle hle' ⊢
      omega
  | enqueue =>
      exact hsame (held_of_not_dequeuing hs.1.1) (held_of_not_dequeuing hs'.1.1)
  | _ =>
      obtain rfl : x = .outside := hs.1.1
      obtain rfl : x' = .outside := hs'.1.1
      exact hsame rfl rfl

omit [DecidableEq T] [Fintype T] in
theorem Steps.account (h : Steps maxSpins s t a m subs th) (hs : (s.threads t).Sound) :
    total ConcurrentQueue.Sub.tailIndex subs + s.mem.signalled + (s.threads t).pending =
      total ConcurrentQueue.Sub.tailIndex s.subs + m.signalled + th.pending ∧
    total ConcurrentQueue.Sub.headIndex subs + th.remaining + s.mem.taken =
      total ConcurrentQueue.Sub.headIndex s.subs + (s.threads t).remaining + m.taken := by
  cases h with
  | run m th h =>
      have haccount := h.account
      omega
  | inner choice subs x h =>
      have hmoves := ConcurrentQueue.moves_of_act h
      have htails := (inner_totals hmoves).1
      have hheads := inner_remaining hs hmoves
      simp only [Thread.pending] at *
      omega
  | sema choice m y h =>
      obtain ⟨hadds, htaken, -⟩ := semaAct_adds h
      have hremaining : Thread.remaining { s.threads t with sema := y } =
        (s.threads t).remaining := rfl
      simp only [Thread.pending] at *
      omega
  | enqueue p x hout _ | tryDequeueBulk max hout | waitDequeueBulkTimed max timeout hout =>
      rw [hout]
      exact ⟨rfl, rfl⟩

theorem Account.setThread (ha : Account s) (hs : (s.threads t).Sound)
    (h : Steps maxSpins s t a m subs th) : Account (s.setThread t m subs th) := by
  obtain ⟨hpublished, hdequeued⟩ := ha
  obtain ⟨htails, hheads⟩ := h.account hs
  have hpending := total_update Thread.pending s.threads t th
  have hremaining := total_update Thread.remaining s.threads t th
  constructor
  · change total ConcurrentQueue.Sub.tailIndex subs =
      m.signalled + total Thread.pending (Function.update s.threads t th)
    omega
  · change total ConcurrentQueue.Sub.headIndex subs +
      total Thread.remaining (Function.update s.threads t th) = m.taken
    omega

theorem account_of_reachable (h : (system T P α maxSpins).Reachable s) : Account s := by
  refine h.invariant (I := Account) ?_ (fun s a s' hr ha _ hnext => ?_)
  · exact ⟨by simp [system, initial, total, Thread.pending, Thread.outside, published, adds],
      by simp [system, initial, total, Thread.remaining, Thread.outside]⟩
  · obtain ⟨t, m, subs, th, rfl, hsteps⟩ := steps_of_next maxSpins hnext
    exact ha.setThread (sound_of_reachable hr t) hsteps

theorem sum_waiting (h : (system T P α maxSpins).ReachedBy InRange s) :
    ∑ p, (s.inner.bulk.waiting p).length + total ConcurrentQueue.Sub.headIndex s.subs =
      total ConcurrentQueue.Sub.tailIndex s.subs := by
  have hinner := inner_reachedBy h
  have hone : ∀ p, (s.inner.bulk.waiting p).length + (s.subs p).headIndex =
      (s.subs p).tailIndex := by
    intro p
    have hlength : (s.subs p).enqueued.length = (s.subs p).tailIndex :=
      (ConcurrentQueue.stored_of_reachedBy hinner).length p
    have hle : (s.subs p).headIndex ≤ (s.subs p).tailIndex :=
      ConcurrentQueue.head_le_tail hinner p
    change ((s.subs p).enqueued.drop (s.subs p).headIndex).length + _ = _
    rw [List.length_drop]
    omega
  calc ∑ p, (s.inner.bulk.waiting p).length + ∑ p, (s.subs p).headIndex
      = ∑ p, ((s.inner.bulk.waiting p).length + (s.subs p).headIndex) :=
        Finset.sum_add_distrib.symm
    _ = ∑ p, (s.subs p).tailIndex := Finset.sum_congr rfl (fun p _ => hone p)

/-- The elements waiting in the queue are as many as the units that are available or in the hands of
a call of the semaphore, those that a thread is still to dequeue for, and those that an enqueue is
still to signal. -/
theorem waiting_eq (h : (system T P α maxSpins).ReachedBy InRange s) :
    ∑ p, (s.inner.bulk.waiting p).length = s.sema.available + s.sema.inHand +
      total Thread.remaining s.threads + total Thread.pending s.threads := by
  have hsum := sum_waiting h
  have haccount := account_of_reachable h.reachable
  have hpublished := haccount.published
  have hdequeued := haccount.dequeued
  have hunits : s.mem.signalled = s.mem.taken + s.sema.inHand + s.sema.available :=
    (LightweightSemaphore.account_of_reachable (sema_reachable h.reachable)).signalled_eq
  omega

omit [DecidableEq T] [DecidableEq P] [Fintype P] in
theorem outside_totals (h : ∀ t, s.threads t = .outside) :
    s.sema.waiting = 0 ∧ s.sema.inHand = 0 ∧ total Thread.remaining s.threads = 0 ∧
      total Thread.pending s.threads = 0 := by
  have hzero : ∀ w : Thread P α → ℕ, w .outside = 0 → total w s.threads = 0 := by
    intro w hw
    apply Finset.sum_eq_zero
    intro t _
    rw [h t, hw]
  exact ⟨hzero (fun th => th.sema.waits) rfl, hzero (fun th => th.sema.hand) rfl, hzero _ rfl,
    hzero _ rfl⟩

/-- `size_approx` never says more than there are elements, and with no call under way it says how
many there are. -/
theorem elements_cover_units (h : (system T P α maxSpins).ReachedBy InRange s) :
    (∑ p, (s.inner.bulk.waiting p).length = s.sema.available + s.sema.inHand +
      total Thread.remaining s.threads + total Thread.pending s.threads) ∧
    s.sizeApprox ≤ ∑ p, (s.inner.bulk.waiting p).length ∧
    ((∀ t, s.threads t = .outside) →
      s.sizeApprox = ∑ p, (s.inner.bulk.waiting p).length) := by
  have hwaiting := waiting_eq h
  have hsize : s.sema.available = s.sizeApprox + s.mem.sema + s.sema.posts := rfl
  refine ⟨hwaiting, by omega, fun hout => ?_⟩
  obtain ⟨hasleep, hhand, hremaining, hpending⟩ := outside_totals hout
  have hreleased : s.mem.sema + s.sema.posts = min s.sema.available s.sema.waiting :=
    (LightweightSemaphore.account_of_reachable (sema_reachable h.reachable)).released_eq
  omega

end Runs

/-! ### Two elements, a thread in the middle of a dequeue, and another with a unit in hand -/

def twoConsumers (t u v : T) (p : P) : List (Label T P ℕ) :=
  [.enqueue t p 7, .inner t (.block true), .inner t .go, .inner t .go, .run t, .sema t .go,
    .sema t .go, .run t, .enqueue t p 8, .inner t .go, .inner t .go, .inner t .go, .run t,
    .sema t .go, .sema t .go, .run t, .waitDequeueBulkTimed v 1 100000, .sema v .go, .sema v .go,
    .run v, .run v, .inner v (.visit p), .inner v .go, .inner v .go, .inner v .go, .inner v .go,
    .waitDequeueBulkTimed u 1 100000, .sema u .go, .sema u .go, .run u]

theorem elements_cover_units_twoConsumers :
    ∃ s, (system (Fin 3) (Fin 2) ℕ 0).ReachedBy InRange s ∧ s.sema.available = 0 ∧
      ∑ p, (s.inner.bulk.waiting p).length = s.sema.available + s.sema.inHand +
        total Thread.remaining s.threads + total Thread.pending s.threads ∧
      total Thread.remaining s.threads = 2 := by
  have hrun : ((system (Fin 3) (Fin 2) ℕ 0).execWhile InRange (system (Fin 3) (Fin 2) ℕ 0).start
      (twoConsumers 0 1 2 0)).any (fun s => s.sema.available = 0 ∧
        total Thread.remaining s.threads = 2) = true := by decide
  obtain ⟨s, hr, hs⟩ := exists_reachedBy_of_execWhile hrun
  rw [decide_eq_true_eq] at hs
  exact ⟨s, hr, hs.1, (elements_cover_units hr).1, hs.2⟩

end SocketLib.BlockingConcurrentQueue
