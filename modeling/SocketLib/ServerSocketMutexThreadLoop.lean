import SocketLib.ServerSocketMutex
import SocketLib.ServerSocketThreadLoop

/-!
# One pass of `threadLoop` over the mutex of the server

What the pass does to the map and to the channels is what `ServerSocket.Pass` says, and between two
steps in the server the thread is in a call of the mutex, whose steps are bounded (`waiting`) as
long as `lock` does not have to wait. A thread that does have to wait there is never notified, and
its pass has no end (`asleep_stays`).
-/

namespace SocketLib.ServerSocketMutex

open ExclusivePrioritySharedMutex (Access Pc Thread FastAddClear WriterPasses Own setThread_self
  setThread_ne next_run next_notify notifies_cases wake_cases)
open ServerCallbacks (callMutex acquiring)
open ServerSocket (Entry Pass PassPoint Point Role SameMap Swept)

section Rules

variable {T : Type*} [DecidableEq T]

/-- The step is one of the thread, in the server or in the mutex. -/
def stepOf (t : T) (_ : State T) : Label T → Bool
  | .server (.thread u _) | .enter u | .mutex (.run u) | .mutex (.notify u _) => u = t
  | _ => false

variable [Fintype T]

/-- The thread can take a step. -/
def CanStep (registered : Bool) (t : T) (s : State T) : Prop :=
  ∃ a s', stepOf t s a ∧ next registered s a = some s'

/-- The thread does not leave its pass, and nothing but the pass changes the map or its flags. -/
structure OnlySweeps (registered : Bool) (t : T) (s : State T) (a : Label T) : Prop where
  inside : ∀ choice, a = .server (.thread t choice) → (s.server.points t).inThreadLoop
  others : (∀ choice, a ≠ .server (.thread t choice)) → ∀ s', next registered s a = some s' →
    SameMap s.server.mem s'.server.mem

/-- No fast-path increment is made beside a writer, and the thread does not have to wait in
`lock`. -/
def LockServes (t : T) (s : State T) (a : Label T) : Prop :=
  Apart s a ∧ (stepOf t s a → OnMutex WriterPasses s a)

/-- What the steps of a pass keep to. -/
def Rule (registered : Bool) (t : T) (s : State T) (a : Label T) : Prop :=
  OnlySweeps registered t s a ∧ LockServes t s a

end Rules

/-! ### Between two steps in the server -/

/-- How many steps the thread takes at most before its next one in the server. -/
def waiting (p : Point) (th : Thread) : ℕ :=
  if asks p ≠ none ∧ th = ⟨[], .outside⟩ then 8 else th.pc.callRank

theorem waiting_le (p : Point) (th : Thread) : waiting p th ≤ 8 := by
  unfold waiting
  split_ifs
  · exact le_rfl
  · cases th.pc <;> simp [Pc.callRank]

theorem waiting_of_pc {p : Point} {th : Thread} (h : th.pc ≠ .outside) :
    waiting p th = th.pc.callRank := by
  refine if_neg fun hth => h ?_
  rw [hth.2]

/-- The thread is in no call, or in one that is bound to end. -/
def Calls (th : Thread) : Prop := th.pc = .outside ∨ 0 < th.pc.callRank

theorem Calls.awake {th : Thread} (h : Calls th) : th.pc.sleeps = false := by
  rcases h with h | h
  · rw [h]
    rfl
  · cases hpc : th.pc <;> simp_all [Pc.callRank, Pc.sleeps]

/-- A thread inside the mutex at a point that asks for access is about to get it. -/
theorem Linked.inside {p : Point} {th : Thread} {a : Access} (h : Linked p th)
    (hpc : th.pc ≠ .outside) (hasks : asks p = some a) :
    th.held = [] ∧ acquiring th.pc = some a := by
  cases haccess : access p with
  | some b => exact absurd (by rw [h.of_access haccess]) hpc
  | none =>
      simp only [Linked, haccess, hasks] at h
      rcases h with hth | hth | hth
      · exact absurd (by rw [hth]) hpc
      · exact absurd (by rw [hth]) hpc
      · exact hth

/-- Outside the mutex, and without the access it asks for, a thread has none. -/
theorem Linked.outside {p : Point} {th : Thread} {a : Access} (h : Linked p th)
    (hpc : th.pc = .outside) (hasks : asks p = some a) (hnot : a ∉ th.held) :
    th = ⟨[], .outside⟩ := by
  have haccess : access p = none := by
    by_contra haccess
    obtain ⟨b, hb⟩ := Option.ne_none_iff_exists'.mp haccess
    rw [asks_of_access hb] at hasks
    cases hasks
  simp only [Linked, haccess, hasks] at h
  rcases h with hth | hth | ⟨-, hacquiring⟩
  · rw [hth] at hnot
    exact absurd (List.mem_singleton_self a) hnot
  · exact hth
  · rw [hpc] at hacquiring
    cases hacquiring

section Calls

variable {T : Type*} [DecidableEq T] [Fintype T] {m m' : ExclusivePrioritySharedMutex.State T}
  {t : T} {p : Point}

/-- A call that the thread begins from the server is bound to end, unless it is one of
`lock_shared`. -/
theorem calls_of_callMutex {op : Option ExclusivePrioritySharedMutex.Op}
    (h : callMutex m t op = some m') (hop : op ≠ some .lockShared) : Calls (m'.threads t) := by
  cases op with
  | none =>
      obtain ⟨hpc, rfl⟩ := ServerCallbacks.callMutex_none h
      exact Or.inl hpc
  | some op =>
      obtain ⟨th', hbegin, rfl⟩ := ServerCallbacks.callMutex_some h
      rw [setThread_self]
      right
      obtain ⟨-, ⟨rfl, -⟩ | ⟨-, rfl⟩ | ⟨-, -, hpc⟩ | ⟨-, -, hpc⟩⟩ :=
        ExclusivePrioritySharedMutex.begin_cases hbegin
      · exact absurd rfl hop
      · exact Nat.succ_pos _
      · rw [hpc]
        exact Nat.succ_pos _
      · rw [hpc]
        exact Nat.succ_pos _

/-- Inside the mutex a step of the thread brings it closer to its next one in the server. -/
theorem Calls.own {b : ExclusivePrioritySharedMutex.Label T} (h : Calls (m.threads t))
    (hl : Linked p (m.threads t)) (hown : Own t b)
    (hpasses : b = .run t → WriterPasses m (.run t))
    (hs : ExclusivePrioritySharedMutex.next m b = some m') :
    Calls (m'.threads t) ∧ waiting p (m'.threads t) < waiting p (m.threads t) := by
  cases b with
  | run u =>
      obtain rfl : u = t := hown
      obtain ⟨hshared, hcount⟩ := hpasses rfl
      have hsettles := ServerCallbacks.next_settles (by simp) hs u
      obtain ⟨mem', th', hadv, rfl⟩ := next_run hs
      have hpc : (m.threads u).pc ≠ .outside := by
        intro hpc
        simp only [ExclusivePrioritySharedMutex.advance, hpc, reduceCtorEq] at hadv
      obtain ⟨hlt, hend⟩ := ExclusivePrioritySharedMutex.advance_callRank hadv
        (h.resolve_left hpc) hshared hcount
      simp only [setThread_self] at hsettles ⊢
      refine ⟨hend.symm, ?_⟩
      rw [waiting_of_pc hpc]
      by_cases hthere : asks p ≠ none ∧ th' = ⟨[], .outside⟩
      · -- a thread at a point that asks for access does not leave the mutex empty-handed
        obtain ⟨hasks, rfl⟩ := hthere
        obtain ⟨a, ha⟩ := Option.ne_none_iff_exists'.mp hasks
        cases hsettles with
        | goesOn hp hh =>
            have hinside := hp.trans (hl.inside hpc ha).2
            cases hinside
        | returns a hp hp' hh => cases hh
      · rw [waiting, if_neg hthere]
        exact hlt
  | notify u woken =>
      obtain rfl : u = t := hown
      obtain ⟨cv, pc, hn, hw⟩ := next_notify hs
      have hself : m'.threads u = (m.threads u).goto pc := by
        rcases wake_cases hw with ⟨v, -, hv, rfl⟩ | ⟨-, -, rfl⟩
        · have huv : u ≠ v := by
            rintro rfl
            rw [setThread_self] at hv
            rcases notifies_cases hn with ⟨-, rfl⟩ | ⟨-, rfl⟩ <;> cases cv <;> cases hv
          rw [setThread_ne _ _ huv, setThread_self]
        · exact setThread_self ..
      rw [hself]
      rcases notifies_cases hn with ⟨hpc, rfl⟩ | ⟨hpc, rfl⟩
      all_goals
        refine ⟨Or.inr Nat.one_pos, ?_⟩
        rw [waiting_of_pc (by simp [Thread.goto]), waiting_of_pc (by simp [hpc]), hpc]
        exact Nat.one_lt_two
  | _ => exact hown.elim

end Calls

/-! ### The pass -/

section Pass

variable {T : Type*} {registered : Bool} {active : Entry → Bool} {all : List Entry} {t : T} {n : ℕ}

/-- The thread has begun its pass with the entries `all`, and takes at most `n` more steps. -/
structure InPass (registered : Bool) (active : Entry → Bool) (all : List Entry) (t : T) (n : ℕ)
    (s : State T) : Prop where
  pass : ∃ k, Pass registered active all t k s.server ∧
    9 * k + waiting (s.server.points t) (s.lock.threads t) = n
  calls : Calls (s.lock.threads t)

variable {s s' : State T}

theorem InPass.asks_ne_shared (h : InPass registered active all t n s) :
    asks (s.server.points t) ≠ some .shared := by
  obtain ⟨⟨k, ⟨done, closed, todo, -, hp⟩, -⟩, -⟩ := h
  cases hpt : s.server.points t with
  | loopAcquire loop =>
      rw [hpt] at hp
      cases hp
  | _ => simp [asks, Point.asksExclusive, Point.asksShared]

theorem InPass.notThrown (h : InPass registered active all t n s) (caller : ServerSocket.Caller) :
    s.server.points t ≠ .closeThrow caller := by
  obtain ⟨⟨k, ⟨done, closed, todo, -, hp⟩, -⟩, -⟩ := h
  intro hthrow
  rw [hthrow] at hp
  cases hp

theorem InPass.inThreadLoop (h : InPass registered active all t n s)
    (hne : s.server.points t ≠ .accept) : (s.server.points t).inThreadLoop := by
  obtain ⟨⟨k, ⟨done, closed, todo, -, hp⟩, -⟩, -⟩ := h
  exact hp.inThreadLoop hne

variable [DecidableEq T] [Fintype T] {role : T → Role} {a : Label T}

/-- A step of another thread that leaves the map alone is none of the pass's business. -/
theorem InPass.other (h : InPass registered active all t n s)
    (hr : (system role registered).ReachedBy Apart s) {b : ServerSocket.Label T}
    (hs : ServerSocket.next registered s.server b = some s'.server)
    (hmap : SameMap s.server.mem s'.server.mem)
    (hpoint : s'.server.points t = s.server.points t)
    (hthread : s'.lock.threads t = s.lock.threads t) : InPass registered active all t n s' := by
  obtain ⟨⟨k, hpass, hk⟩, hcalls⟩ := h
  refine ⟨⟨k, hpass.other (server_reachable hr) hs hmap hpoint, ?_⟩, hthread ▸ hcalls⟩
  rw [hpoint, hthread, hk]

/-- A thread in its pass that calls for access calls `lock`. -/
theorem InPass.enters (h : InPass registered active all t n s) {a : Access}
    {lock' : ExclusivePrioritySharedMutex.State T} (hasks : asks (s.server.points t) = some a)
    (hheld : (s.lock.threads t).held = [])
    (hcall : callMutex s.lock t (some (ServerCallbacks.lockOp a)) = some lock') :
    ∃ n', InPass registered active all t n' ⟨s.server, lock'⟩ ∧ n' < n := by
  have hth : s.lock.threads t = ⟨[], .outside⟩ := by
    rw [← hheld, ← ServerCallbacks.callMutex_outside hcall]
  cases a with
  | shared => exact absurd hasks h.asks_ne_shared
  | exclusive =>
      obtain ⟨⟨k, hpass, rfl⟩, -⟩ := h
      have hpc : (lock'.threads t).pc = .lockAddRequest := by
        obtain ⟨th', hbegin, rfl⟩ := ServerCallbacks.callMutex_some hcall
        rw [hth] at hbegin
        obtain rfl := Option.some.inj hbegin
        rw [setThread_self]
        rfl
      have hbefore : waiting (s.server.points t) (s.lock.threads t) = 8 :=
        if_pos ⟨by rw [hasks]; exact Option.some_ne_none _, hth⟩
      have hafter : waiting (s.server.points t) (lock'.threads t) = 7 := by
        rw [waiting_of_pc (by simp [hpc]), hpc]
        rfl
      refine ⟨_, ⟨⟨k, hpass, rfl⟩, Or.inr (by rw [hpc]; exact Nat.succ_pos _)⟩, ?_⟩
      dsimp only
      omega

/-- A step within the rule leaves the thread in its pass, with one step less to go if it is the
thread's. -/
theorem InPass.keeps (h : InPass registered active all t n s)
    (hr : (system role registered).ReachedBy Apart s) (hrule : Rule registered t s a)
    (hs : next registered s a = some s') :
    ∃ n', InPass registered active all t n' s' ∧ (stepOf t s a).toNat + n' ≤ n := by
  obtain ⟨honly, -, hserves⟩ := hrule
  cases next_step hs with
  | serve u choice m' p' lock' hgoes hact hcall =>
      have hnext := serve_next hr hgoes hact
      by_cases hu : u = t
      · subst u
        obtain ⟨⟨k, hpass, rfl⟩, -⟩ := h
        obtain ⟨⟨k', hpass', hk⟩, -⟩ :=
          hpass.step (server_reachable hr) (honly.inside choice rfl) hnext
        have hcalls : Calls (lock'.threads t) := by
          apply calls_of_callMutex hcall
          unfold gives
          split
          · rename_i a _ _
            cases a <;> simp [ServerCallbacks.unlockOp]
          · simp
        refine ⟨_, ⟨⟨k', hpass', rfl⟩, hcalls⟩, ?_⟩
        have hle := waiting_le (Function.update s.server.points t p' t) (lock'.threads t)
        simp only [stepOf, decide_true, Bool.toNat_true]
        omega
      · have hne : t ≠ u := Ne.symm hu
        refine ⟨n, h.other hr hnext (honly.others ?_ _ hs) (Function.update_of_ne hne ..)
          (ServerCallbacks.callMutex_threads_ne hcall hne), ?_⟩
        · rintro choice' ⟨⟩
          exact hu rfl
        · simp [stepOf, hu]
  | outside b server' hb hnext =>
      have hpoints : server'.points = s.server.points := by
        rcases ServerSocket.next_cases hnext with ⟨u, choice, -, -, rfl, -⟩ | ⟨-, -, hpoints⟩
        · exact absurd rfl (hb u choice)
        · exact hpoints
      refine ⟨n, h.other hr hnext (honly.others ?_ _ hs) (congrFun hpoints t) rfl, ?_⟩
      · rintro choice ⟨⟩
        exact hb t choice rfl
      · cases b with
        | thread u choice => exact absurd rfl (hb u choice)
        | _ => simp [stepOf]
  | enter u a lock' hasks hheld hcall =>
      by_cases hu : u = t
      · subst u
        obtain ⟨n', hpass, hlt⟩ := h.enters hasks hheld hcall
        refine ⟨n', hpass, ?_⟩
        simp only [stepOf, decide_true, Bool.toNat_true]
        omega
      · obtain ⟨⟨k, hpass, hk⟩, hcalls⟩ := h
        have hthread := ServerCallbacks.callMutex_threads_ne hcall (Ne.symm hu)
        refine ⟨n, ⟨⟨k, hpass, ?_⟩, ?_⟩, ?_⟩
        · rw [hthread, hk]
        · exact hthread ▸ hcalls
        · simp [stepOf, hu]
  | mutex b lock' hb hnext =>
      obtain ⟨⟨k, hpass, rfl⟩, hcalls⟩ := h
      by_cases hown : Own t b
      · obtain ⟨hcalls', hlt⟩ := hcalls.own (linked_of_reachable hr.reachable t) hown
          (by rintro rfl; exact hserves (decide_eq_true rfl)) hnext
        refine ⟨_, ⟨⟨k, hpass, rfl⟩, hcalls'⟩, ?_⟩
        have hle : (stepOf t s (.mutex b)).toNat ≤ 1 := Bool.toNat_le _
        dsimp only
        omega
      · have hthread := ExclusivePrioritySharedMutex.next_threads_ne hnext (hb t) hown hcalls.awake
        refine ⟨_, ⟨⟨k, hpass, rfl⟩, hthread ▸ hcalls⟩, ?_⟩
        have hnot : stepOf t s (.mutex b) = false := by
          cases b <;> simp_all [stepOf, Own]
        rw [hthread, hnot]
        simp

/-- The thread takes a step of its pass, and does not have to wait for it. -/
def Sweeps (t : T) (s : State T) (a : Label T) : Prop :=
  stepOf t s a ∧ (s.server.points t).inThreadLoop ∧ LockServes t s a

theorem onlySweeps_of_stepOf (hstep : stepOf t s a) (hin : (s.server.points t).inThreadLoop) :
    OnlySweeps registered t s a := by
  refine ⟨fun _ _ => hin, fun hother s' hs => ?_⟩
  cases next_step hs with
  | serve u choice => exact absurd (by rw [of_decide_eq_true hstep]) (hother choice)
  | outside b server' hb hnext =>
      cases b with
      | thread u choice => exact absurd rfl (hb u choice)
      | _ => cases hstep
  | _ => exact ServerSocket.SameMap.refl _

theorem Sweeps.rule (h : Sweeps t s a) : Rule registered t s a :=
  ⟨onlySweeps_of_stepOf h.1 h.2.1, h.2.2⟩

/-- In its pass the thread can take a step, unless another thread owns `mutex_`, which can take one
itself. -/
theorem InPass.proceeds (h : InPass registered active all t n s)
    (hr : (system role registered).ReachedBy Apart s) (hne : s.server.points t ≠ .accept) :
    CanStep registered t s ∨
      ∃ u, u ≠ t ∧ s.lock.mem.mutex = some u ∧ CanStep registered u s := by
  have hl := linked_of_reachable hr.reachable t
  have hlift : ∀ u, (∃ b lock', Own u b ∧
      ExclusivePrioritySharedMutex.next s.lock b = some lock') →
      CanStep registered u s := by
    rintro u ⟨b, lock', hown, hb⟩
    refine ⟨.mutex b, _, ?_, next_mutex ?_ hb⟩
    · cases b <;> simp_all [stepOf, Own]
    · rintro v op rfl
      exact hown
  by_cases hpc : (s.lock.threads t).pc = .outside
  · left
    by_cases hneeds : ∀ a ∈ asks (s.server.points t), a ∈ (s.lock.threads t).held
    · have hgoes : s.goes t := by
        refine ⟨hpc, hneeds, fun hjoin => ?_⟩
        have hin := h.inThreadLoop hne
        rw [hjoin] at hin
        cases hin
      obtain ⟨⟨k, hpass, -⟩, -⟩ := h
      rcases hpass.proceeds (server_reachable hr) hne with ⟨choice, s₁, hs₁⟩ | ⟨hasks, u, hu⟩
      · obtain ⟨-, m', p', hact, -⟩ := ServerSocket.next_thread hs₁
        obtain ⟨lock', -, hs'⟩ := exists_serve hl hgoes hact
        exact ⟨_, _, by simp [stepOf], hs'⟩
      · have hheld := hneeds .exclusive (if_pos hasks)
        have hfree : (s.server.points u).holdsExclusive = false ∧
            (s.server.points u).holdsShared = false := by
          by_cases hut : u = t
          · subst u
            exact ServerSocket.not_holds_of_asks hasks
          · obtain ⟨hexclusive, hshared⟩ := excludes_of_held hr hut hheld
            exact ⟨hexclusive, hshared rfl⟩
        rcases hu with hu | hu
        · exact absurd hu (by simp [hfree.1])
        · exact absurd hu (by simp [hfree.2])
    · push Not at hneeds
      obtain ⟨a, hasks, hnot⟩ := hneeds
      obtain ⟨lock', hs'⟩ := exists_enter hasks (hl.outside hpc hasks hnot)
      exact ⟨_, _, by simp [stepOf], hs'⟩
  · have ha := ExclusivePrioritySharedMutex.accounted_of_reachable (lock_reachable hr.reachable)
    rcases ExclusivePrioritySharedMutex.exists_own ha hpc h.calls.awake with
      hown | ⟨u, hu, hmutex, hown⟩
    · exact Or.inl (hlift t hown)
    · exact Or.inr ⟨u, hu, hmutex, hlift u hown⟩

/-- What a step of the thread does to the channels. -/
theorem InPass.effects (h : InPass registered active all t n s)
    (hr : (system role registered).ReachedBy Apart s) (honly : OnlySweeps registered t s a)
    (hstep : stepOf t s a) (hs : next registered s a = some s') :
    (∀ e ∈ all, active e = true → s'.server.mem.channel e.2 = s.server.mem.channel e.2) ∧
      (s'.server.mem = s.server.mem ∨ ∃ e ∈ all, active e = false) := by
  cases next_step hs with
  | serve u choice m' p' lock' hgoes hact hcall =>
      obtain rfl : u = t := of_decide_eq_true hstep
      obtain ⟨⟨k, hpass, -⟩, -⟩ := h
      exact (hpass.step (server_reachable hr) (honly.inside choice rfl)
        (serve_next hr hgoes hact)).2
  | outside b server' hb hnext =>
      cases b with
      | thread u choice => exact absurd rfl (hb u choice)
      | _ => cases hstep
  | _ => exact ⟨fun _ _ _ => rfl, Or.inl rfl⟩

/-! ### With nobody else in the way -/

/-- Every other thread is outside the mutex and has no access. -/
def Alone (t : T) (s : State T) : Prop := ∀ u, u ≠ t → s.lock.threads u = ⟨[], .outside⟩

/-- With nobody else about, the thread does not have to wait. -/
theorem lockServes_of_alone (hr : (system role registered).Reachable s) (halone : Alone t s)
    (hstep : stepOf t s a) : LockServes t s a := by
  have ha := ExclusivePrioritySharedMutex.accounted_of_reachable (lock_reachable hr)
  have hl := linked_of_reachable hr t
  refine ⟨?_, ?_⟩
  · cases a with
    | mutex b =>
        cases b with
        | run u =>
            obtain rfl : u = t := of_decide_eq_true hstep
            intro _ v hv
            rw [halone v hv]
            simp [ExclusivePrioritySharedMutex.InWindow]
        | _ => trivial
    | _ => trivial
  · -- the counters count what the thread itself contributes, which is nothing at these points
    have hnone : ∀ (w : Thread → ℕ), w ⟨[], .outside⟩ = 0 → w (s.lock.threads t) = 0 →
        ThreadFamily.total w s.lock.threads = 0 := by
      intro w hoff hself
      by_contra hpos
      obtain ⟨u, hut, hu⟩ := ThreadFamily.exists_ne_pos_of_lt_total w s.lock.threads (t := t)
        (by omega)
      rw [halone u hut] at hu
      omega
    have hheld : (s.lock.threads t).pc ≠ .outside → (s.lock.threads t).held = [] := hl.held_eq_nil
    intro _
    cases a with
    | mutex b =>
        cases b with
        | run u =>
            obtain rfl : u = t := of_decide_eq_true hstep
            constructor
            · intro hpc
              have htotal := hnone ExclusivePrioritySharedMutex.sharedWeight rfl
                (by simp [ExclusivePrioritySharedMutex.sharedWeight, hpc, hheld (by simp [hpc])])
              rw [ha.shared, htotal, Nat.cast_zero]
            · intro hpc
              have htotal := hnone ExclusivePrioritySharedMutex.exclusiveWeight rfl
                (by simp [ExclusivePrioritySharedMutex.exclusiveWeight, hpc, hheld (by simp [hpc])])
              rw [ha.exclusive, htotal, Nat.cast_zero]
        | _ => trivial
    | _ => trivial

theorem Alone.next (h : Alone t s) (hstep : stepOf t s a) (hs : next registered s a = some s') :
    Alone t s' := by
  intro u hu
  cases next_step hs with
  | serve v choice m' p' lock' hgoes hact hcall =>
      obtain rfl : v = t := of_decide_eq_true hstep
      exact (ServerCallbacks.callMutex_threads_ne hcall hu).trans (h u hu)
  | outside => exact h u hu
  | enter v b lock' hasks hheld hcall =>
      obtain rfl : v = t := of_decide_eq_true hstep
      exact (ServerCallbacks.callMutex_threads_ne hcall hu).trans (h u hu)
  | mutex b lock' hb hnext =>
      refine (ExclusivePrioritySharedMutex.next_threads_ne hnext (hb u) ?_ ?_).trans (h u hu)
      · intro hown
        cases b <;> simp_all [stepOf, Own]
      · rw [h u hu]
        rfl

/-- With nobody else in the map the thread comes to the end of its pass. -/
theorem InPass.ends (h : InPass registered active all t n s)
    (hr : (system role registered).ReachedBy Apart s) (halone : Alone t s) :
    ∃ s', (system role registered).LeadsBy (Sweeps t) s s' ∧
      s'.server.points t = .accept := by
  induction n using Nat.strong_induction_on generalizing s with
  | h n ih =>
      by_cases hne : s.server.points t = .accept
      · exact ⟨s, .refl, hne⟩
      · have hin := h.inThreadLoop hne
        rcases h.proceeds hr hne with ⟨a, s₁, hstep, hs₁⟩ | ⟨u, hut, hmutex, -⟩
        · have hsweeps : Sweeps t s a :=
            ⟨hstep, hin, lockServes_of_alone hr.reachable halone hstep⟩
          obtain ⟨n', hpass, hn⟩ := h.keeps hr hsweeps.rule hs₁
          rw [hstep, Bool.toNat_true] at hn
          obtain ⟨s', hleads, hend⟩ := ih n' (by omega) hpass (hr.step hsweeps.2.2.1 hs₁)
            (halone.next hstep hs₁)
          exact ⟨s', (TransitionSystem.LeadsBy.single hsweeps hs₁).trans hleads, hend⟩
        · have ha := ExclusivePrioritySharedMutex.accounted_of_reachable
            (lock_reachable hr.reachable)
          have howns := (ha.owner u).mpr hmutex
          rw [halone u hut] at howns
          cases howns

/-! ### A whole pass -/

/-- A step of the thread leaves the channels of these entries as they are. -/
def Spared (t : T) (entries : List Entry) (registered : Bool) (s : State T) (a : Label T) : Prop :=
  stepOf t s a → ∀ s', next registered s a = some s' →
    ∀ e ∈ entries, s'.server.mem.channel e.2 = s.server.mem.channel e.2

/-- A step of the thread changes nothing at all in the server. -/
def ChangesNothing (t : T) (registered : Bool) (s : State T) (a : Label T) : Prop :=
  stepOf t s a → ∀ s', next registered s a = some s' → s'.server.mem = s.server.mem

/-- What holds of a pass at any moment: the steps taken are bounded, the thread can go on unless
another owns `mutex_`, which can go on then, nothing has been thrown, with nobody else about the
pass comes to its end, and the active channels are left alone. -/
structure Sweeping (role : T → Role) (registered : Bool) (t : T) (s : State T)
    (as : List (Label T)) (s' : State T) : Prop where
  bounded : (system role registered).countSteps (stepOf t) s as ≤
    99 * s.server.mem.clients.length + 26
  proceeds : s'.server.points t ≠ .accept → CanStep registered t s' ∨
    ∃ u, u ≠ t ∧ s'.lock.mem.mutex = some u ∧ CanStep registered u s'
  notThrown : ∀ caller, s'.server.points t ≠ .closeThrow caller
  ends : Alone t s' → ∃ s₁, (system role registered).LeadsBy (Sweeps t) s' s₁ ∧
    s₁.server.points t = .accept
  spared : (system role registered).Along
    (Spared t (s.server.mem.clients.filter fun e => s.server.mem.isActive e.2) registered) s as

/-- A thread that begins its pass is in no call of the mutex that could have to wait. -/
theorem inPass_begin (hr : (system role registered).Reachable s)
    (hp : s.server.points t = .sweepBegin) :
    ∃ n, InPass registered (fun e => s.server.mem.isActive e.2) s.server.mem.clients t n s ∧
      n ≤ 99 * s.server.mem.clients.length + 26 := by
  have hl := linked_of_reachable hr t
  rw [hp] at hl
  have hcalls : Calls (s.lock.threads t) := by
    have hacquiring : acquiring (s.lock.threads t).pc = none := hl.2
    cases hpc : (s.lock.threads t).pc <;> simp_all [Calls, Pc.callRank, acquiring]
  refine ⟨_, ⟨⟨_, ServerSocket.pass_begin hp, rfl⟩, hcalls⟩, ?_⟩
  have hle := waiting_le (s.server.points t) (s.lock.threads t)
  omega

/-- Within the rule a run stays in the pass. -/
theorem InPass.run {as : List (Label T)} (h : InPass registered active all t n s)
    (hr : (system role registered).ReachedBy Apart s)
    (hs : (system role registered).exec s as = some s')
    (hrule : (system role registered).Along (Rule registered t) s as) :
    ∃ n', (system role registered).ReachedBy Apart s' ∧ InPass registered active all t n' s' ∧
      (system role registered).countSteps (stepOf t) s as + n' ≤ n := by
  have hstep : ∀ n s a s', (system role registered).ReachedBy Apart s ∧
      InPass registered active all t n s → Rule registered t s a →
      (system role registered).next s a = some s' →
      ∃ n', ((system role registered).ReachedBy Apart s' ∧ InPass registered active all t n' s') ∧
        (stepOf t s a).toNat + n' ≤ n := by
    intro n s a s' ⟨hr, hpass⟩ hrule hs
    obtain ⟨n', hpass', hn⟩ := hpass.keeps hr hrule hs
    exact ⟨n', ⟨hr.step hrule.2.1 hs, hpass'⟩, hn⟩
  obtain ⟨n', ⟨hr', hpass⟩, hcount⟩ :=
    TransitionSystem.countSteps_le_of_along ⟨hr, h⟩ hstep hrule hs
  exact ⟨n', hr', hpass, hcount⟩

/-- What the steps of the thread do, in a run that stays in the pass. -/
theorem InPass.along {as : List (Label T)} (h : InPass registered active all t n s)
    (hr : (system role registered).ReachedBy Apart s)
    (hrule : (system role registered).Along (Rule registered t) s as)
    {Q : State T → Label T → Prop}
    (hQ : ∀ s a, (∀ s', stepOf t s a → (system role registered).next s a = some s' →
      (∀ e ∈ all, active e = true → s'.server.mem.channel e.2 = s.server.mem.channel e.2) ∧
        (s'.server.mem = s.server.mem ∨ ∃ e ∈ all, active e = false)) → Q s a) :
    (system role registered).Along Q s as := by
  refine hrule.imp (I := fun s => ∃ n, (system role registered).ReachedBy Apart s ∧
    InPass registered active all t n s) ?_ ?_ ⟨n, hr, h⟩
  · rintro s a s' ⟨n, hr, hpass⟩ hrule hs
    obtain ⟨n', hpass', -⟩ := hpass.keeps hr hrule hs
    exact ⟨n', hr.step hrule.2.1 hs, hpass'⟩
  · rintro s a ⟨n, hr, hpass⟩ hrule
    exact hQ s a fun s' hstep hs => hpass.effects hr hrule.1 hstep hs

/-- A pass over a map of active channels changes nothing. -/
theorem changesNothing {as : List (Label T)} (hr : (system role registered).ReachedBy Apart s)
    (hp : s.server.points t = .sweepBegin)
    (hrule : (system role registered).Along (Rule registered t) s as)
    (hactive : ∀ e ∈ s.server.mem.clients, s.server.mem.isActive e.2 = true) :
    (system role registered).Along (ChangesNothing t registered) s as := by
  obtain ⟨n, hpass, -⟩ := inPass_begin hr.reachable hp
  apply hpass.along hr hrule
  intro s₁ a heffects hstep s₂ hs
  rcases (heffects s₂ hstep hs).2 with hsame | ⟨e, he, hinactive⟩
  · exact hsame
  · rw [hactive e he] at hinactive
    cases hinactive

/-- A pass of `threadLoop` that does not have to wait in `lock` removes the inactive clients of the
map and no others, closes each of them once, and comes to its end; the next one changes nothing. -/
theorem threadLoop_exact {as : List (Label T)} (hr : (system role registered).ReachedBy Apart s)
    (hp : s.server.points t = .sweepBegin) (hs : (system role registered).exec s as = some s')
    (hrule : (system role registered).Along (Rule registered t) s as) :
    Sweeping role registered t s as s' ∧ (s'.server.points t = .accept →
      Swept registered s.server.mem s'.server.mem ∧
      ∀ r bs, (system role registered).ReachedBy Apart r → r.server.points t = .sweepBegin →
        SameMap s'.server.mem r.server.mem →
        (system role registered).Along (Rule registered t) r bs →
        (system role registered).Along (ChangesNothing t registered) r bs) := by
  obtain ⟨n, hpass, hn⟩ := inPass_begin hr.reachable hp
  obtain ⟨n', hr', hpass', hcount⟩ := hpass.run hr hs hrule
  constructor
  · refine ⟨by omega, hpass'.proceeds hr', hpass'.notThrown, hpass'.ends hr', ?_⟩
    apply hpass.along hr hrule
    intro s₁ a heffects hstep s₂ hs₂ e he
    obtain ⟨hmem, hactive⟩ := List.mem_filter.mp he
    exact (heffects s₂ hstep hs₂).1 e hmem hactive
  · intro hend
    obtain ⟨⟨k, hswept, -⟩, -⟩ := hpass'
    have hswept := hswept.swept (server_reachable hr') hend fun e he =>
      ((ServerSocket.custody_of_reachable (server_reachable hr)).listed e he).tally
    refine ⟨hswept, fun r bs hreach hbegin hmap hrule' => ?_⟩
    apply changesNothing hreach hbegin hrule'
    intro e he
    rw [hmap.clients] at he
    rw [hmap.flags e he]
    exact (hswept.kept e he).1

end Pass

/-! ### A pass over two clients -/

section Runs

variable {T : Type*} (t reader : T)

/-- A client is registered, the worker reads the end of its stream, and the listen thread is at the
begin of its next pass. The worker still has shared access. -/
def readsEnd : List (Label T) :=
  goes t 3 ++ accepts t 5 [(5, 0)] ++ (goes reader 1 ++ locksShared reader ++ goes reader 4 ++
    .server (.thread reader (.recv .ended)) :: goes reader 1) ++ goes t 1

/-- Two clients are registered, the worker reads the end of the second one's stream and goes back to
sleep, and the listen thread begins its next pass. -/
def endOfStream : List (Label T) :=
  goes t 3 ++ accepts t 5 [(5, 0)] ++ goes t 2 ++
    [.server (.thread t (.read (5, 0) none)), .server (.thread t (.test true))] ++ goes t 1 ++
    accepts t 6 [(6, 1), (5, 0)] ++
    (goes reader 1 ++ locksShared reader ++ goes reader 4 ++
      .server (.thread reader (.recv .ended)) :: goes reader 5 ++
      .server (.thread reader (.recv .wouldBlock)) :: goes reader 3 ++ unlocks reader) ++
    goes t 1

/-- The pass closes the second client. -/
def sweepSecond : List (Label T) :=
  goes t 1 ++ [.server (.thread t (.read (6, 1) (some (5, 0)))), .server (.thread t (.test false)),
    .server (.thread t (.select 6))] ++ locks t ++ goes t 3 ++ unlocks t ++ goes t 5 ++
    [.server (.thread t (.read (5, 0) none)), .server (.thread t (.test true))] ++ goes t 1

/-- The pass comes to a client whose worker is not done, and goes to sleep in `lock`. -/
def sweepInVain : List (Label T) :=
  goes t 1 ++ [.server (.thread t (.read (5, 0) none)), .server (.thread t (.test false)),
    .server (.thread t (.select 5)), .enter t] ++ List.replicate 4 (.mutex (.run t))

end Runs

/-! ### A pass that sleeps -/

/-- No thread wakes up without having been notified. -/
abbrev NoSpuriousWakeup {T : Type*} [DecidableEq T] [Fintype T] (s : State T) (a : Label T) :
    Prop :=
  OnMutex (fun _ => ExclusivePrioritySharedMutex.NotifiedOnly) s a

/-- A thread that has to wait in `lock` stays there. -/
theorem asleep_stays {T : Type*} [DecidableEq T] [Fintype T] {role : T → Role} {registered : Bool}
    {s s' : State T} {t : T} (hr : (system role registered).ReachedBy NoSpuriousWakeup s)
    (hpc : (s.lock.threads t).pc = .lockAsleep)
    (h : (system role registered).LeadsBy NoSpuriousWakeup s s') :
    (s'.lock.threads t).pc = .lockAsleep := by
  refine h.preserves (I := fun s => (s.lock.threads t).pc = .lockAsleep) hr hpc ?_
  intro s a s' hr hpc hg hs
  have hlock : (ExclusivePrioritySharedMutex.system T).ReachedBy
      (fun _ => ExclusivePrioritySharedMutex.NotifiedOnly) s.lock :=
    lock_reachedBy (fun _ _ _ => trivial) hr
  rcases (next_step hs).lock with hsame | ⟨u, op, hstep⟩ | ⟨b, rfl, hstep⟩
  · rwa [hsame]
  · exact ExclusivePrioritySharedMutex.asleep_writer_stays hlock hpc
      (.single (a := .call u op) trivial hstep)
  · exact ExclusivePrioritySharedMutex.asleep_writer_stays hlock hpc (.single (a := b) hg hstep)

instance {T : Type*} [DecidableEq T] [Fintype T] (t : T) (s : State T) (a : Label T) :
    Decidable (Sweeps t s a) :=
  inferInstanceAs (Decidable (stepOf t s a ∧ (s.server.points t).inThreadLoop ∧
    OnMutex FastAddClear s a ∧ (stepOf t s a → OnMutex WriterPasses s a)))

theorem threadLoop_exact_two_clients :
    ∃ s s', (system ServerSocket.smallServer true).ReachedBy Apart s ∧
      s.server.mem.clients = [(6, 1), (5, 0)] ∧ s.server.points 0 = .sweepBegin ∧
      (system ServerSocket.smallServer true).exec s (sweepSecond 0) = some s' ∧
      s'.server.points 0 = .accept ∧ s'.server.mem.clients = [(5, 0)] ∧
      Swept true s.server.mem s'.server.mem := by
  have hrun : ((system ServerSocket.smallServer true).execWhile Apart
      (system ServerSocket.smallServer true).start (endOfStream 0 2)).any
      (fun s => s.server.mem.clients = [(6, 1), (5, 0)] ∧ s.server.points 0 = .sweepBegin ∧
        ((system ServerSocket.smallServer true).execWhile (Sweeps 0) s (sweepSecond 0)).any
          (fun s' => s'.server.points 0 = .accept ∧ s'.server.mem.clients = [(5, 0)])) = true := by
    decide
  obtain ⟨s, hreach, hstate⟩ := TransitionSystem.exists_reachedBy_of_execWhile hrun
  obtain ⟨hclients, hbegin, hpass⟩ := of_decide_eq_true hstate
  obtain ⟨s', hs, hstate'⟩ := (Option.any_eq_true _ _).mp hpass
  obtain ⟨hend, hclients'⟩ := of_decide_eq_true hstate'
  obtain ⟨hexec, halong⟩ := TransitionSystem.execWhile_eq_some.mp hs
  have hrule : (system ServerSocket.smallServer true).Along (Rule true 0) s (sweepSecond 0) :=
    halong.imp (I := fun _ => True) (fun _ _ _ _ _ _ => trivial) (fun _ _ _ h => h.rule) trivial
  exact ⟨s, s', hreach, hclients, hbegin, hexec, hend, hclients',
    ((threadLoop_exact hreach hbegin hexec hrule).2 hend).1⟩

/-- A worker has shared access when the pass comes to an inactive client. The listen thread goes to
sleep in `lock`, and whatever happens then its pass does not end. -/
theorem not_threadLoop_ends :
    ¬ ∀ s s' : State (Fin 3),
      (system ServerSocket.smallServer true).ReachedBy NoSpuriousWakeup s →
      s.server.points 0 = .sweepBegin →
      (system ServerSocket.smallServer true).LeadsBy
        (fun s a => OnlySweeps true 0 s a ∧ NoSpuriousWakeup s a) s s' →
      ∃ s'', (system ServerSocket.smallServer true).LeadsBy NoSpuriousWakeup s' s'' ∧
        s''.server.points 0 = .accept := by
  intro h
  have hrun : ((system ServerSocket.smallServer true).execWhile NoSpuriousWakeup
      (system ServerSocket.smallServer true).start (readsEnd 0 2)).any (fun s =>
        s.server.points 0 = .sweepBegin ∧
        ((system ServerSocket.smallServer true).execWhile (fun s a =>
          (stepOf 0 s a ∧ (s.server.points 0).inThreadLoop) ∧ NoSpuriousWakeup s a) s
            (sweepInVain 0)).any (fun s' => (s'.lock.threads 0).pc = .lockAsleep)) = true := by
    decide
  obtain ⟨s, hreach, hstate⟩ := TransitionSystem.exists_reachedBy_of_execWhile hrun
  obtain ⟨hbegin, hpass⟩ := of_decide_eq_true hstate
  obtain ⟨s', hs, hasleep⟩ := (Option.any_eq_true _ _).mp hpass
  have hasleep := of_decide_eq_true hasleep
  have hleads := TransitionSystem.execWhile_leadsBy hs
  have hreach' : (system ServerSocket.smallServer true).ReachedBy NoSpuriousWakeup s' :=
    hreach.leadsBy (hleads.mono fun _ _ hg => hg.2)
  obtain ⟨s'', hleads'', hend⟩ := h s s' hreach hbegin
    (hleads.mono fun _ _ hg => ⟨onlySweeps_of_stepOf hg.1.1 hg.1.2, hg.2⟩)
  have hl := linked_of_reachable (hreach'.leadsBy hleads'').reachable 0
  rw [hend] at hl
  have hacquiring := hl.2
  rw [asleep_stays hreach' hasleep hleads''] at hacquiring
  cases hacquiring

end SocketLib.ServerSocketMutex
