import SocketLib.ExclusiveSharedMutexWakeup

/-!
# Writers among themselves and before later readers

A writer raises `exclusiveCount_` only under `mutex_` and only after it has read it as zero there,
so the counter is at most one, and it counts the one thread that is between its increment in `lock`
and its decrement in `unlock` (`writersExclude`).

A request keeps `exclusiveRequests_` positive until its own writer withdraws it, whatever the other
writers do. A `lock_shared` that starts meanwhile leaves the fast path at its first step and does
not get past the predicate of its wait (`lockShared_waits`).
-/

namespace SocketLib.ExclusivePrioritySharedMutex

open ThreadFamily

variable {T : Type*}

/-! ### Writers exclude each other -/

/-- From the increment of `exclusiveCount_` in `lock` to the decrement in `unlock`; exclusive access
is held from the return of the one to the call of the other. -/
def Thread.HasExclusive (th : Thread) : Prop :=
  .exclusive ∈ th.held ∨ th.pc = .lockRelease ∨ th.pc = .unlockAcquire ∨ th.pc = .unlockSub

theorem Thread.hasExclusive_iff (th : Thread) : th.HasExclusive ↔ 0 < exclusiveWeight th := by
  have hheld : 0 < th.held.count .exclusive ↔ .exclusive ∈ th.held := List.count_pos_iff
  unfold HasExclusive exclusiveWeight
  split_ifs with hpc
  · exact iff_of_true (Or.inr hpc) (Nat.succ_pos _)
  · rw [Nat.add_zero, hheld]
    exact or_iff_left hpc

theorem advance_exclusiveCount_le {t : T} {m m' : Mem T} {th th' : Thread}
    (h : advance t m th = some (m', th')) (hf : PointFact m th.pc) (hle : m.exclusiveCount ≤ 1) :
    m'.exclusiveCount ≤ 1 := by
  obtain ⟨held, pc⟩ := th
  cases pc <;> simp only [advance] at h
  all_goals grind [PointFact, Mem.acquire, Mem.release]

section Writers

variable [Fintype T] [DecidableEq T] {s : State T}

theorem exclusiveCount_le_one (h : (system T).Reachable s) : s.mem.exclusiveCount ≤ 1 := by
  apply h.invariant (I := fun s => s.mem.exclusiveCount ≤ 1) zero_le_one
  intro r a r' hr hle _ hs
  refine next_preserves (I := fun s => s.mem.exclusiveCount ≤ 1) hle hs ?_ (fun _ _ _ hq _ => hq)
  intro t m' th' _ hadv
  exact advance_exclusiveCount_le hadv ((accounted_of_reachable hr).point t) hle

/-- At most one thread has exclusive access, and `exclusiveCount_` is one while a thread has it and
zero otherwise. -/
theorem writersExclude (h : (system T).Reachable s) :
    (∀ t u, (s.threads t).HasExclusive → (s.threads u).HasExclusive → t = u) ∧
    ((∃ t, (s.threads t).HasExclusive) → s.mem.exclusiveCount = 1) ∧
    ((∀ t, ¬ (s.threads t).HasExclusive) → s.mem.exclusiveCount = 0) := by
  have ha := accounted_of_reachable h
  have hle := exclusiveCount_le_one h
  refine ⟨fun t u ht hu => ?_, fun ⟨t, ht⟩ => ?_, fun hnone => ?_⟩
  · by_contra htu
    have hsum := add_le_total exclusiveWeight s.threads htu
    have htotal := ha.exclusive
    rw [Thread.hasExclusive_iff] at ht hu
    omega
  · have hweight := ha.exclusiveWeight_le t
    rw [Thread.hasExclusive_iff] at ht
    omega
  · by_contra hne
    have htotal := ha.exclusive
    obtain ⟨t, ht⟩ := exists_pos_of_total_pos exclusiveWeight s.threads (by omega)
    exact hnone t ((Thread.hasExclusive_iff _).mpr ht)

end Writers

/-- One writer is inside, and another has announced itself. -/
theorem writersExclude_second_writer_waits :
    ∃ s : State (Fin 2), (system (Fin 2)).Reachable s ∧ .exclusive ∈ (s.threads 0).held ∧
      (s.threads 1).pc = .lockAcquire ∧ s.mem.exclusiveCount = 1 ∧
      ∀ u, (s.threads u).HasExclusive → u = 0 := by
  have hrun : ((system (Fin 2)).exec (initial (Fin 2))
      (.call 0 .lock :: List.replicate 7 (.run 0) ++ [.call 1 .lock, .run 1])).any (fun s =>
      .exclusive ∈ (s.threads 0).held ∧ (s.threads 1).pc = .lockAcquire) = true := by decide
  obtain ⟨s, hs, hstate⟩ := TransitionSystem.exists_reachedBy_of_execWhile hrun
  rw [decide_eq_true_eq] at hstate
  obtain ⟨hheld, hwriter⟩ := hstate
  obtain ⟨hunique, hone, -⟩ := writersExclude hs
  exact ⟨s, hs, hheld, hwriter, hone ⟨0, Or.inl hheld⟩,
    fun u hu => hunique u 0 hu (Or.inl hheld)⟩

/-! ### An announced writer goes first -/

/-- Inside `lock_shared`, past the first load and before any increment of `sharedCount_`. -/
def Pc.defers : Pc → Bool
  | .slowAcquire | .slowLoadRequests | .slowWait | .slowAsleep | .slowWoken => true
  | _ => false

/-- The step in which a writer withdraws its request. -/
def Withdraws (w : T) (s : State T) : Label T → Prop
  | .run t => t = w ∧ (s.threads w).pc = .lockSubRequest
  | _ => False

instance [DecidableEq T] (w : T) (s : State T) (a : Label T) : Decidable (Withdraws w s a) :=
  match a with
  | .run t => inferInstanceAs (Decidable (t = w ∧ (s.threads w).pc = .lockSubRequest))
  | .call _ _ | .notify _ _ | .spurious _ => isFalse not_false

theorem Quiet.defers {th th' : Thread} (h : Quiet th th') (hd : th.pc.defers) :
    th'.pc.defers := by
  cases h with
  | call op h =>
      obtain ⟨hpc, -⟩ := begin_cases h
      simp [hpc, Pc.defers] at hd
  | notify cv pc h =>
      rcases notifies_cases h with ⟨hpc, -⟩ | ⟨hpc, -⟩ <;> simp [hpc, Pc.defers] at hd
  | wake cv h =>
      cases cv with
      | shared => rfl
      | exclusive => simp [h, Pc.asleep, Pc.defers] at hd

theorem Quiet.requests {th th' : Thread} (h : Quiet th th') (hr : th.pc.requests) :
    th'.pc.requests := by
  have hweight := h.weights.2.2
  unfold requestWeight at hweight
  split_ifs at hweight with hr'
  exact hr'

section Steps

variable {t : T} {m m' : Mem T} {th th' : Thread}

theorem advance_requests (h : advance t m th = some (m', th')) (hr : th.pc.requests)
    (hpc : th.pc ≠ .lockSubRequest) : th'.pc.requests := by
  obtain ⟨held, pc⟩ := th
  cases pc <;> simp only [advance] at h
  all_goals grind [Pc.requests, Thread.goto, Mem.acquire, Mem.release]

/-- While a request is announced, a reader that has not passed the predicate does not pass it. -/
theorem advance_defers (h : advance t m th = some (m', th')) (hd : th.pc.defers)
    (hm : m.exclusiveRequests ≠ 0) : th'.pc.defers ∧ m'.sharedCount = m.sharedCount := by
  obtain ⟨held, pc⟩ := th
  cases pc <;> simp only [advance] at h
  all_goals grind [Pc.defers, Thread.goto, Mem.acquire, Mem.release]

end Steps

section Priority

variable [Fintype T] {s s₁ s' : State T} {r w : T}

theorem Accounted.exclusiveRequests_ne_zero (h : Accounted s) (hw : (s.threads w).pc.requests) :
    s.mem.exclusiveRequests ≠ 0 := by
  have hle := h.requestWeight_le w
  rw [requestWeight, if_pos hw] at hle
  omega

variable [DecidableEq T]

/-- The reader is still in front of the writer. -/
def Deferring (r w : T) (s : State T) : Prop :=
  (s.threads r).pc.defers ∧ (s.threads w).pc.requests

theorem Deferring.next {a : Label T} (hr : (system T).Reachable s) (hd : Deferring r w s)
    (ha : ¬ Withdraws w s a) (hs : next s a = some s') : Deferring r w s' := by
  refine next_preserves hd hs ?_ ?_
  · rintro t m' th' rfl hadv
    have hm := (accounted_of_reachable hr).exclusiveRequests_ne_zero hd.2
    constructor
    · refine setThread_of (P := fun th => th.pc.defers) s ?_ hd.1
      rintro rfl
      exact (advance_defers hadv hd.1 hm).1
    · refine setThread_of (P := fun th => th.pc.requests) s ?_ hd.2
      rintro rfl
      exact advance_requests hadv hd.2 (fun hpc => ha ⟨rfl, hpc⟩)
  · intro q t th' hq hquiet
    constructor
    · refine setThread_of (P := fun th => th.pc.defers) q ?_ hq.1
      rintro rfl
      exact hquiet.defers hq.1
    · refine setThread_of (P := fun th => th.pc.requests) q ?_ hq.2
      rintro rfl
      exact hquiet.requests hq.2

/-- A `lock_shared` whose first step is taken while the request of a writer is announced has not
incremented `sharedCount_` in any state before that writer withdraws the request, and does not in
its next step. -/
theorem lockShared_waits (h : (system T).Reachable s)
    (hreader : (s.threads r).pc = .fastLoadRequests) (hwriter : (s.threads w).pc.requests)
    (hfirst : next s (.run r) = some s₁)
    (hrun : (system T).LeadsBy (fun s a => ¬ Withdraws w s a) s₁ s') :
    (s'.threads r).pc.defers ∧
      ∀ s'', next s' (.run r) = some s'' → s''.mem.sharedCount = s'.mem.sharedCount := by
  have hm := (accounted_of_reachable h).exclusiveRequests_ne_zero hwriter
  have hrw : w ≠ r := by
    rintro rfl
    simp [hreader, Pc.requests] at hwriter
  have h₁ : Deferring r w s₁ := by
    obtain ⟨m', th', hadv, rfl⟩ := next_run hfirst
    simp only [advance, hreader, if_neg hm, Option.some.injEq, Prod.mk.injEq] at hadv
    obtain ⟨rfl, rfl⟩ := hadv
    constructor
    · simp [Thread.goto, Pc.defers]
    · rwa [show (s.setThread r _).threads w = _ from setThread_ne s _ hrw]
  obtain ⟨hr', hd⟩ := hrun.keeps (h.step (a := .run r) trivial hfirst) h₁
    (fun _ _ _ hr hd ha hs => hd.next hr ha hs)
  refine ⟨hd.1, fun s'' hs => ?_⟩
  obtain ⟨m', th', hadv, rfl⟩ := next_run hs
  have hm' := (accounted_of_reachable hr').exclusiveRequests_ne_zero hd.2
  exact (advance_defers hadv hd.1 hm').2

/-- A writer that sleeps on, because the notify it waits for never comes, shuts out every reader
that is waiting by then. -/
theorem asleep_writer_shuts_out (h : (system T).ReachedBy (fun _ => NotifiedOnly) s)
    (hwriter : (s.threads w).pc = .lockAsleep) (hreader : (s.threads r).pc.defers)
    (hrun : (system T).LeadsBy (fun _ => NotifiedOnly) s s') : (s'.threads r).pc.defers := by
  have hrequests : (s.threads w).pc.requests := by rw [hwriter]; rfl
  have hboth : (s'.threads w).pc = .lockAsleep ∧ Deferring r w s' := by
    refine hrun.preserves (I := fun q => (q.threads w).pc = .lockAsleep ∧ Deferring r w q) h
      ⟨hwriter, hreader, hrequests⟩ ?_
    rintro q a q' hq ⟨hasleep, hd⟩ hnotified hs
    refine ⟨asleep_writer_stays hq hasleep (.single hnotified hs), hd.next hq.reachable ?_ hs⟩
    intro hwithdraws
    cases a with
    | run t => simp [hwithdraws.2] at hasleep
    | _ => exact hwithdraws
  exact hboth.2.1

end Priority

/-- A reader that comes after the request of a writer is asleep when the writer is about to withdraw
it. -/
theorem lockShared_waits_asleep :
    ∃ s s₁ s' : State (Fin 2), next s (.run 1) = some s₁ ∧
      (system (Fin 2)).LeadsBy (fun s a => ¬ Withdraws 0 s a) s₁ s' ∧
      (s'.threads 0).pc = .lockSubRequest ∧ (s'.threads 1).pc.defers ∧
      ∀ s'', next s' (.run 1) = some s'' → s''.mem.sharedCount = s'.mem.sharedCount := by
  have hrun : ((system (Fin 2)).exec (initial (Fin 2))
      [.call 0 .lock, .run 0, .call 1 .lockShared]).any (fun s =>
      ((s.threads 1).pc = .fastLoadRequests ∧ (s.threads 0).pc.requests) ∧
      (next s (.run 1)).any (fun s₁ =>
        ((system (Fin 2)).execWhile (fun s a => ¬ Withdraws 0 s a) s₁
          (List.replicate 3 (.run 1) ++ List.replicate 3 (.run 0))).any
          (fun s' => (s'.threads 0).pc = .lockSubRequest))) = true := by decide
  obtain ⟨s, hs, hstate⟩ := TransitionSystem.exists_reachedBy_of_execWhile hrun
  rw [decide_eq_true_eq] at hstate
  obtain ⟨⟨hreader, hwriter⟩, hfirst⟩ := hstate
  obtain ⟨s₁, hs₁, hpost⟩ := (Option.any_eq_true ..).mp hfirst
  obtain ⟨s', hs', hpc⟩ := (Option.any_eq_true ..).mp hpost
  have hlead := TransitionSystem.execWhile_leadsBy hs'
  obtain ⟨hdefers, hcount⟩ := lockShared_waits hs hreader hwriter hs₁ hlead
  exact ⟨s, s₁, s', hs₁, hlead, of_decide_eq_true hpc, hdefers, hcount⟩

end SocketLib.ExclusivePrioritySharedMutex
