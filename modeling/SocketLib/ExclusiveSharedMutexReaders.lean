import SocketLib.ExclusiveSharedMutexAccounting

/-!
# The increments and decrements behind the counters of `ExclusivePrioritySharedMutex`

A run is asked how often each thread has incremented a counter in it and how often it has
decremented it. `sharedCount_` is what the increments of `lock_shared` exceed the decrements of
`unlock_shared` by, and `exclusiveRequests_` the number of threads between the two steps of `lock`
that announce and withdraw a request. A test of the fast path that failed would leave an increment
behind that nobody takes back; `sharedCount_` being a count, it is not negative and the test never
fails.

A thread that nests its accesses counts once for each. When none does, `sharedCount_` is a number of
threads.
-/

namespace SocketLib.ExclusivePrioritySharedMutex

open ThreadFamily

variable {T : Type*}

def Pc.addsShared : Pc → Bool
  | .fastAdd | .slowAdd => true
  | _ => false

def Pc.subsShared : Pc → Bool
  | .unsharedSub => true
  | _ => false

def Pc.addsRequest : Pc → Bool
  | .lockAddRequest => true
  | _ => false

def Pc.subsRequest : Pc → Bool
  | .lockSubRequest => true
  | _ => false

/-- A step that the thread takes from such a point. -/
def StepsFrom [DecidableEq T] (points : Pc → Bool) (t : T) (s : State T) : Label T → Bool
  | .run u => decide (u = t) && points (s.threads u).pc
  | _ => false

/-- An acquiring call is made only by a thread that holds nothing. -/
def Unnested (s : State T) : Label T → Prop
  | .call t .lockShared | .call t .lock => (s.threads t).held = []
  | _ => True

instance (s : State T) (a : Label T) : Decidable (Unnested s a) :=
  match a with
  | .call t .lockShared | .call t .lock => inferInstanceAs (Decidable ((s.threads t).held = []))
  | .call _ .unlockShared | .call _ .unlock | .run _ | .notify _ _ | .spurious _ => isTrue trivial

/-- In this run the thread has incremented the counter so many times more than decremented it. -/
def outstanding [DecidableEq T] [Fintype T] (adds subs : Pc → Bool) (as : List (Label T)) (t : T) :
    ℤ :=
  (system T).countSteps (StepsFrom adds t) (initial T) as -
    (system T).countSteps (StepsFrom subs t) (initial T) as

/-- The threads that have incremented the counter and not decremented it again. -/
def owing [DecidableEq T] [Fintype T] (adds subs : Pc → Bool) (as : List (Label T)) : Finset T :=
  Finset.univ.filter (fun t => 0 < outstanding adds subs as t)

/-- What the two counters are after a run. -/
structure ReadersAccounted [DecidableEq T] [Fintype T] (as : List (Label T)) (s : State T) :
    Prop where
  shared : s.mem.sharedCount = ∑ t, outstanding Pc.addsShared Pc.subsShared as t
  decrements : ∀ t, 0 ≤ outstanding Pc.addsShared Pc.subsShared as t
  nonneg : 0 ≤ s.mem.sharedCount
  fastPath : ∀ t s', (s.threads t).pc = .fastAdd → next s (.run t) = some s' →
    s'.threads t = (s.threads t).obtain .shared
  requests : s.mem.exclusiveRequests = (owing Pc.addsRequest Pc.subsRequest as).card
  readers : (system T).Along Unnested (initial T) as →
    s.mem.sharedCount = (owing Pc.addsShared Pc.subsShared as).card
  inRange : (system T).Along Unnested (initial T) as → Fintype.card T < 2 ^ 31 →
    s.mem.sharedCount < 2 ^ 31 ∧ s.mem.exclusiveRequests < 2 ^ 31

/-! ### One step -/

section Advance

variable {t : T} {m m' : Mem T} {th th' : Thread}

/-- The two counters move at these points only, by one. -/
theorem advance_counters (h : advance t m th = some (m', th')) :
    m'.sharedCount + th.pc.subsShared.toNat = m.sharedCount + th.pc.addsShared.toNat ∧
    m'.exclusiveRequests + th.pc.subsRequest.toNat =
      m.exclusiveRequests + th.pc.addsRequest.toNat := by
  obtain ⟨held, pc⟩ := th
  cases pc
  all_goals
    simp only [advance, reduceCtorEq, Option.some.injEq, Option.map_eq_some_iff, Prod.mk.injEq] at h
  case slowAcquire | slowWoken | unsharedAcquire | lockAcquire | lockWoken | unlockAcquire =>
    obtain ⟨_, hm, rfl, -⟩ := h
    rw [(acquire_eq_some hm).2]
    exact ⟨rfl, rfl⟩
  case unsharedSub =>
    obtain ⟨rfl, -⟩ := h
    exact ⟨(Int.sub_add_cancel ..).trans (Int.add_zero _).symm, rfl⟩
  case lockSubRequest =>
    obtain ⟨rfl, -⟩ := h
    exact ⟨rfl, (Int.sub_add_cancel ..).trans (Int.add_zero _).symm⟩
  case fastAdd | slowAdd =>
    obtain ⟨rfl, -⟩ := h
    exact ⟨Int.add_zero _, rfl⟩
  case lockAddRequest =>
    obtain ⟨rfl, -⟩ := h
    exact ⟨rfl, Int.add_zero _⟩
  all_goals
    obtain ⟨rfl, -⟩ := h
    exact ⟨rfl, rfl⟩

/-- The fast path returns, since its test does not fail. -/
theorem advance_fastAdd (h : advance t m th = some (m', th')) (hpc : th.pc = .fastAdd)
    (h0 : 0 ≤ m.sharedCount) : th' = th.obtain .shared := by
  simp only [advance, hpc, if_pos h0, Option.some.injEq, Prod.mk.injEq] at h
  exact h.2.symm

/-- A thread inside an operation stays in it and holds what it held, or it has left it, and holds at
most one access more. -/
theorem advance_held (h : advance t m th = some (m', th')) :
    th'.held = th.held ∨ th'.pc = .outside ∧ ∃ access, th'.held = access :: th.held := by
  obtain ⟨held, pc⟩ := th
  cases pc
  all_goals
    simp only [advance, reduceCtorEq, Option.some.injEq, Option.map_eq_some_iff, Prod.mk.injEq] at h
  case fastAdd =>
    obtain ⟨-, rfl⟩ := h
    split_ifs
    · exact Or.inr ⟨rfl, .shared, rfl⟩
    · exact Or.inl rfl
  case slowRelease | lockRelease =>
    obtain ⟨-, rfl⟩ := h
    exact Or.inr ⟨rfl, _, rfl⟩
  case slowAcquire | slowWoken | unsharedAcquire | lockAcquire | lockWoken | unlockAcquire =>
    obtain ⟨_, -, -, rfl⟩ := h
    exact Or.inl rfl
  all_goals
    obtain ⟨-, rfl⟩ := h
    exact Or.inl rfl

end Advance

/-- A thread holds one access, or is in the middle of an operation, or neither. -/
structure Thread.Single (th : Thread) : Prop where
  inside : th.pc ≠ .outside → th.held = []
  held : th.held.length ≤ 1

theorem Thread.Single.goto {th : Thread} (h : th.Single) (hpc : th.pc ≠ .outside) (pc : Pc) :
    (th.goto pc).Single := ⟨fun _ => h.inside hpc, h.held⟩

theorem Thread.Single.begin {th th' : Thread} {op : Op} (h : th.Single) (hb : th.begin op = some th')
    (hfree : op = .lockShared ∨ op = .lock → th.held = []) : th'.Single := by
  obtain ⟨-, ⟨rfl, rfl⟩ | ⟨rfl, rfl⟩ | ⟨-, hheld, -⟩ | ⟨-, hheld, -⟩⟩ := begin_cases hb
  · exact ⟨fun _ => hfree (Or.inl rfl), h.held⟩
  · exact ⟨fun _ => hfree (Or.inr rfl), h.held⟩
  all_goals
    have hlength := h.held
    rw [hheld, List.length_cons] at hlength
    have hnil : th'.held = [] := List.length_eq_zero_iff.mp (by omega)
    exact ⟨fun _ => hnil, by omega⟩

theorem Thread.Single.advance {t : T} {m m' : Mem T} {th th' : Thread} (h : th.Single)
    (hadv : advance t m th = some (m', th')) : th'.Single := by
  have hnil : th.held = [] := by
    refine h.inside (fun hpc => ?_)
    simp only [ExclusivePrioritySharedMutex.advance, hpc, reduceCtorEq] at hadv
  rcases advance_held hadv with hheld | ⟨hpc, access, hheld⟩
  · rw [hnil] at hheld
    exact ⟨fun _ => hheld, by rw [hheld]; exact zero_le_one⟩
  · rw [hnil] at hheld
    exact ⟨fun hout => absurd hpc hout, by rw [hheld]; exact le_rfl⟩

theorem Thread.Single.sharedWeight_le {th : Thread} (h : th.Single) : sharedWeight th ≤ 1 := by
  have hcount : th.held.count .shared ≤ th.held.length := List.count_le_length
  unfold sharedWeight
  split_ifs with hpc
  · have hout : th.pc ≠ .outside := by
      rintro hout
      rcases hpc with hpc | hpc <;> simp [hout] at hpc
    rw [h.inside hout]
    exact le_rfl
  · exact hcount.trans h.held

/-! ### Runs -/

section Runs

variable [DecidableEq T] [Fintype T] {s s' : State T} {a : Label T} {as : List (Label T)}

/-- A step that is not an atomic one leaves what quiet moves leave. -/
theorem next_quiet {w : Thread → ℕ} (hquiet : ∀ th th', Quiet th th' → w th' = w th)
    (h : next s a = some s') (ha : ∀ u, a ≠ .run u) (t : T) :
    w (s'.threads t) = w (s.threads t) := by
  apply next_preserves (I := fun r => w (r.threads t) = w (s.threads t)) rfl h
  · intro u m' th' hu
    exact absurd hu (ha u)
  · intro r u th' hr hq
    refine setThread_of (P := fun th => w th = w (s.threads t)) r ?_ hr
    rintro rfl
    exact (hquiet _ _ hq).trans hr

/-- What a thread contributes to a counter moves with its increments and decrements, and with no
other step of the system. -/
theorem next_balance {w : Thread → ℕ} {adds subs : Pc → Bool}
    (hquiet : ∀ th th', Quiet th th' → w th' = w th)
    (hadv : ∀ u m' th', advance u s.mem (s.threads u) = some (m', th') →
      (adds (s.threads u).pc).toNat + w (s.threads u) = (subs (s.threads u).pc).toNat + w th')
    (h : next s a = some s') (t : T) :
    (StepsFrom adds t s a).toNat + w (s.threads t) =
      (StepsFrom subs t s a).toNat + w (s'.threads t) := by
  cases a with
  | run u =>
      obtain ⟨m', th', hu, rfl⟩ := next_run h
      by_cases htu : u = t
      · subst u
        simp only [StepsFrom, decide_true, Bool.true_and, setThread_self]
        exact hadv t m' th' hu
      · simp only [StepsFrom, htu, decide_false, Bool.false_and, setThread_ne s th' (Ne.symm htu)]
  | call | notify | spurious =>
      rw [next_quiet hquiet h (by rintro u ⟨⟩) t]
      rfl

/-- What is outstanding of a thread in a run is what it contributes to the counter at the end. -/
theorem outstanding_eq {w : Thread → ℕ} {adds subs : Pc → Bool} (h0 : w ⟨[], .outside⟩ = 0)
    (hquiet : ∀ th th', Quiet th th' → w th' = w th)
    (hadv : ∀ u (s : State T) m' th', Accounted s →
      advance u s.mem (s.threads u) = some (m', th') →
      (adds (s.threads u).pc).toNat + w (s.threads u) = (subs (s.threads u).pc).toNat + w th')
    (h : (system T).exec (initial T) as = some s) (t : T) :
    outstanding adds subs as t = w (s.threads t) := by
  have hrun := TransitionSystem.countSteps_balance (S := system T) (I := Accounted)
    (P := StepsFrom adds t) (Q := StepsFrom subs t) (w := fun s => w (s.threads t))
    (fun s a s' ha hs =>
      ⟨ha.next hs, next_balance hquiet (fun u m' th' => hadv u s m' th' ha) hs t⟩)
    accounted_initial h
  have hstart : w ((initial T).threads t) = 0 := h0
  unfold outstanding
  omega

/-- Of `sharedCount_`: the accesses it holds, and the one it is about to return with or to give
back. -/
theorem outstanding_shared (h : (system T).exec (initial T) as = some s) (t : T) :
    outstanding Pc.addsShared Pc.subsShared as t = sharedWeight (s.threads t) := by
  refine outstanding_eq rfl (fun _ _ hq => hq.weights.1) ?_ h t
  intro u s m' th' ha hadv
  have hweight := advance_sharedCount hadv ha.shared_nonneg
  have hcounter := (advance_counters hadv).1
  omega

theorem outstanding_requests (h : (system T).exec (initial T) as = some s) (t : T) :
    outstanding Pc.addsRequest Pc.subsRequest as t = requestWeight (s.threads t) := by
  refine outstanding_eq rfl (fun _ _ hq => hq.weights.2.2) ?_ h t
  intro u s m' th' _ hadv
  have hweight := advance_exclusiveRequests hadv
  have hcounter := (advance_counters hadv).2
  omega

theorem single_next (hs : ∀ t, (s.threads t).Single) (ha : Unnested s a)
    (h : next s a = some s') : ∀ t, (s'.threads t).Single := by
  have hgoto : ∀ {r : State T} {u : T} {pc pc' : Pc}, (∀ t, (r.threads t).Single) →
      (r.threads u).pc = pc → pc ≠ .outside →
      ∀ t, ((r.setThread u ((r.threads u).goto pc')).threads t).Single := by
    intro r u pc pc' hr hpc hne t
    refine setThread_of r (fun _ => (hr u).goto ?_ pc') (hr t)
    rwa [hpc]
  have hasleep : ∀ cv, Pc.asleep cv ≠ .outside := by
    rintro (_ | _) <;> exact Pc.noConfusion
  cases a with
  | call u op =>
      obtain ⟨th', hb, rfl⟩ := Option.map_eq_some_iff.mp h
      refine fun t => setThread_of s (fun _ => (hs u).begin hb ?_) (hs t)
      rintro (rfl | rfl) <;> exact ha
  | run u =>
      obtain ⟨m', th', hadv, rfl⟩ := next_run h
      exact fun t => setThread_of s (fun _ => (hs u).advance hadv) (hs t)
  | notify u woken =>
      obtain ⟨cv, pc, hn, hw⟩ := next_notify h
      have hmid : ∀ t, ((s.setThread u ((s.threads u).goto pc)).threads t).Single := by
        rcases notifies_cases hn with ⟨hpc, -⟩ | ⟨hpc, -⟩ <;> exact hgoto hs hpc Pc.noConfusion
      rcases wake_cases hw with ⟨v, -, hv, rfl⟩ | ⟨-, -, rfl⟩
      · exact hgoto hmid hv (hasleep cv)
      · exact hmid
  | spurious u =>
      obtain ⟨cv, hpc, rfl⟩ := next_spurious h
      exact hgoto hs hpc (hasleep cv)

theorem single_of_exec (h : (system T).exec (initial T) as = some s)
    (ha : (system T).Along Unnested (initial T) as) (t : T) : (s.threads t).Single := by
  have hstart : ∀ t, ((initial T).threads t).Single := fun t => ⟨fun _ => rfl, zero_le_one⟩
  have hall := ha.throughout (I := fun s => ∀ t, (s.threads t).Single)
    (fun s a s' hs ha h => single_next hs ha h) hstart
  exact hall.last h t

/-- Contributions of at most one make the total a number of contributors. -/
theorem total_eq_card_owing {w : Thread → ℕ} {adds subs : Pc → Bool}
    (hw : ∀ t, outstanding adds subs as t = w (s.threads t)) (hle : ∀ t, w (s.threads t) ≤ 1) :
    total w s.threads = (owing adds subs as).card := by
  rw [owing, Finset.card_filter, total]
  apply Finset.sum_congr rfl
  intro t _
  have hone := hle t
  rw [hw t]
  split_ifs with hpos <;> omega

theorem requestWeight_le_one (th : Thread) : requestWeight th ≤ 1 := by
  unfold requestWeight
  split_ifs <;> omega

/-- After any run `sharedCount_` is the number of increments in `lock_shared` that have not been
decremented in `unlock_shared`, a number of threads when none nests its accesses; it is not negative,
an increment of the fast path is followed by the return, and `exclusiveRequests_` is the number of
threads that have announced a request in `lock` and not withdrawn it. -/
theorem readersAccounted (h : (system T).exec (initial T) as = some s) :
    ReadersAccounted as s := by
  have ha : Accounted s := accounted_of_reachable (TransitionSystem.execWhile_reachedBy .start h)
  have hshared := outstanding_shared h
  have hrequests : s.mem.exclusiveRequests = (owing Pc.addsRequest Pc.subsRequest as).card := by
    rw [ha.requests,
      total_eq_card_owing (outstanding_requests h) (fun t => requestWeight_le_one _)]
  have hreaders : (system T).Along Unnested (initial T) as →
      s.mem.sharedCount = (owing Pc.addsShared Pc.subsShared as).card := by
    intro hun
    rw [ha.shared,
      total_eq_card_owing hshared (fun t => (single_of_exec h hun t).sharedWeight_le)]
  constructor
  case shared =>
    rw [ha.shared, total, Nat.cast_sum]
    exact Finset.sum_congr rfl (fun t _ => (hshared t).symm)
  case decrements =>
    intro t
    rw [hshared t]
    exact Int.natCast_nonneg _
  case nonneg => exact ha.shared_nonneg
  case fastPath =>
    intro t s' hpc hs'
    obtain ⟨m', th', hadv, rfl⟩ := next_run hs'
    exact (setThread_self s t th').trans (advance_fastAdd hadv hpc ha.shared_nonneg)
  case requests => exact hrequests
  case readers => exact hreaders
  case inRange =>
    intro hun hcard
    have hle : ∀ u : Finset T, u.card ≤ Fintype.card T := Finset.card_le_univ
    have hleShared := hle (owing Pc.addsShared Pc.subsShared as)
    have hleRequests := hle (owing Pc.addsRequest Pc.subsRequest as)
    rw [hreaders hun, hrequests]
    omega

end Runs

/-- Two readers are inside, the second past a writer that has announced itself since its load. -/
def readersAndWriter {T : Type*} (first second writer : T) : List (Label T) :=
  .call first .lockShared :: List.replicate 2 (.run first) ++ .call second .lockShared ::
    .run second :: .call writer .lock :: .run writer :: [.run second]

theorem readersAccounted_three_threads :
    ∃ s : State (Fin 3), (system (Fin 3)).exec (initial (Fin 3)) (readersAndWriter 0 1 2) = some s ∧
      s.mem.sharedCount = 2 ∧ s.mem.exclusiveRequests = 1 ∧
      (owing Pc.addsShared Pc.subsShared (readersAndWriter (0 : Fin 3) 1 2)).card = 2 ∧
      (owing Pc.addsRequest Pc.subsRequest (readersAndWriter (0 : Fin 3) 1 2)).card = 1 := by
  have hrun : ((system (Fin 3)).execWhile Unnested (initial (Fin 3))
      (readersAndWriter 0 1 2)).any (fun s =>
        s.mem.sharedCount = 2 ∧ s.mem.exclusiveRequests = 1) = true := by decide
  obtain ⟨s, hs, hstate⟩ := (Option.any_eq_true ..).mp hrun
  obtain ⟨hshared, hrequests⟩ := of_decide_eq_true hstate
  obtain ⟨hexec, hun⟩ := TransitionSystem.execWhile_eq_some.mp hs
  have ha := readersAccounted hexec
  have hreaders := ha.readers hun
  have hwriters := ha.requests
  rw [hshared] at hreaders
  rw [hrequests] at hwriters
  exact ⟨s, hexec, hshared, hrequests, by omega, by omega⟩

end SocketLib.ExclusivePrioritySharedMutex
