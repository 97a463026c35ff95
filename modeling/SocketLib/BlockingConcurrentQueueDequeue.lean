import SocketLib.BlockingConcurrentQueueUnits

/-!
# A dequeue with units in hand

The loop of `wait_dequeue_bulk_timed` has no other exit than having as many elements as units. It
comes to it: when the other threads stand still, wherever they stand, one round over the producers
is enough, in whatever order it goes (`dequeue_alone`). What the others have added to the counts,
and so hide from this thread, is no more than what they have units for themselves.
-/

namespace SocketLib.BlockingConcurrentQueue

open TransitionSystem ThreadFamily

variable {T P α : Type*}

/-- What a thread in a sub-queue has added to the optimistic count there, and not yet claimed or
given back. -/
def wants : ConcurrentQueue.Point P α → ℕ
  | .reloadTail _ _ _ desired _ _ | .giveBack _ _ _ desired => desired
  | .addSurplus _ _ _ surplus actual => surplus + actual
  | .claim _ _ _ actual => actual
  | _ => 0

theorem sum_inflight [DecidableEq P] [Fintype P] (x : ConcurrentQueue.Point P α) :
    ∑ p, x.inflight p = wants x := by
  have hone : ∀ (q : P) (role : OptimisticRole),
      ∑ p, (OptimisticClaims.grant (if q = p then role else .idle) +
        OptimisticClaims.owed (if q = p then role else .idle)) =
      OptimisticClaims.grant role + OptimisticClaims.owed role := by
    intro q role
    rw [Finset.sum_eq_single q]
    · rw [if_pos rfl]
    · intro p _ hp
      rw [if_neg hp.symm]
      rfl
    · exact fun h => absurd (Finset.mem_univ q) h
  cases x with
  | loadCount q max batch tail overcommit | addCount q max batch desired overcommit =>
      exact hone q (.loaded overcommit)
  | reloadTail q max batch desired overcommit mine =>
      exact (hone q (.counted desired overcommit mine)).trans (Nat.zero_add _)
  | addSurplus q max batch surplus actual =>
      exact (hone q (.granted surplus actual)).trans (Nat.add_comm _ _)
  | claim q max batch actual => exact hone q (.granted 0 actual)
  | giveBack q max batch desired => exact (hone q (.refused desired)).trans (Nat.zero_add _)
  | _ => exact Finset.sum_eq_zero (fun _ _ => rfl)

theorem wants_of_not_dequeuing {x : ConcurrentQueue.Point P α} (h : x.dequeuing = false) :
    wants x = 0 := by
  cases x <;> first | rfl | cases h

/-- Nobody hides more from the others than he has units for. -/
theorem Thread.Sound.wants_le {th : Thread P α} (hs : th.Sound) :
    wants th.inner ≤ th.remaining := by
  obtain ⟨point, x, y⟩ := th
  obtain ⟨hplaced, hfits⟩ := hs
  cases point with
  | dequeue max batch =>
      obtain ⟨hle, -, hinner⟩ := hplaced
      rcases hinner with hout | hserves
      · obtain rfl : x = .outside := hout
        exact Nat.zero_le _
      · cases x <;>
          simp only [Serves, ConcurrentQueue.Point.Fits, wants, Thread.remaining, held] at * <;>
          omega
  | enqueue => exact (wants_of_not_dequeuing hplaced.1).le
  | _ =>
      obtain rfl : x = .outside := hplaced.1
      exact le_rfl

section Alone

variable [DecidableEq T] [DecidableEq P] [Fintype T] {maxSpins : ℕ} {s s' : State T P α} {t : T}

/-- The steps of one thread in the queue's own functions and in the inner queue. -/
def Alone (t : T) (s : State T P α) (a : Label T P α) : Prop :=
  InRange s a ∧ (a = .run t ∨ ∃ choice, a = .inner t choice)

/-- The producers that a dequeue goes to, and the ends of its rounds. -/
def Label.visited : Label T P α → Option (Option P)
  | .inner _ choice => choice.visited
  | _ => none

/-- What a thread does alone in the inner queue, it does in the whole. -/
theorem leadsShowing_of_inner (maxSpins : ℕ) {i : ConcurrentQueue.State T P α}
    {visits : List (Option P)}
    (h : (ConcurrentQueue.system T P α).LeadsShowing (ConcurrentQueue.Alone t)
      ConcurrentQueue.Label.visited s.inner visits i) :
    ∃ s', (system T P α maxSpins).LeadsShowing (Alone t) Label.visited s visits s' ∧ s'.inner = i ∧
      ∀ u, (s'.threads u).point = (s.threads u).point ∧
        (s'.threads u).sema = (s.threads u).sema := by
  induction h with
  | refl => exact ⟨s, .refl, rfl, fun _ => ⟨rfl, rfl⟩⟩
  | tail _ hguard hnext ih =>
      obtain ⟨s', hleads, rfl, hsame⟩ := ih
      obtain ⟨hrange, choice, rfl⟩ := hguard
      obtain ⟨⟨subs, x⟩, hact, rfl⟩ := Option.map_eq_some_iff.mp hnext
      have hnext' : next maxSpins s' (.inner t choice) =
          some (s'.setThread t s'.mem subs { s'.threads t with inner := x }) := by
        rw [next]
        exact congrArg (Option.map _) hact
      have hlast := LeadsShowing.tail (S := system T P α maxSpins) (a := .inner t choice) hleads
        ⟨hrange, Or.inr ⟨choice, rfl⟩⟩ hnext'
      refine ⟨_, hlast, setThread_inner .., fun u => ?_⟩
      by_cases hu : u = t
      · subst u
        rw [setThread_self]
        exact hsame t
      · rw [setThread_ne _ _ _ _ hu]
        exact hsame u

variable [Fintype P]

/-- What a round over the producers finds is enough for the units of each thread. -/
theorem remaining_le_found (hr : (system T P α maxSpins).ReachedBy InRange s) (t : T)
    (ht : wants (s.threads t).inner = 0) :
    (s.threads t).remaining ≤ ∑ p, s.inner.found p := by
  have hsound := sound_of_reachable hr.reachable
  have hone : ∀ p, (s.inner.bulk.waiting p).length ≤
      s.inner.found p + total (ConcurrentQueue.Point.inflight p) s.inner.points := by
    intro p
    have hlength : (s.subs p).enqueued.length = (s.subs p).tailIndex :=
      (ConcurrentQueue.stored_of_reachedBy (inner_reachedBy hr)).length p
    have hfound := ConcurrentQueue.found_eq (inner_reachedBy hr) p
    change ((s.subs p).enqueued.drop (s.subs p).headIndex).length ≤ _
    change s.inner.found p = (s.subs p).tailIndex - ((s.subs p).headIndex + _) at hfound
    rw [List.length_drop]
    omega
  have hwaiting : ∑ p, (s.inner.bulk.waiting p).length ≤
      ∑ p, s.inner.found p + ∑ u, wants (s.threads u).inner :=
    calc ∑ p, (s.inner.bulk.waiting p).length
        ≤ ∑ p, (s.inner.found p + ∑ u, (s.threads u).inner.inflight p) :=
          Finset.sum_le_sum (fun p _ => hone p)
      _ = ∑ p, s.inner.found p + ∑ u, ∑ p, (s.threads u).inner.inflight p := by
          rw [Finset.sum_add_distrib, Finset.sum_comm]
      _ = ∑ p, s.inner.found p + ∑ u, wants (s.threads u).inner :=
          congrArg _ (Finset.sum_congr rfl (fun u _ => sum_inflight (s.threads u).inner))
  have hothers : (s.threads t).remaining + ∑ u, wants (s.threads u).inner ≤
      total Thread.remaining s.threads := by
    have hsplit : total (fun th => th.remaining - wants th.inner) s.threads +
        ∑ u, wants (s.threads u).inner = total Thread.remaining s.threads := by
      refine Finset.sum_add_distrib.symm.trans (Finset.sum_congr rfl (fun u _ => ?_))
      exact Nat.sub_add_cancel (hsound u).wants_le
    have hmine := le_total (fun th => th.remaining - wants th.inner) s.threads t
    omega
  have hunits := waiting_eq hr
  omega

omit [Fintype P] in
/-- A step of a thread alone, and where it has got. -/
theorem step_alone {a : Label T P α} {m : LightweightSemaphore.Mem}
    {subs : P → ConcurrentQueue.Sub α} {th : Thread P α} (hrange : InRange s a)
    (ha : a = .run t ∨ ∃ choice, a = .inner t choice)
    (hnext : next maxSpins s a = some (s.setThread t m subs th)) :
    ∃ s', (system T P α maxSpins).LeadsShowing (Alone t) Label.visited s a.visited.toList s' ∧
      s'.threads t = th ∧ s'.subs = subs ∧ ∀ u, u ≠ t → s'.threads u = s.threads u :=
  ⟨s.setThread t m subs th, .single ⟨hrange, ha⟩ hnext, setThread_self .., rfl,
    fun _ hu => setThread_ne _ _ _ _ hu⟩

omit [Fintype P] in
theorem run_alone (maxSpins : ℕ) {m : LightweightSemaphore.Mem} {th : Thread P α}
    (hact : act s.mem (s.threads t) = some (m, th)) :
    ∃ s', (system T P α maxSpins).LeadsShowing (Alone t) Label.visited s [] s' ∧
      s'.threads t = th ∧ s'.subs = s.subs ∧ ∀ u, u ≠ t → s'.threads u = s.threads u := by
  apply step_alone (a := .run t) trivial (Or.inl rfl)
  rw [next, hact]
  rfl

/-- One call of `inner.try_dequeue_bulk` gets as many elements as are missing. -/
theorem call_alone {max : ℕ} {batch : List (P × α)} {ps : List P} (hps : ps.Nodup)
    (hall : ∀ p, p ∈ ps) (hr : (system T P α maxSpins).ReachedBy InRange s)
    (hx : s.threads t = ⟨.dequeue max batch, .nextProducer (max - batch.length) [], .outside⟩)
    (hnear : ∀ p, ConcurrentQueue.Near ((s.subs p).tailIndex + (s.subs p).dequeueOvercommit)
      (s.subs p).dequeueOptimisticCount) :
    ∃ s' got visited, visited <+: ps ∧
      (system T P α maxSpins).LeadsShowing (Alone t) Label.visited s
        (visited.map some ++ [none]) s' ∧
      s'.threads t = ⟨.dequeue max batch, .dequeueReturn got, .outside⟩ ∧
      got.length = max - batch.length ∧ ∀ u, u ≠ t → s'.threads u = s.threads u := by
  have hpoint : s.inner.points t = .nextProducer (max - batch.length) [] :=
    congrArg Thread.inner hx
  obtain ⟨i, got, visited, hprefix, hleads, hothers, hi, hlength⟩ :=
    ConcurrentQueue.pass_alone hps (inner_reachedBy hr) hpoint (Nat.zero_le _) (fun p _ => hnear p)
  obtain ⟨s₁, hleads₁, rfl, hsame₁⟩ := leadsShowing_of_inner maxSpins hleads
  have hthread₁ : s₁.threads t =
      ⟨.dequeue max batch, .nextProducer (max - batch.length) got, .outside⟩ := by
    refine Thread.ext ?_ hi ?_
    · rw [(hsame₁ t).1, hx]
    · rw [(hsame₁ t).2, hx]
  have hothers₁ : ∀ u, u ≠ t → s₁.threads u = s.threads u :=
    fun u hu => Thread.ext (hsame₁ u).1 (hothers u hu) (hsame₁ u).2
  have hwants : wants (s.threads t).inner = 0 := by
    rw [hx]
    rfl
  have hfound := remaining_le_found hr t hwants
  have hroom : (s.threads t).remaining = max - batch.length := by
    rw [hx]
    exact congrArg (max - ·) (Nat.add_zero _)
  have hgot : got.length = max - batch.length := by
    have hsum : (ps.map s.inner.found).sum = ∑ p, s.inner.found p := by
      rw [← List.sum_toFinset _ hps]
      exact Finset.sum_congr (Finset.eq_univ_of_forall fun p => List.mem_toFinset.mpr (hall p))
        (fun _ _ => rfl)
    rw [hsum, List.length_nil] at hlength
    change min (∑ p, s.inner.found p) _ = _ at hlength
    omega
  have hfinish : next maxSpins s₁ (.inner t .finish) = some (s₁.setThread t s₁.mem s₁.subs
      { s₁.threads t with inner := .dequeueReturn got }) := by
    rw [next, hthread₁]
    rfl
  obtain ⟨s₂, hleads₂, hthread₂, -, hothers₂⟩ := step_alone (a := .inner t .finish)
    (by
      intro c hc
      change c ∈ (s₁.threads t).inner.compares s₁.subs at hc
      rw [hthread₁] at hc
      cases hc)
    (Or.inr ⟨.finish, rfl⟩) hfinish
  refine ⟨s₂, got, visited, hprefix, hleads₁.trans hleads₂, ?_, hgot,
    fun u hu => (hothers₂ u hu).trans (hothers₁ u hu)⟩
  rw [hthread₂, hthread₁]

/-- With the other threads wherever they are, a thread that has units and runs alone returns as many
elements. It goes round the producers once at most, in any order there is of them. -/
theorem dequeue_alone {max : ℕ} {batch : List (P × α)} {ps : List P} (hps : ps.Nodup)
    (hall : ∀ p, p ∈ ps) (hr : (system T P α maxSpins).ReachedBy InRange s)
    (hx : s.threads t = ⟨.dequeue max batch, .outside, .outside⟩)
    (hnear : ∀ p, ConcurrentQueue.Near ((s.subs p).tailIndex + (s.subs p).dequeueOvercommit)
      (s.subs p).dequeueOptimisticCount) :
    ∃ s' got round, (system T P α maxSpins).LeadsShowing (Alone t) Label.visited s round s' ∧
      (round = [] ∨ ∃ visited, visited <+: ps ∧ round = visited.map some ++ [none]) ∧
      s'.threads t = ⟨.returning (batch ++ got), .outside, .outside⟩ ∧
      (batch ++ got).length = max ∧ ∀ u, u ≠ t → s'.threads u = s.threads u := by
  have hle : batch.length ≤ max := by
    have hplaced := (sound_of_reachable hr.reachable t).1
    rw [hx] at hplaced
    exact hplaced.1
  by_cases hfull : batch.length = max
  · obtain ⟨s₁, hleads₁, hthread₁, -, hothers₁⟩ := run_alone maxSpins (by
      rw [hx, act, if_pos hfull])
    refine ⟨s₁, [], [], hleads₁, Or.inl rfl, ?_, ?_, hothers₁⟩
    · rw [hthread₁, List.append_nil]
    · rwa [List.append_nil]
  · obtain ⟨s₁, hleads₁, hthread₁, hsubs₁, hothers₁⟩ := run_alone maxSpins (by
      rw [hx, act, if_neg hfull])
    have hr₁ := hr.leadsBy (hleads₁.leadsBy.mono (fun _ _ ha => ha.1))
    obtain ⟨s₂, got, visited, hprefix, hleads₂, hthread₂, hgot, hothers₂⟩ :=
      call_alone hps hall hr₁ hthread₁ (fun p => by rw [hsubs₁]; exact hnear p)
    have hlength : (batch ++ got).length = max := by
      rw [List.length_append]
      omega
    obtain ⟨s₃, hleads₃, hthread₃, -, hothers₃⟩ := run_alone maxSpins (by
      rw [hthread₂, act])
    obtain ⟨s₄, hleads₄, hthread₄, -, hothers₄⟩ := run_alone maxSpins (by
      rw [hthread₃, act, if_pos hlength])
    have hleads := ((hleads₁.trans hleads₂).trans hleads₃).trans hleads₄
    rw [List.nil_append, List.append_nil, List.append_nil] at hleads
    refine ⟨s₄, got, _, hleads, Or.inr ⟨visited, hprefix, rfl⟩, hthread₄, hlength, fun u hu => ?_⟩
    rw [hothers₄ u hu, hothers₃ u hu, hothers₂ u hu, hothers₁ u hu]

end Alone

theorem dequeue_alone_twoConsumers :
    ∃ s s' : State (Fin 3) (Fin 2) ℕ, (system (Fin 3) (Fin 2) ℕ 0).ReachedBy InRange s ∧
      wants (s.threads 2).inner = 1 ∧
      ∃ got round, (system (Fin 3) (Fin 2) ℕ 0).LeadsShowing (Alone 1) Label.visited s round s' ∧
        (round = [] ∨ ∃ visited, visited <+: [1, 0] ∧ round = visited.map some ++ [none]) ∧
        got.length = 1 ∧ s'.threads 1 = ⟨.returning got, .outside, .outside⟩ := by
  have hrun : ((system (Fin 3) (Fin 2) ℕ 0).execWhile InRange (system (Fin 3) (Fin 2) ℕ 0).start
      (twoConsumers 0 1 2 0)).any (fun s => s.threads 1 = ⟨.dequeue 1 [], .outside, .outside⟩ ∧
        wants (s.threads 2).inner = 1 ∧ ∀ p, ConcurrentQueue.Near
          ((s.subs p).tailIndex + (s.subs p).dequeueOvercommit)
          (s.subs p).dequeueOptimisticCount) = true := by decide
  obtain ⟨s, hr, hs⟩ := exists_reachedBy_of_execWhile hrun
  rw [decide_eq_true_eq] at hs
  obtain ⟨s', got, round, hleads, hround, hthread, hlength, -⟩ :=
    dequeue_alone (show [(1 : Fin 2), 0].Nodup by decide) (by decide) hr hs.1 hs.2.2
  exact ⟨s, s', hr, hs.2.1, got, round, hleads, hround, hlength, hthread⟩

end SocketLib.BlockingConcurrentQueue
