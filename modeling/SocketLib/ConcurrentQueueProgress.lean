import SocketLib.ConcurrentQueueElements

/-!
# A dequeue that runs alone

Enqueues and bulk dequeues never wait for one another in a sub-queue (`no_waiting_in_subQueues`).
That is said of the steps of the model, where finding the sub-queue of a producer and getting a
block are one step each: in the source these two wait for a thread that resizes the hash of the
producers, and repeat failed exchanges on the free list. A dequeue that goes round the
producers while the other threads stand still, wherever they stand, gets out of every sub-queue what
the counts say there is, up to its maximum (`pass_alone`). That is what is enqueued and not claimed
less what those who stand in this sub-queue have added to the count (`found_eq`).
-/

namespace SocketLib.ConcurrentQueue

open TransitionSystem ThreadFamily

variable {T P α : Type*} [DecidableEq T] [DecidableEq P] [Fintype T]

/-- The steps of one thread inside the queue. -/
def Alone (t : T) (s : State T P α) (a : Label T P α) : Prop :=
  InRange s a ∧ ∃ choice, a = .run t choice

/-- The producers that a dequeue goes to, and the end of its round. -/
def Choice.visited : Choice P → Option (Option P)
  | .visit p => some (some p)
  | .finish => some none
  | _ => none

def Label.visited : Label T P α → Option (Option P)
  | .run _ choice => choice.visited
  | _ => none

/-- A thread has got from one state to the other alone, with these visits, and has touched one
sub-queue only. -/
structure Visits (t : T) (p : P) (visits : List (Option P)) (s s' : State T P α) : Prop where
  leads : (system T P α).LeadsShowing (Alone t) Label.visited s visits s'
  others : ∀ u, u ≠ t → s'.points u = s.points u
  elsewhere : ∀ q, q ≠ p → s'.subs q = s.subs q

/-- What a dequeue takes for available in a sub-queue when nobody else moves. -/
def State.found (s : State T P α) (p : P) : ℕ :=
  (s.subs p).tailIndex + (s.subs p).dequeueOvercommit - (s.subs p).dequeueOptimisticCount

variable {s s' s'' : State T P α} {t : T} {p : P} {visits visits' : List (Option P)}
  {subs' : P → Sub α} {x x' : Point P α}
  {max : ℕ} {batch : List (P × α)}

theorem Visits.refl (t : T) (p : P) (s : State T P α) : Visits t p [] s s :=
  ⟨.refl, fun _ _ => rfl, fun _ _ => rfl⟩

theorem Visits.trans (h : Visits t p visits s s') (h' : Visits t p visits' s' s'') :
    Visits t p (visits ++ visits') s s'' :=
  ⟨h.leads.trans h'.leads, fun u hu => (h'.others u hu).trans (h.others u hu),
    fun q hq => (h'.elsewhere q hq).trans (h.elsewhere q hq)⟩

theorem Visits.step (h : Visits t p visits s s') (choice : Choice P) (hx : s'.points t = x)
    (hact : act s'.subs x choice = some (subs', x'))
    (hrange : ∀ c ∈ x.compares s'.subs, Near c.1 c.2)
    (helsewhere : ∀ q, q ≠ p → subs' q = s'.subs q) :
    ∃ s'', Visits t p (visits ++ choice.visited.toList) s s'' ∧
      s''.points t = x' ∧ s''.subs = subs' := by
  subst x
  have hnext : next s' (.run t choice) = some (s'.setPoint t subs' x') := by
    rw [next, hact]
    rfl
  refine ⟨s'.setPoint t subs' x', h.trans ⟨?_, fun u hu => ?_, helsewhere⟩, ?_, rfl⟩
  · exact LeadsShowing.single (S := system T P α) (a := .run t choice) ⟨hrange, choice, rfl⟩ hnext
  · exact setPoint_ne _ _ _ hu
  · exact setPoint_self ..

theorem Visits.reachedBy (h : Visits t p visits s s') (hr : (system T P α).ReachedBy InRange s) :
    (system T P α).ReachedBy InRange s' :=
  hr.leadsBy (h.leads.leadsBy.mono (fun _ _ ha => ha.1))

/-- A thread takes all that it has moved the head past. -/
theorem takes_alone {index stop : ℕ} (hr : (system T P α).ReachedBy InRange s)
    (hx : s.points t = .take p max batch index stop) :
    ∃ s' got, Visits t p [] s s' ∧ s'.points t = .nextProducer max (batch ++ got) ∧
      got.length = stop - index := by
  induction hn : stop - index generalizing s batch index with
  | zero =>
      have hact : act s.subs (.take p max batch index stop) .go =
          some (s.subs, .nextProducer max batch) := if_neg (by omega)
      obtain ⟨s', h, hx', -⟩ := (Visits.refl t p s).step .go hx hact nofun (fun _ _ => rfl)
      exact ⟨s', [], h, by rwa [List.append_nil], rfl⟩
  | succ n ih =>
      obtain ⟨y, -, hy⟩ := take_ready hr hx (by omega)
      have hact : act s.subs (.take p max batch index stop) .go =
          some (Function.update s.subs p { s.subs p with
            elements := Function.update (s.subs p).elements index none },
            .take p max (batch ++ [(p, y)]) (index + 1) stop) := by
        rw [act, if_pos (by omega), hy]
      obtain ⟨s₁, h₁, hx₁, -⟩ := (Visits.refl t p s).step .go hx hact nofun
        (fun q hq => Function.update_of_ne hq ..)
      obtain ⟨s', got, h, hx', hlength⟩ := ih (h₁.reachedBy hr) hx₁ (by omega)
      refine ⟨s', (p, y) :: got, h₁.trans h, ?_, by rw [List.length_cons, hlength]⟩
      rw [hx', List.append_assoc]
      rfl

/-- A thread visits one sub-queue alone. -/
theorem visit_alone (hr : (system T P α).ReachedBy InRange s)
    (hx : s.points t = .nextProducer max batch) (hlt : batch.length < max)
    (hnear : Near ((s.subs p).tailIndex + (s.subs p).dequeueOvercommit)
      (s.subs p).dequeueOptimisticCount) :
    ∃ s' got, Visits t p [some p] s s' ∧ s'.points t = .nextProducer max (batch ++ got) ∧
      got.length = min (s.found p) (max - batch.length) := by
  obtain ⟨s₁, h₁, hx₁, hs₁⟩ := (Visits.refl t p s).step (.visit p) hx
    (if_neg hlt.ne) nofun (fun _ _ => rfl)
  obtain ⟨s₂, h₂, hx₂, hs₂⟩ := h₁.step .go hx₁ rfl nofun (fun _ _ => rfl)
  obtain ⟨s₃, h₃, hx₃, hs₃⟩ := h₂.step .go hx₂ rfl nofun (fun _ _ => rfl)
  obtain ⟨s₄, h₄, hx₄, hs₄⟩ := h₃.step .go hx₃ rfl nofun (fun _ _ => rfl)
  rw [hs₁, hs₂, hs₁, hs₃, hs₂, hs₁] at hx₄
  have hsubs : s₄.subs = s.subs := hs₄.trans (hs₃.trans (hs₂.trans hs₁))
  unfold State.found
  by_cases hcount : (s.subs p).dequeueOptimisticCount <
      (s.subs p).tailIndex + (s.subs p).dequeueOvercommit
  · rw [if_pos ((circularLessThan_ahead hnear).mpr hcount), ahead_toNat hnear hcount] at hx₄
    obtain ⟨s₅, h₅, hx₅, hs₅⟩ := h₄.step .go hx₄ rfl nofun
      (fun q hq => Function.update_of_ne hq ..)
    have htail : (s₅.subs p).tailIndex = (s.subs p).tailIndex := by
      rw [hs₅, Function.update_self, hsubs]
    rw [hsubs] at hx₅
    obtain ⟨s₆, h₆, hx₆, hs₆⟩ := h₅.step .go hx₅ rfl
      (by
        intro c hc
        obtain rfl := Option.some.inj hc
        rwa [htail])
      (fun _ _ => rfl)
    rw [htail, if_pos ((circularLessThan_ahead hnear).mpr hcount), ahead_toNat hnear hcount,
      if_neg (min_le_left ..).not_gt] at hx₆
    obtain ⟨s₇, h₇, hx₇, hs₇⟩ := h₆.step .go hx₆ rfl nofun
      (fun q hq => Function.update_of_ne hq ..)
    obtain ⟨s₈, got, h₈, hx₈, hlength⟩ := takes_alone (h₇.reachedBy hr) hx₇
    exact ⟨s₈, got, h₇.trans h₈, hx₈, by rw [hlength, Nat.add_sub_cancel_left]⟩
  · rw [if_neg (fun h => hcount ((circularLessThan_ahead hnear).mp h))] at hx₄
    refine ⟨s₄, [], h₄, by rwa [List.append_nil], ?_⟩
    rw [Nat.sub_eq_zero_of_le (not_lt.mp hcount), Nat.zero_min]
    rfl

/-- A thread goes round the producers alone, one after the other until it has what it wants. -/
theorem pass_alone {ps : List P} (hps : ps.Nodup) (hr : (system T P α).ReachedBy InRange s)
    (hx : s.points t = .nextProducer max batch) (hle : batch.length ≤ max)
    (hnear : ∀ p ∈ ps, Near ((s.subs p).tailIndex + (s.subs p).dequeueOvercommit)
      (s.subs p).dequeueOptimisticCount) :
    ∃ s' got visited, visited <+: ps ∧
      (system T P α).LeadsShowing (Alone t) Label.visited s (visited.map some) s' ∧
      (∀ u, u ≠ t → s'.points u = s.points u) ∧ s'.points t = .nextProducer max (batch ++ got) ∧
      min (ps.map s.found).sum (max - batch.length) = got.length := by
  induction ps generalizing s batch with
  | nil =>
      refine ⟨s, [], [], List.nil_prefix, .refl, fun _ _ => rfl, by rwa [List.append_nil], ?_⟩
      exact Nat.zero_min _
  | cons p ps ih =>
      obtain ⟨hp, hps⟩ := List.nodup_cons.mp hps
      rcases hle.lt_or_eq with hlt | hfull
      · obtain ⟨s₁, got₁, h₁, hx₁, hlength₁⟩ :=
          visit_alone hr hx hlt (hnear p List.mem_cons_self)
        have hsame : ∀ q ∈ ps, s₁.subs q = s.subs q :=
          fun q hq => h₁.elsewhere q (fun h => hp (h ▸ hq))
        have hfound : ps.map s₁.found = ps.map s.found := by
          apply List.map_congr_left
          intro q hq
          rw [State.found, State.found, hsame q hq]
        have hroom : (batch ++ got₁).length ≤ max := by
          rw [List.length_append]
          omega
        obtain ⟨s', got, visited, hprefix, hleads, hothers, hx', hlength⟩ :=
          ih hps (h₁.reachedBy hr) hx₁ hroom
          (fun q hq => by
            rw [hsame q hq]
            exact hnear q (List.mem_cons_of_mem _ hq))
        refine ⟨s', got₁ ++ got, p :: visited, List.prefix_cons_inj p |>.mpr hprefix,
          h₁.leads.trans hleads, fun u hu => (hothers u hu).trans (h₁.others u hu),
          by rw [hx', List.append_assoc], ?_⟩
        rw [hfound, List.length_append] at hlength
        rw [List.map_cons, List.sum_cons, List.length_append]
        omega
      · refine ⟨s, [], [], List.nil_prefix, .refl, fun _ _ => rfl, by rwa [List.append_nil], ?_⟩
        rw [hfull, Nat.sub_self, Nat.min_zero]
        rfl

/-! ### What is found -/

/-- What a thread has added to the optimistic count of a sub-queue, and not yet claimed or given
back. -/
def Point.inflight (p : P) (x : Point P α) : ℕ :=
  OptimisticClaims.grant (x.role p) + OptimisticClaims.owed (x.role p)

theorem found_eq (hr : (system T P α).ReachedBy InRange s) (p : P) :
    s.found p = (s.subs p).tailIndex -
      ((s.subs p).headIndex + total (Point.inflight p) s.points) := by
  have haccount := (OptimisticClaims.sound_of_reachable (claims_reachable hr p)).account
  have hsplit : total (Point.inflight p) s.points =
      total OptimisticClaims.grant (s.claims p).roles +
        total OptimisticClaims.owed (s.claims p).roles := Finset.sum_add_distrib
  change (s.subs p).dequeueOptimisticCount = (s.subs p).dequeueOvercommit +
    ((s.subs p).headIndex + total OptimisticClaims.grant (s.claims p).roles) +
    total OptimisticClaims.owed (s.claims p).roles at haccount
  rw [State.found]
  omega

/-! ### No waiting -/

/-- The returns of a thread's calls, and its steps inside the queue. -/
def Own (t : T) : Label T P α → Bool
  | .run u _ | .ret u => u = t
  | _ => false

end SocketLib.ConcurrentQueue
