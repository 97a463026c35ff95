import SocketLib.CountingSemaphore
import SocketLib.LightweightSemaphore

/-!
# Where the units of a `LightweightSemaphore` are

A thread that has taken one off a counter that was not positive waits until it gets a unit from the
kernel or gives its claim back (`Point.waits`). Of the waiting threads there are as many as the
counter is below zero, next to those for which the kernel has a unit, or is about to be given one
(`Account`). So every unit that was signalled is in one place: returned, in the hands of a call, in
the counter, in the kernel, or on the way there (`units_conserved`), and a thread that waits with no
unit in the kernel or on the way waits for one that has not been signalled (`no_lostWakeup`).

What the counter, the kernel and the posts on the way make available is a plain counting semaphore
(`counting`), which a step of the code takes units from, adds units to, or leaves alone
(`next_counting`).
-/

namespace SocketLib.LightweightSemaphore

open ThreadFamily

/-- The units a call has obtained and not returned yet. -/
def Point.hand : Point → ℕ
  | .returning units => units
  | .tryLoad _ .waited | .tryExchange _ _ .waited => 1
  | _ => 0

/-- Between taking one off a counter that was not positive, and getting it or giving it back. -/
def Point.waits : Point → ℕ
  | .waitSema _ _ | .undoLoad _ | .undoTryWait _ | .undoExchange _ _ => 1
  | _ => 0

/-- The units a call of `signal` is still to give to the kernel. -/
def Point.posts : Point → ℕ
  | .signalPost toRelease => toRelease
  | _ => 0

/-- The count an exchange goes by has passed the test before it. -/
def Point.Tested : Point → Prop
  | .tryExchange _ oldCount _ | .spinExchange _ _ _ oldCount => 0 < oldCount
  | .undoExchange _ oldCount => oldCount < 0
  | _ => True

def Point.weights (p : Point) : ℕ × ℕ × ℕ := (p.hand, p.waits, p.posts)

/-- At this point a call has so many units in hand and nothing else to account for. -/
structure Point.Holds (p : Point) (units : ℕ) : Prop where
  weights : p.weights = (units, 0, 0)
  tested : p.Tested

/-- What the last line of `waitManyWithPartialSpinning` has when it calls `tryWaitMany`. -/
def Caller.hand : Caller → ℕ
  | .waited => 1
  | _ => 0

theorem returning_holds (units : ℕ) : (Point.returning units).Holds units := ⟨rfl, trivial⟩

theorem spinNext_holds (max : ℕ) (timeout : ℤ) (spin : ℕ) :
    (spinNext max timeout spin).Holds 0 := by
  cases spin <;> exact ⟨rfl, trivial⟩

theorem tryLoad_holds (max : ℕ) (caller : Caller) :
    (Point.tryLoad max caller).Holds caller.hand := by
  cases caller <;> exact ⟨rfl, trivial⟩

theorem tryExchange_weights (max : ℕ) (oldCount : ℤ) (caller : Caller) :
    (Point.tryExchange max oldCount caller).weights = (caller.hand, 0, 0) := by
  cases caller <;> rfl

theorem Op.entry_holds (op : Op) : op.entry.Holds 0 := by
  cases op <;> exact ⟨rfl, trivial⟩

theorem waited_holds (max : ℕ) : (waited max).Holds 1 := by
  unfold waited
  split_ifs
  · exact tryLoad_holds (max - 1) .waited
  · exact returning_holds 1

theorem returns_holds (maxSpins units : ℕ) (caller : Caller) :
    (caller.returns maxSpins units).Holds (caller.hand + units) := by
  cases caller with
  | user =>
      rw [show Caller.user.hand + units = units from Nat.zero_add units]
      exact returning_holds units
  | waitMany max timeout =>
      rw [show (Caller.waitMany max timeout).hand + units = units from Nat.zero_add units,
        Caller.returns]
      split_ifs with hnone
      · rw [hnone.1]
        exact spinNext_holds max timeout maxSpins
      · exact returning_holds units
  | waited => exact returning_holds (1 + units)

theorem tryTest_holds (maxSpins max : ℕ) (oldCount : ℤ) (caller : Caller) :
    (tryTest maxSpins max oldCount caller).Holds caller.hand := by
  unfold tryTest
  split_ifs with hpos
  · exact ⟨tryExchange_weights max oldCount caller, hpos⟩
  · exact returns_holds maxSpins 0 caller

/-- An exchange takes what it says off a positive counter, and leaves it positive or zero. -/
theorem newCount_spec (max : ℕ) {oldCount : ℤ} (h : 0 < oldCount) :
    0 ≤ newCount max oldCount ∧ oldCount = newCount max oldCount + units max oldCount := by
  unfold units newCount
  split_ifs <;> omega

/-- What a step does with the units. -/
inductive Moves (m : Mem) (p p' : Point) : Mem → Prop
  | pass (h : p'.weights = p.weights) : Moves m p p' m
  | give (units : ℕ) (h : p.weights = (units, 0, 0)) (h' : p'.weights = (0, 0, 0)) :
      Moves m p p' { m with taken := m.taken + units }
  | take (had units : ℕ) (count : ℤ) (h : p.weights = (had, 0, 0))
      (h' : p'.weights = (had + units, 0, 0)) (hpos : 0 ≤ count) (hcount : m.count = count + units) :
      Moves m p p' { m with count := count }
  | claim (h : p.weights = (0, 0, 0)) (h' : p'.weights = (0, 1, 0)) (hcount : m.count ≤ 0) :
      Moves m p p' { m with count := m.count - 1 }
  | wake (h : p.weights = (0, 1, 0)) (h' : p'.weights = (1, 0, 0)) (hsema : 0 < m.sema) :
      Moves m p p' { m with sema := m.sema - 1 }
  | withdraw (h : p.weights = (0, 1, 0)) (h' : p'.weights = (0, 0, 0)) (hcount : m.count < 0) :
      Moves m p p' { m with count := m.count + 1 }
  | add (count : ℕ) (h : p.weights = (0, 0, 0))
      (h' : p'.weights = (0, 0, (min (-m.count) count).toNat)) :
      Moves m p p' { m with count := m.count + count, signalled := m.signalled + count }
  | post (toRelease : ℕ) (h : p.weights = (0, 0, toRelease + 1))
      (h' : p'.weights = (0, 0, toRelease)) :
      Moves m p p' { m with sema := m.sema + 1 }

section Act

variable {maxSpins : ℕ} {m m' : Mem} {p p' : Point} {choice : Choice}

theorem Point.Holds.pass {n : ℕ} (h : p'.Holds n) (hp : p.weights = (n, 0, 0)) :
    p'.Tested ∧ Moves m p p' m :=
  ⟨h.tested, .pass (h.weights.trans hp.symm)⟩

theorem moves_of_act (hp : p.Tested) : act maxSpins m p choice = some (m', p') →
    p'.Tested ∧ Moves m p p' m' := by
  fun_cases act maxSpins m p choice
  all_goals
    simp only [Option.some.injEq, Prod.mk.injEq, reduceCtorEq, false_implies, and_imp]
    try rintro rfl rfl
  case case1 units => exact ⟨trivial, .give units rfl rfl⟩
  -- tryWaitMany
  case case2 max caller =>
    exact (tryTest_holds maxSpins max m.count caller).pass (tryLoad_holds max caller).weights
  case case3 max caller =>
    obtain ⟨hpos, hcount⟩ := newCount_spec max hp
    have hq := returns_holds maxSpins (units max m.count) caller
    exact ⟨hq.tested,
      .take _ _ _ (tryExchange_weights max m.count caller) hq.weights hpos hcount⟩
  case case4 max oldCount caller _ | case5 max oldCount caller =>
    exact (tryTest_holds maxSpins max m.count caller).pass (tryExchange_weights max oldCount caller)
  -- waitManyWithPartialSpinning
  case case6 spin max timeout =>
    split_ifs with hpos
    · exact ⟨hpos, .pass rfl⟩
    · exact (spinNext_holds max timeout spin).pass rfl
  case case7 spin max timeout =>
    obtain ⟨hpos, hcount⟩ := newCount_spec max hp
    have hq := returning_holds (units max m.count)
    refine ⟨hq.tested, .take 0 (units max m.count) _ rfl ?_ hpos hcount⟩
    rw [Nat.zero_add]
    exact hq.weights
  case case8 spin max timeout oldCount _ => exact (spinNext_holds max timeout spin).pass rfl
  case case9 max timeout =>
    split_ifs with hpos htimeout
    · have hq := waited_holds max
      refine ⟨hq.tested, .take 0 1 (m.count - 1) rfl hq.weights (by omega) ?_⟩
      exact (Int.sub_add_cancel m.count 1).symm
    · exact ⟨trivial, .claim rfl rfl (not_lt.mp hpos)⟩
    · exact ⟨trivial, .claim rfl rfl (not_lt.mp hpos)⟩
  case case10 max timeout hsema | case14 max hsema =>
    exact ⟨(waited_holds max).tested, .wake rfl (waited_holds max).weights hsema⟩
  case case12 | case15 | case17 => exact ⟨trivial, .pass rfl⟩
  case case13 max =>
    split_ifs with hcount
    · exact ⟨trivial, .pass rfl⟩
    · exact ⟨not_le.mp hcount, .pass rfl⟩
  case case16 max => exact ⟨trivial, .withdraw rfl rfl hp⟩
  -- signal
  case case18 count => exact ⟨trivial, .add count rfl rfl⟩
  case case19 | case21 => exact ⟨trivial, .pass rfl⟩
  case case20 toRelease => exact ⟨trivial, .post toRelease rfl rfl⟩

end Act

/-! ### The account over all threads -/

section Runs

variable {T : Type*} [Fintype T] {maxSpins : ℕ} {s s' : State T}

/-- The units in the hands of calls. -/
def State.inHand (s : State T) : ℕ := total Point.hand s.points

def State.waiting (s : State T) : ℕ := total Point.waits s.points

def State.posts (s : State T) : ℕ := total Point.posts s.points

/-- The units that a thread can obtain, or that a waiting thread is about to be released with. -/
def State.available (s : State T) : ℕ := s.mem.count.toNat + s.mem.sema + s.posts

structure Account (s : State T) : Prop where
  tested : ∀ t, (s.points t).Tested
  units : (s.mem.signalled : ℤ) = s.mem.count + s.waiting + s.mem.taken + s.inHand
  released : (-s.mem.count).toNat + s.mem.sema + s.posts = s.waiting

theorem account_initial [DecidableEq T] : Account (initial T) where
  tested _ := trivial
  units := by simp [initial, State.waiting, State.inHand, total, Point.waits, Point.hand]
  released := by simp [initial, State.waiting, State.posts, total, Point.waits, Point.posts]

variable [DecidableEq T]

/-- The step of one thread moves the three totals by what it moves of its own. -/
theorem totals_setPoint (s : State T) (t : T) (m : Mem) (p : Point) :
    (s.setPoint t m p).inHand + (s.points t).hand = s.inHand + p.hand ∧
    (s.setPoint t m p).waiting + (s.points t).waits = s.waiting + p.waits ∧
    (s.setPoint t m p).posts + (s.points t).posts = s.posts + p.posts :=
  ⟨total_update Point.hand s.points t p, total_update Point.waits s.points t p,
    total_update Point.posts s.points t p⟩

/-- What a step makes of the totals, by what it does with the units. -/
theorem Moves.totals {t : T} {m : Mem} {p : Point} (h : Moves s.mem (s.points t) p m)
    (ha : Account s) :
    (m.signalled : ℤ) = m.count + (s.setPoint t m p).waiting + m.taken +
      (s.setPoint t m p).inHand ∧
    (-m.count).toNat + m.sema + (s.setPoint t m p).posts = (s.setPoint t m p).waiting := by
  obtain ⟨hhand, hwaits, hposts⟩ := totals_setPoint s t m p
  have hunits := ha.units
  have hreleased := ha.released
  cases h with
  | pass h =>
      simp only [Point.weights, Prod.mk.injEq] at h
      omega
  | give units h h' | wake h h' _ | withdraw h h' _ | claim h h' _ | add count h h'
  | post toRelease h h' =>
      simp only [Point.weights, Prod.mk.injEq] at h h'
      dsimp only at *
      omega
  | take had units count h h' _ _ =>
      simp only [Point.weights, Prod.mk.injEq] at h h'
      dsimp only at *
      omega

theorem next_moves {a : Label T} (ha : Account s) (h : next maxSpins s a = some s') :
    ∃ t m p, s' = s.setPoint t m p ∧ p.Tested ∧ Moves s.mem (s.points t) p m := by
  obtain ⟨t, m, p, rfl, hcase⟩ := next_cases h
  refine ⟨t, m, p, rfl, ?_⟩
  rcases hcase with ⟨op, -, hout, rfl, rfl⟩ | ⟨choice, -, hact⟩
  · rw [hout]
    exact op.entry_holds.pass rfl
  · exact moves_of_act (ha.tested t) hact

theorem Account.next {a : Label T} (ha : Account s) (h : next maxSpins s a = some s') :
    Account s' := by
  obtain ⟨t, m, p, rfl, hmoves⟩ := next_moves ha h
  obtain ⟨hunits, hreleased⟩ := hmoves.2.totals ha
  refine ⟨fun u => ?_, hunits, hreleased⟩
  by_cases hu : u = t
  · subst u
    rw [setPoint_self]
    exact hmoves.1
  · rw [setPoint_ne _ _ _ hu]
    exact ha.tested u

theorem account_of_reachable (h : (system T maxSpins).Reachable s) : Account s :=
  h.invariant account_initial (fun _ _ _ _ ha _ hs => ha.next hs)

omit [DecidableEq T] in
/-- Every unit that was signalled was returned, is in the hands of a call, or is available. -/
theorem Account.signalled_eq (ha : Account s) :
    s.mem.signalled = s.mem.taken + s.inHand + s.available := by
  have hunits := ha.units
  have hreleased := ha.released
  unfold State.available
  omega

/-! ### The counting semaphore behind it -/

/-- What is left of the state when it is forgotten where the available units are, and who waits. -/
def State.counting (s : State T) : CountingSemaphore T where
  available := s.available
  signalled := s.mem.signalled
  hand t := (s.points t).hand
  given := s.mem.taken

theorem counting_setPoint (s : State T) (t : T) (m : Mem) (p : Point) :
    (s.setPoint t m p).counting =
      { available := (s.setPoint t m p).available
        signalled := m.signalled
        hand := Function.update s.counting.hand t p.hand
        given := m.taken } := by
  rw [State.counting, CountingSemaphore.mk.injEq]
  refine ⟨rfl, rfl, funext fun u => ?_, rfl⟩
  by_cases hu : u = t
  · subst u
    simp only [setPoint_self, Function.update_self]
  · simp only [setPoint_ne _ _ _ hu, Function.update_of_ne hu, State.counting]

theorem update_hand_self (s : State T) (t : T) :
    Function.update s.counting.hand t (s.points t).hand = s.counting.hand :=
  Function.update_eq_self t s.counting.hand

/-- A thread that keeps what it has in hand, while what is available stays, is not noticed. -/
theorem counting_setPoint_eq {t : T} {m : Mem} {p : Point} (hhand : p.hand = (s.points t).hand)
    (hsignalled : m.signalled = s.mem.signalled) (htaken : m.taken = s.mem.taken)
    (havailable : (s.setPoint t m p).available = s.available) :
    (s.setPoint t m p).counting = s.counting := by
  rw [counting_setPoint, hhand, hsignalled, htaken, havailable, update_hand_self]
  rfl

/-- The uses of the counting semaphore that a step is. -/
theorem Moves.counting {t : T} {m : Mem} {p : Point} (h : Moves s.mem (s.points t) p m) :
    (s.setPoint t m p).counting = s.counting ∨
      ∃ use, CountingSemaphore.use s.counting use = some (s.setPoint t m p).counting := by
  have hposts := (totals_setPoint s t m p).2.2
  have htake : ∀ units, p.hand = (s.points t).hand + units → m.signalled = s.mem.signalled →
      m.taken = s.mem.taken → (s.setPoint t m p).available + units = s.available →
      ∃ use, CountingSemaphore.use s.counting use = some (s.setPoint t m p).counting := by
    intro units hhand hsignalled htaken havailable
    refine ⟨.take t units, ?_⟩
    have hle : units ≤ s.counting.available := by
      change units ≤ s.available
      omega
    have hleft : s.counting.available - units = (s.setPoint t m p).available := by
      change s.available - units = _
      omega
    rw [CountingSemaphore.use, if_pos hle, counting_setPoint, hhand, hsignalled, htaken, hleft]
    rfl
  cases h with
  | pass h =>
      simp only [Point.weights, Prod.mk.injEq] at h
      left
      refine counting_setPoint_eq h.1 rfl rfl ?_
      simp only [State.available, State.setPoint] at hposts ⊢
      omega
  | claim h h' hcount | withdraw h h' hcount | post toRelease h h' =>
      simp only [Point.weights, Prod.mk.injEq] at h h'
      left
      refine counting_setPoint_eq (h'.1.trans h.1.symm) rfl rfl ?_
      simp only [State.available, State.setPoint] at hposts ⊢
      omega
  | give units h h' =>
      simp only [Point.weights, Prod.mk.injEq] at h h'
      right
      refine ⟨.give t, ?_⟩
      have havailable : (s.setPoint t { s.mem with taken := s.mem.taken + units } p).available =
          s.available := by
        simp only [State.available, State.setPoint] at hposts ⊢
        omega
      rw [CountingSemaphore.use, counting_setPoint, h'.1, havailable]
      simp only [State.counting, h.1]
  | take had units count h h' hpos hcount =>
      simp only [Point.weights, Prod.mk.injEq] at h h'
      right
      refine htake units (by omega) rfl rfl ?_
      simp only [State.available, State.setPoint] at hposts ⊢
      omega
  | wake h h' hsema =>
      simp only [Point.weights, Prod.mk.injEq] at h h'
      right
      refine htake 1 (by omega) rfl rfl ?_
      simp only [State.available, State.setPoint] at hposts ⊢
      omega
  | add count h h' =>
      simp only [Point.weights, Prod.mk.injEq] at h h'
      right
      refine ⟨.signal count, ?_⟩
      have havailable : s.available + count = (s.setPoint t { s.mem with
          count := s.mem.count + count, signalled := s.mem.signalled + count } p).available := by
        simp only [State.available, State.setPoint] at hposts ⊢
        omega
      rw [CountingSemaphore.use, counting_setPoint, h'.1.trans h.1.symm, update_hand_self,
        ← havailable]
      rfl

/-- A step of the code is one of the counting semaphore, or it changes nothing of it. -/
theorem next_counting {a : Label T} (ha : Account s) (h : next maxSpins s a = some s') :
    s'.counting = s.counting ∨
      ∃ use, CountingSemaphore.use s.counting use = some s'.counting := by
  obtain ⟨t, m, p, rfl, hmoves⟩ := next_moves ha h
  exact hmoves.2.counting

theorem counting_initial : (initial T).counting = (CountingSemaphore.system T).start := by
  rw [State.counting, CountingSemaphore.system, CountingSemaphore.mk.injEq]
  refine ⟨?_, rfl, rfl, rfl⟩
  simp [initial, State.available, State.posts, total, Point.posts]

/-- Every run of the code is one of a counting semaphore, so that every unit that was signalled is
available, in the hands of a call, or returned. -/
theorem units_conserved (h : (system T maxSpins).Reachable s) :
    (CountingSemaphore.system T).Reachable s.counting ∧
      s.mem.signalled = s.mem.taken + s.inHand + s.available := by
  have hcounting : (CountingSemaphore.system T).Reachable s.counting := by
    induction h with
    | start => exact counting_initial (T := T) ▸ .start
    | step hr _ hs ih =>
        rcases next_counting (account_of_reachable hr) hs with heq | ⟨use, huse⟩
        · rwa [heq]
        · exact ih.step trivial huse
  exact ⟨hcounting, CountingSemaphore.conserved hcounting⟩

/-! ### Waiting threads and their units -/

theorem waits_le_one (p : Point) : p.waits ≤ 1 := by
  cases p <;> simp [Point.waits]

/-- The counter stays within the bounds of its type, and what `signal` has to release in those of an
`int`, as long as the threads are less than `2 ^ 31` and the units less than `2 ^ 63`. -/
theorem count_bounds (h : (system T maxSpins).Reachable s) :
    -(Fintype.card T : ℤ) ≤ s.mem.count ∧ s.mem.count ≤ s.mem.signalled ∧
      ∀ t, (s.points t).posts ≤ Fintype.card T := by
  have ha := account_of_reachable h
  have hunits := ha.units
  have hreleased := ha.released
  have hwaiting : s.waiting ≤ Fintype.card T := by
    have hle := Finset.sum_le_card_nsmul Finset.univ (fun t => (s.points t).waits) 1
      (fun t _ => waits_le_one (s.points t))
    rwa [nsmul_eq_mul, mul_one, Finset.card_univ] at hle
  refine ⟨by omega, by omega, fun t => ?_⟩
  have hle : (s.points t).posts ≤ s.posts := le_total Point.posts s.points t
  omega

/-- A successful `sem_post` inside `signal`. -/
def Posts (s : State T) (a : Label T) : Prop :=
  ∃ t, a = .run t (.kernel true) ∧ 0 < (s.points t).posts

omit [DecidableEq T] in
/-- The kernel has a unit for every waiting thread, or is about to be given one, as far as units are
available. -/
theorem Account.released_eq (ha : Account s) :
    s.mem.sema + s.posts = min s.available s.waiting := by
  have hreleased := ha.released
  unfold State.available
  omega

theorem posts_pos {p : Point} (h : 0 < p.posts) : ∃ toRelease, p = .signalPost (toRelease + 1) := by
  cases p with
  | signalPost toRelease =>
      obtain ⟨n, rfl⟩ := Nat.exists_eq_succ_of_ne_zero (Nat.pos_iff_ne_zero.mp h)
      exact ⟨n, rfl⟩
  | _ => cases h

/-- One post gives the kernel its unit, and leaves the rest as it is. -/
theorem next_post (maxSpins : ℕ) {t : T} (ht : 0 < (s.points t).posts) :
    ∃ s', next maxSpins s (.run t (.kernel true)) = some s' ∧ s'.posts + 1 = s.posts ∧
      s'.mem = { s.mem with sema := s.mem.sema + 1 } ∧
      ∀ u, (s'.points u).waits = (s.points u).waits := by
  obtain ⟨toRelease, hpoint⟩ := posts_pos ht
  have hposts := (totals_setPoint s t { s.mem with sema := s.mem.sema + 1 }
    (.signalPost toRelease)).2.2
  rw [hpoint] at hposts
  refine ⟨s.setPoint t { s.mem with sema := s.mem.sema + 1 } (.signalPost toRelease), ?_, ?_,
    rfl, fun u => ?_⟩
  · rw [next, hpoint]
    rfl
  · change _ + (toRelease + 1) = s.posts + toRelease at hposts
    omega
  · by_cases hu : u = t
    · subst u
      rw [setPoint_self, hpoint]
      rfl
    · rw [setPoint_ne _ _ _ hu]

/-- The callers of `signal` come to the end of their posts whatever the others do not do. -/
theorem posts_finish (maxSpins : ℕ) (s : State T) :
    ∃ s', (system T maxSpins).LeadsBy Posts s s' ∧ s'.posts = 0 ∧
      s'.mem = { s.mem with sema := s.mem.sema + s.posts } ∧
      ∀ u, (s'.points u).waits = (s.points u).waits := by
  induction hn : s.posts generalizing s with
  | zero => exact ⟨s, Relation.ReflTransGen.refl, hn, rfl, fun _ => rfl⟩
  | succ n ih =>
      obtain ⟨t, ht⟩ := exists_pos_of_total_pos Point.posts s.points (by
        change 0 < s.posts
        omega)
      obtain ⟨s₁, hs₁, hposts₁, hmem₁, hwaits₁⟩ := next_post maxSpins ht
      obtain ⟨s', hlead, hposts, hmem, hwaits⟩ := ih s₁ (by omega)
      refine ⟨s', Relation.ReflTransGen.head ⟨_, ⟨t, rfl, ht⟩, hs₁⟩ hlead, hposts, ?_, fun u => ?_⟩
      · rw [hmem, hmem₁, Nat.add_right_comm, Nat.add_assoc]
      · rw [hwaits, hwaits₁]

/-- In every reachable state the kernel has, or is being given, as many units as threads wait or as
are available, whichever is less; and once those who signal have come to their end, each thread that
waits in the kernel can take one as long as there are any. -/
theorem no_lostWakeup (h : (system T maxSpins).Reachable s) :
    s.mem.sema + s.posts = min s.available s.waiting ∧
    ∃ s', (system T maxSpins).LeadsBy Posts s s' ∧ s'.mem.sema = min s.available s.waiting ∧
      s'.available = s.available ∧ (∀ t, (s'.points t).waits = (s.points t).waits) ∧
      ∀ t max timeout, s'.points t = .waitSema max timeout → 0 < s.available →
        ∃ s'', next maxSpins s' (.run t (.kernel true)) = some s'' := by
  have hreleased := (account_of_reachable h).released_eq
  obtain ⟨s', hlead, hposts, hmem, hwaits⟩ := posts_finish maxSpins s
  have hsema : s'.mem.sema = min s.available s.waiting := by
    rw [hmem]
    exact hreleased
  refine ⟨hreleased, s', hlead, hsema, ?_, hwaits, fun t max timeout hpoint hpos => ?_⟩
  · rw [State.available, hposts, hmem, State.available]
    dsimp only
    omega
  · have hwaiting : 0 < s.waiting := by
      have hone : (s.points t).waits = 1 := by
        rw [← hwaits t, hpoint]
        rfl
      have hle : (s.points t).waits ≤ s.waiting := le_total Point.waits s.points t
      omega
    have hunit : 0 < s'.mem.sema := by omega
    refine ⟨s'.setPoint t { s'.mem with sema := s'.mem.sema - 1 } (waited max), ?_⟩
    rw [next, hpoint]
    simp only [act, if_pos hunit, Option.map_some]

end Runs

/-! ### One thread waits, the other has signalled two units and not released it yet -/

def waitAndSignal : List (Label (Fin 2)) :=
  [.call 0 (.waitMany 3 (-1)), .run 0 .go, .run 0 .go, .call 1 (.signal 2), .run 1 .go]

theorem units_conserved_release_on_the_way :
    ∃ s, (system (Fin 2) 0).Reachable s ∧ s.mem.count = 1 ∧ s.posts = 1 ∧
      (CountingSemaphore.system (Fin 2)).Reachable s.counting ∧
      s.mem.signalled = s.mem.taken + s.inHand + s.available := by
  have hrun : ((system (Fin 2) 0).exec (system (Fin 2) 0).start waitAndSignal).any (fun s =>
      s.mem.count = 1 ∧ s.posts = 1) = true := by decide
  obtain ⟨s, hs, hstate⟩ := TransitionSystem.exists_reachedBy_of_execWhile hrun
  rw [decide_eq_true_eq] at hstate
  exact ⟨s, hs, hstate.1, hstate.2, units_conserved hs⟩

theorem no_lostWakeup_release_on_the_way :
    ∃ s, (system (Fin 2) 0).Reachable s ∧ s.mem.sema = 0 ∧ s.available = 2 ∧ s.waiting = 1 ∧
      s.mem.sema + s.posts = min s.available s.waiting ∧
      ∃ s', (system (Fin 2) 0).LeadsBy Posts s s' ∧ s'.mem.sema = 1 := by
  have hrun : ((system (Fin 2) 0).exec (system (Fin 2) 0).start waitAndSignal).any (fun s =>
      s.mem.sema = 0 ∧ s.available = 2 ∧ s.waiting = 1) = true := by decide
  obtain ⟨s, hs, hstate⟩ := TransitionSystem.exists_reachedBy_of_execWhile hrun
  rw [decide_eq_true_eq] at hstate
  obtain ⟨hsema, havailable, hwaiting⟩ := hstate
  obtain ⟨hreleased, s', hlead, hsema', -⟩ := no_lostWakeup hs
  rw [havailable, hwaiting] at hsema'
  exact ⟨s, hs, hsema, havailable, hwaiting, hreleased, s', hlead, hsema'⟩

end SocketLib.LightweightSemaphore
