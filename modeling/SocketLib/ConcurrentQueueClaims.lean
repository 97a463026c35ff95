import SocketLib.ConcurrentQueue
import SocketLib.OptimisticClaims

/-!
# The indices of a sub-queue

For each producer, `tailIndex`, `headIndex` and the two counts are an `OptimisticClaims` in which the
threads that are dequeuing from its sub-queue have their roles (`claims`), as long as no thread
compares counts that are `2 ^ 63` or more apart (`InRange`). So what dequeues have moved `headIndex`
past, or are about to, has been enqueued (`claimed_le`).
-/

namespace SocketLib.ConcurrentQueue

open TransitionSystem ThreadFamily

variable {T P α : Type*}

def Near (a b : ℕ) : Prop := a < b + 2 ^ 63 ∧ b < a + 2 ^ 63

instance (a b : ℕ) : Decidable (Near a b) := instDecidableAnd

/-- Counts that are near each other compare around the circle as they do on the line. -/
theorem circularLessThan_ahead {tail count overcommit : ℕ} (h : Near (tail + overcommit) count) :
    circularLessThan 0 (ahead tail count overcommit) = true ↔ count < tail + overcommit := by
  unfold circularLessThan ahead index
  rw [BitVec.ult_iff_lt, BitVec.lt_def]
  simp only [BitVec.toNat_sub, BitVec.toNat_ofNat, BitVec.ofNat_eq_ofNat]
  obtain ⟨hab, hba⟩ := h
  omega

theorem ahead_toNat {tail count overcommit : ℕ} (h : Near (tail + overcommit) count)
    (hlt : count < tail + overcommit) :
    (ahead tail count overcommit).toNat = tail + overcommit - count := by
  unfold ahead index
  simp only [BitVec.toNat_sub, BitVec.toNat_ofNat]
  obtain ⟨hab, hba⟩ := h
  omega

/-- What passes the test is not zero, near or not. -/
theorem pos_of_circularLessThan {desired : BitVec 64} (h : circularLessThan 0 desired = true) :
    0 < desired.toNat := by
  by_contra hzero
  have hnil : desired = 0 := BitVec.eq_of_toNat_eq (by simpa using hzero)
  rw [hnil] at h
  cases h

/-- The steps of a thread inside the queue, with what they have found out. -/
inductive Moves [DecidableEq P] (subs : P → Sub α) :
    Point P α → (P → Sub α) → Point P α → Prop
  | test (p : P) (x : α) : Moves subs (.enqueueTest p x) subs (.enqueueConstruct p x)
  | refuse (p : P) (x : α) : Moves subs (.enqueueTest p x) subs (.enqueueReturn false)
  | construct (p : P) (x : α) :
      Moves subs (.enqueueConstruct p x)
        (Function.update subs p { subs p with
          elements := Function.update (subs p).elements (subs p).tailIndex (some x) })
        (.enqueuePublish p x)
  | throw (p : P) (x : α) : Moves subs (.enqueueConstruct p x) subs .outside
  | publish (p : P) (x : α) :
      Moves subs (.enqueuePublish p x)
        (Function.update subs p { subs p with
          tailIndex := (subs p).tailIndex + 1, enqueued := (subs p).enqueued ++ [x] })
        (.enqueueReturn true)
  | visit (p : P) (max : ℕ) (batch : List (P × α)) (h : batch.length ≠ max) :
      Moves subs (.nextProducer max batch) subs (.loadTail p max batch)
  | finish (max : ℕ) (batch : List (P × α)) :
      Moves subs (.nextProducer max batch) subs (.dequeueReturn batch)
  | loadTail (p : P) (max : ℕ) (batch : List (P × α)) :
      Moves subs (.loadTail p max batch) subs (.loadOvercommit p max batch (subs p).tailIndex)
  | loadOvercommit (p : P) (max : ℕ) (batch : List (P × α)) (tail : ℕ) :
      Moves subs (.loadOvercommit p max batch tail) subs
        (.loadCount p max batch tail (subs p).dequeueOvercommit)
  | enough (p : P) (max : ℕ) (batch : List (P × α)) (tail overcommit : ℕ)
      (h : circularLessThan 0 (ahead tail (subs p).dequeueOptimisticCount overcommit) = true) :
      Moves subs (.loadCount p max batch tail overcommit) subs
        (.addCount p max batch (min (ahead tail (subs p).dequeueOptimisticCount overcommit).toNat
          (max - batch.length)) overcommit)
  | empty (p : P) (max : ℕ) (batch : List (P × α)) (tail overcommit : ℕ)
      (h : ¬ circularLessThan 0 (ahead tail (subs p).dequeueOptimisticCount overcommit) = true) :
      Moves subs (.loadCount p max batch tail overcommit) subs (.nextProducer max batch)
  | add (p : P) (max : ℕ) (batch : List (P × α)) (desired overcommit : ℕ) :
      Moves subs (.addCount p max batch desired overcommit)
        (Function.update subs p { subs p with
          dequeueOptimisticCount := (subs p).dequeueOptimisticCount + desired })
        (.reloadTail p max batch desired overcommit (subs p).dequeueOptimisticCount)
  | getPart (p : P) (max : ℕ) (batch : List (P × α)) (desired overcommit mine : ℕ)
      (h : circularLessThan 0 (ahead (subs p).tailIndex mine overcommit) = true)
      (hpart : (ahead (subs p).tailIndex mine overcommit).toNat < desired) :
      Moves subs (.reloadTail p max batch desired overcommit mine) subs
        (.addSurplus p max batch (desired - (ahead (subs p).tailIndex mine overcommit).toNat)
          (ahead (subs p).tailIndex mine overcommit).toNat)
  | getAll (p : P) (max : ℕ) (batch : List (P × α)) (desired overcommit mine : ℕ)
      (h : circularLessThan 0 (ahead (subs p).tailIndex mine overcommit) = true)
      (hall : desired ≤ (ahead (subs p).tailIndex mine overcommit).toNat) :
      Moves subs (.reloadTail p max batch desired overcommit mine) subs
        (.claim p max batch desired)
  | getNone (p : P) (max : ℕ) (batch : List (P × α)) (desired overcommit mine : ℕ)
      (h : ¬ circularLessThan 0 (ahead (subs p).tailIndex mine overcommit) = true) :
      Moves subs (.reloadTail p max batch desired overcommit mine) subs
        (.giveBack p max batch desired)
  | addSurplus (p : P) (max : ℕ) (batch : List (P × α)) (surplus actual : ℕ) :
      Moves subs (.addSurplus p max batch surplus actual)
        (Function.update subs p { subs p with
          dequeueOvercommit := (subs p).dequeueOvercommit + surplus })
        (.claim p max batch actual)
  | claim (p : P) (max : ℕ) (batch : List (P × α)) (actual : ℕ) :
      Moves subs (.claim p max batch actual)
        (Function.update subs p { subs p with headIndex := (subs p).headIndex + actual })
        (.take p max batch (subs p).headIndex ((subs p).headIndex + actual))
  | take (p : P) (max : ℕ) (batch : List (P × α)) (index stop : ℕ) (x : α) (hlt : index < stop)
      (hx : (subs p).elements index = some x) :
      Moves subs (.take p max batch index stop)
        (Function.update subs p { subs p with
          elements := Function.update (subs p).elements index none })
        (.take p max (batch ++ [(p, x)]) (index + 1) stop)
  | leave (p : P) (max : ℕ) (batch : List (P × α)) (index stop : ℕ) (hge : ¬ index < stop) :
      Moves subs (.take p max batch index stop) subs (.nextProducer max batch)
  | giveBack (p : P) (max : ℕ) (batch : List (P × α)) (desired : ℕ) :
      Moves subs (.giveBack p max batch desired)
        (Function.update subs p { subs p with
          dequeueOvercommit := (subs p).dequeueOvercommit + desired })
        (.nextProducer max batch)

/-- A batch has room for what its thread wants. -/
def Point.Fits : Point P α → Prop
  | .nextProducer max batch => batch.length ≤ max
  | .loadTail _ max batch | .loadOvercommit _ max batch _ | .loadCount _ max batch _ _ =>
      batch.length < max
  | .addCount _ max batch desired _ | .reloadTail _ max batch desired _ _ =>
      0 < desired ∧ batch.length + desired ≤ max
  | .addSurplus _ max batch surplus actual => batch.length + (surplus + actual) ≤ max
  | .claim _ max batch amount | .giveBack _ max batch amount => batch.length + amount ≤ max
  | .take _ max batch index stop => index ≤ stop ∧ batch.length + (stop - index) ≤ max
  | _ => True

section Act

variable [DecidableEq P] {subs subs' : P → Sub α} {x x' : Point P α} {choice : Choice P}

theorem moves_of_act : act subs x choice = some (subs', x') → Moves subs x subs' x' := by
  fun_cases act subs x choice
  all_goals
    simp only [Option.some.injEq, Prod.mk.injEq, reduceCtorEq, false_implies, and_imp]
    try rintro rfl rfl
  case case5 p x ok _ =>
    split_ifs
    · exact .test p x
    · exact .refuse p x
  case case15 p max batch tail overcommit =>
    split_ifs with h
    · exact .enough p max batch tail overcommit h
    · exact .empty p max batch tail overcommit h
  case case17 p max batch desired overcommit mine =>
    split_ifs with h hpart
    · exact .getPart p max batch desired overcommit mine h hpart
    · exact .getAll p max batch desired overcommit mine h (not_lt.mp hpart)
    · exact .getNone p max batch desired overcommit mine h
  all_goals constructor
  all_goals assumption

theorem Moves.fits (h : Moves subs x subs' x') (hx : x.Fits) : x'.Fits := by
  cases h with
  | visit p max batch hne => exact lt_of_le_of_ne hx hne
  | enough p max batch tail overcommit hlt =>
      have hpos := pos_of_circularLessThan hlt
      simp only [Point.Fits] at hx ⊢
      omega
  | getPart p max batch desired overcommit mine hlt hpart =>
      simp only [Point.Fits] at hx ⊢
      omega
  | take p max batch index stop x hlt hx' =>
      simp only [Point.Fits, List.length_append, List.length_singleton] at hx ⊢
      omega
  | empty | add | getAll | getNone | addSurplus | claim | leave | giveBack =>
      simp only [Point.Fits] at hx ⊢
      omega
  | loadTail | loadOvercommit => exact hx
  | _ => trivial

end Act

/-! ### The claims on one sub-queue -/

section Claims

variable [DecidableEq P]

/-- The part that a thread has in the claims on a sub-queue. -/
def Point.role (p : P) : Point P α → OptimisticRole
  | .loadCount q _ _ _ overcommit | .addCount q _ _ _ overcommit =>
      if q = p then .loaded overcommit else .idle
  | .reloadTail q _ _ desired overcommit mine =>
      if q = p then .counted desired overcommit mine else .idle
  | .addSurplus q _ _ surplus actual => if q = p then .granted surplus actual else .idle
  | .claim q _ _ actual => if q = p then .granted 0 actual else .idle
  | .giveBack q _ _ desired => if q = p then .refused desired else .idle
  | _ => .idle

def State.claims (s : State T P α) (p : P) : OptimisticClaims T where
  produced := (s.subs p).tailIndex
  claimed := (s.subs p).headIndex
  optimistic := (s.subs p).dequeueOptimisticCount
  overcommit := (s.subs p).dequeueOvercommit
  roles t := (s.points t).role p

/-- The counts that a dequeue compares when it has added to the optimistic count. -/
def Point.compares (subs : P → Sub α) : Point P α → Option (ℕ × ℕ)
  | .reloadTail p _ _ _ overcommit mine => some ((subs p).tailIndex + overcommit, mine)
  | _ => none

def InRange (s : State T P α) : Label T P α → Prop
  | .run t _ => ∀ c ∈ (s.points t).compares s.subs, Near c.1 c.2
  | _ => True

instance (s : State T P α) : (a : Label T P α) → Decidable (InRange s a)
  | .run t _ => inferInstanceAs (Decidable (∀ c ∈ (s.points t).compares s.subs, Near c.1 c.2))
  | .enqueue _ _ _ => instDecidableTrue
  | .tryDequeueBulk _ _ => instDecidableTrue
  | .ret _ => instDecidableTrue

variable [DecidableEq T] {s s' : State T P α} {t : T} {subs' : P → Sub α} {x x' : Point P α}
  {p : P}

theorem claims_setPoint (s : State T P α) (t : T) (subs' : P → Sub α) (x' : Point P α) (p : P) :
    (s.setPoint t subs' x').claims p =
      { produced := (subs' p).tailIndex
        claimed := (subs' p).headIndex
        optimistic := (subs' p).dequeueOptimisticCount
        overcommit := (subs' p).dequeueOvercommit
        roles := Function.update (s.claims p).roles t (x'.role p) } := by
  rw [State.claims, OptimisticClaims.mk.injEq]
  refine ⟨rfl, rfl, rfl, rfl, funext fun u => ?_⟩
  by_cases hu : u = t
  · subst u
    rw [setPoint_self, Function.update_self]
  · rw [setPoint_ne _ _ _ hu, Function.update_of_ne hu]
    rfl

/-- A thread that keeps its role, while the sub-queue stays, is not noticed. -/
theorem claims_setPoint_eq (hx : s.points t = x) (hsub : subs' p = s.subs p)
    (hrole : x'.role p = x.role p) : (s.setPoint t subs' x').claims p = s.claims p := by
  have hself : Function.update (s.claims p).roles t (x.role p) = (s.claims p).roles := by
    rw [← hx]
    exact Function.update_eq_self t (s.claims p).roles
  rw [claims_setPoint, hsub, hrole, hself]
  rfl

/-- A thread that is busy with another sub-queue is not noticed. -/
theorem claims_setPoint_other {q : P} (hq : q ≠ p) (hx : s.points t = x) {sub : Sub α}
    (hrole : x'.role p = .idle) (hrole' : x.role p = .idle) :
    (s.setPoint t (Function.update s.subs q sub) x').claims p = s.claims p :=
  claims_setPoint_eq hx (Function.update_of_ne hq.symm ..) (hrole.trans hrole'.symm)

/-- What becomes of the claims on the sub-queue that a step is about. -/
theorem claims_setPoint_update {sub : Sub α} (role : OptimisticRole) (hrole : x'.role p = role) :
    (s.setPoint t (Function.update s.subs p sub) x').claims p =
      { (s.claims p).setRole t role with
        produced := sub.tailIndex
        claimed := sub.headIndex
        optimistic := sub.dequeueOptimisticCount
        overcommit := sub.dequeueOvercommit } := by
  rw [claims_setPoint, hrole, Function.update_self]
  rfl

theorem claims_setPoint_same (role : OptimisticRole) (hrole : x'.role p = role) :
    (s.setPoint t s.subs x').claims p = (s.claims p).setRole t role := by
  rw [claims_setPoint, hrole]
  rfl

/-- A step is an action on the claims of each sub-queue, or it changes nothing of them. -/
theorem Moves.simulates {choice : Choice P} (h : Moves s.subs x subs' x') (hx : s.points t = x)
    (hfits : x.Fits) (hrange : InRange s (.run t choice)) (p : P) :
    (s.setPoint t subs' x').claims p = s.claims p ∨
      ∃ a, OptimisticClaims.next (s.claims p) a = some ((s.setPoint t subs' x').claims p) := by
  have hrole : (s.claims p).roles t = x.role p := congrArg (Point.role p) hx
  cases h with
  | test | refuse | throw | visit | finish | loadTail | leave =>
      exact Or.inl (claims_setPoint_eq hx rfl rfl)
  | construct q y | take q max batch index stop y _ _ =>
      left
      by_cases hq : q = p
      · subst q
        have hidle : (s.claims p).roles t = .idle := hrole
        rw [claims_setPoint_update .idle rfl, OptimisticClaims.setRole_eq_self hidle]
        rfl
      · exact claims_setPoint_other hq hx rfl rfl
  | publish q y =>
      by_cases hq : q = p
      · subst q
        right
        refine ⟨.produce, ?_⟩
        have hidle : (s.claims p).roles t = .idle := hrole
        rw [claims_setPoint_update .idle rfl, OptimisticClaims.setRole_eq_self hidle]
        rfl
      · exact Or.inl (claims_setPoint_other hq hx rfl rfl)
  | loadOvercommit q max batch tail =>
      by_cases hq : q = p
      · subst q
        right
        refine ⟨.load t, ?_⟩
        have hidle : (s.claims p).roles t = .idle := hrole
        have hnew : Point.role p
            (.loadCount p max batch tail (s.subs p).dequeueOvercommit : Point P α) =
            .loaded (s.claims p).overcommit := if_pos rfl
        rw [claims_setPoint_same _ hnew, OptimisticClaims.next, if_pos hidle]
      · exact Or.inl (claims_setPoint_eq hx rfl (if_neg hq))
  | enough q max batch tail overcommit _ => exact Or.inl (claims_setPoint_eq hx rfl rfl)
  | empty q max batch tail overcommit _ =>
      by_cases hq : q = p
      · subst q
        right
        refine ⟨.leave t, ?_⟩
        rw [Point.role, if_pos rfl] at hrole
        rw [claims_setPoint_same .idle rfl]
        simp only [OptimisticClaims.next, hrole]
      · exact Or.inl (claims_setPoint_eq hx rfl (if_neg hq).symm)
  | add q max batch desired overcommit =>
      by_cases hq : q = p
      · subst q
        right
        refine ⟨.add t desired, ?_⟩
        rw [Point.role, if_pos rfl] at hrole
        have hnew : Point.role p (.reloadTail p max batch desired overcommit
            (s.subs p).dequeueOptimisticCount : Point P α) =
            .counted desired overcommit (s.subs p).dequeueOptimisticCount := if_pos rfl
        rw [claims_setPoint_update _ hnew]
        simp only [OptimisticClaims.next, hrole, if_pos hfits.1]
        rfl
      · exact Or.inl (claims_setPoint_other hq hx (if_neg hq) (if_neg hq))
  | getPart q max batch desired overcommit mine hlt hpart =>
      by_cases hq : q = p
      · subst q
        right
        refine ⟨.test t, ?_⟩
        have hnear : Near ((s.subs p).tailIndex + overcommit) mine :=
          hrange (_, mine) (by rw [hx]; rfl)
        have hmine := (circularLessThan_ahead hnear).mp hlt
        rw [ahead_toNat hnear hmine] at hpart ⊢
        rw [Point.role, if_pos rfl] at hrole
        have hnew : Point.role p (.addSurplus p max batch
            (desired - ((s.subs p).tailIndex + overcommit - mine))
            ((s.subs p).tailIndex + overcommit - mine) : Point P α) =
            .granted (desired - ((s.subs p).tailIndex + overcommit - mine))
              ((s.subs p).tailIndex + overcommit - mine) := if_pos rfl
        rw [claims_setPoint_same _ hnew]
        have htest : mine < (s.claims p).produced + overcommit := hmine
        simp only [OptimisticClaims.next, hrole, if_pos htest]
        have hmin : min desired ((s.claims p).produced + overcommit - mine) =
          (s.subs p).tailIndex + overcommit - mine := min_eq_right hpart.le
        rw [hmin]
      · exact Or.inl (claims_setPoint_eq hx rfl ((if_neg hq).trans (if_neg hq).symm))
  | getAll q max batch desired overcommit mine hlt hall =>
      by_cases hq : q = p
      · subst q
        right
        refine ⟨.test t, ?_⟩
        have hnear : Near ((s.subs p).tailIndex + overcommit) mine :=
          hrange (_, mine) (by rw [hx]; rfl)
        have hmine := (circularLessThan_ahead hnear).mp hlt
        rw [ahead_toNat hnear hmine] at hall
        rw [Point.role, if_pos rfl] at hrole
        have hnew : Point.role p (.claim p max batch desired : Point P α) = .granted 0 desired :=
          if_pos rfl
        rw [claims_setPoint_same _ hnew]
        have htest : mine < (s.claims p).produced + overcommit := hmine
        simp only [OptimisticClaims.next, hrole, if_pos htest]
        have hmin : min desired ((s.claims p).produced + overcommit - mine) = desired :=
          min_eq_left hall
        rw [hmin, Nat.sub_self]
      · exact Or.inl (claims_setPoint_eq hx rfl ((if_neg hq).trans (if_neg hq).symm))
  | getNone q max batch desired overcommit mine hge =>
      by_cases hq : q = p
      · subst q
        right
        refine ⟨.test t, ?_⟩
        have hnear : Near ((s.subs p).tailIndex + overcommit) mine :=
          hrange (_, mine) (by rw [hx]; rfl)
        have htest : ¬ mine < (s.claims p).produced + overcommit :=
          fun hlt => hge ((circularLessThan_ahead hnear).mpr hlt)
        rw [Point.role, if_pos rfl] at hrole
        have hnew : Point.role p (.giveBack p max batch desired : Point P α) = .refused desired :=
          if_pos rfl
        rw [claims_setPoint_same _ hnew]
        simp only [OptimisticClaims.next, hrole, if_neg htest]
      · exact Or.inl (claims_setPoint_eq hx rfl ((if_neg hq).trans (if_neg hq).symm))
  | addSurplus q max batch surplus actual =>
      by_cases hq : q = p
      · subst q
        right
        refine ⟨.giveBack t, ?_⟩
        rw [Point.role, if_pos rfl] at hrole
        have hnew : Point.role p (.claim p max batch actual : Point P α) = .granted 0 actual :=
          if_pos rfl
        rw [claims_setPoint_update _ hnew]
        simp only [OptimisticClaims.next, hrole]
        rfl
      · exact Or.inl (claims_setPoint_other hq hx (if_neg hq) (if_neg hq))
  | claim q max batch actual =>
      by_cases hq : q = p
      · subst q
        right
        refine ⟨.claim t, ?_⟩
        rw [Point.role, if_pos rfl] at hrole
        rw [claims_setPoint_update .idle rfl]
        simp only [OptimisticClaims.next, hrole]
        rfl
      · exact Or.inl (claims_setPoint_other hq hx rfl (if_neg hq))
  | giveBack q max batch desired =>
      by_cases hq : q = p
      · subst q
        right
        refine ⟨.giveBack t, ?_⟩
        rw [Point.role, if_pos rfl] at hrole
        rw [claims_setPoint_update .idle rfl]
        simp only [OptimisticClaims.next, hrole]
        rfl
      · exact Or.inl (claims_setPoint_other hq hx rfl (if_neg hq))

/-! ### Over whole runs -/

variable [Fintype T] {a : Label T P α}

omit [DecidableEq P] [Fintype T] in
theorem fits_setPoint (hs : ∀ u, (s.points u).Fits) (hx : x'.Fits) (u : T) :
    ((s.setPoint t subs' x').points u).Fits := by
  by_cases hu : u = t
  · subst u
    rwa [setPoint_self]
  · rw [setPoint_ne _ _ _ hu]
    exact hs u

theorem fits_next (hs : ∀ u, (s.points u).Fits) (h : next s a = some s') :
    ∀ u, (s'.points u).Fits := by
  rcases next_cases h with ⟨t, x, rfl, hx⟩ | ⟨t, choice, subs', x, rfl, hact, rfl⟩
  · apply fits_setPoint hs
    rcases hx with ⟨p, y, -, -, -, rfl⟩ | ⟨max, -, -, hpos, rfl⟩ | ⟨-, -, rfl⟩
    · trivial
    · exact Nat.zero_le _
    · trivial
  · exact fits_setPoint hs ((moves_of_act hact).fits (hs t))

theorem fits_of_reachable (h : (system T P α).Reachable s) : ∀ t, (s.points t).Fits :=
  h.invariant (I := fun s => ∀ t, (s.points t).Fits) (fun _ => trivial)
    (fun _ _ _ _ hs _ hnext => fits_next hs hnext)

theorem next_claims (hs : ∀ u, (s.points u).Fits) (hrange : InRange s a) (h : next s a = some s')
    (p : P) :
    s'.claims p = s.claims p ∨ ∃ b, OptimisticClaims.next (s.claims p) b = some (s'.claims p) := by
  rcases next_cases h with ⟨t, x, rfl, hx⟩ | ⟨t, choice, subs', x, rfl, hact, rfl⟩
  · left
    refine claims_setPoint_eq rfl rfl ?_
    rcases hx with ⟨p', y, -, hout, -, rfl⟩ | ⟨max, -, hout, -, rfl⟩ | ⟨-, hret, rfl⟩
    · rw [hout]
      rfl
    · rw [hout]
      rfl
    · rcases hret with ⟨ok, hret⟩ | ⟨batch, hret⟩ <;> (rw [hret]; rfl)
  · exact (moves_of_act hact).simulates rfl (hs t) hrange p

theorem claims_reachable (h : (system T P α).ReachedBy InRange s) (p : P) :
    (OptimisticClaims.system T).Reachable (s.claims p) := by
  have hstart : (system T P α).start.claims p = (OptimisticClaims.system T).start := rfl
  refine ReachedBy.map (f := fun s => s.claims p) h hstart (fun s a s' hr hrange hnext => ?_)
  rcases next_claims (fits_of_reachable hr.reachable) hrange hnext p with heq | ⟨b, hb⟩
  · exact Or.inl heq
  · exact Or.inr ⟨b, trivial, hb⟩

/-- How many elements of a sub-queue a thread has been granted, and not yet moved the head past. -/
def Point.granted (p : P) (x : Point P α) : ℕ := OptimisticClaims.grant (x.role p)

/-- What the head has been moved past, or is going to be, has been enqueued. -/
theorem claimed_le (h : (system T P α).ReachedBy InRange s) (p : P) :
    (s.subs p).headIndex + total (Point.granted p) s.points ≤ (s.subs p).tailIndex :=
  OptimisticClaims.claims_le (claims_reachable h p)

end Claims
end SocketLib.ConcurrentQueue
