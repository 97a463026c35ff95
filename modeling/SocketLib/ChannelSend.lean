import SocketLib.ChannelLocks

/-!
# One call of `sendBytes`

The steps that one thread takes inside a call, each with the memory it is taken in, so that whatever
other threads do in between is covered. The state keeps the bytes that `send` has taken.

The loop goes on while what the last `send` returned, converted to `size_t`, is less than the length
of what is left. After a would-block that is the largest `size_t`, and after a partial `send` the
tail is compared with what the head was: the call returns with the whole input sent exactly when
every `send` takes all or less than half of what it is offered (`TakesAllOrLessThanHalf`).
-/

namespace SocketLib.Channel

variable {T : Type*}

/-- The bytes that a step hands to the kernel. -/
def taken : Point T → Choice T → Bytes
  | .sendCall bytes _, .send (.accepted n) => bytes.take n
  | _, _ => []

/-- The bytes that a `send` accepts of those it is offered. -/
def accepted : Bytes × Sent → Bytes
  | (offered, .accepted n) => offered.take n
  | _ => []

/-- The call of `send` that a step is, with what it is offered. -/
def issued : Point T → Choice T → List (Bytes × Sent)
  | .sendCall bytes _, .send sent => [(bytes, sent)]
  | _, _ => []

theorem taken_eq (p : Point T) (choice : Choice T) :
    taken p choice = (issued p choice).flatMap accepted := by
  cases p with
  | sendCall bytes sender =>
      cases choice with
      | send sent =>
          cases sent with
          | accepted n => exact (List.append_nil _).symm
          | _ => rfl
      | _ => rfl
  | _ => rfl

/-- The steps of a call, with the memory before and after and the `send` they issue. -/
inductive Moves (sender : Sender T) (m : Mem T) :
    Point T → List (Bytes × Sent) → Mem T → Point T → Prop
  | enter (bytes : Bytes) (h : m.isActive = true) :
      Moves sender m (.sendTest bytes sender) [] m (.sendLoop 0 bytes sender)
  | refuse (bytes : Bytes) (h : m.isActive = false) :
      Moves sender m (.sendTest bytes sender) [] m sender.returns
  | offer (sentBytes : ℤ) (bytes : Bytes) (h : toSize sentBytes < bytes.length ∧ m.isActive = true) :
      Moves sender m (.sendLoop sentBytes bytes sender) [] m (.sendCall bytes sender)
  | leave (sentBytes : ℤ) (bytes : Bytes)
      (h : ¬ (toSize sentBytes < bytes.length ∧ m.isActive = true)) :
      Moves sender m (.sendLoop sentBytes bytes sender) [] m sender.returns
  | accept (n : ℕ) (bytes : Bytes) (h : n ≤ bytes.length) :
      Moves sender m (.sendCall bytes sender) [(bytes, .accepted n)] m
        (.sendLoop n (if toSize n < bytes.length then bytes.drop n else bytes) sender)
  | wouldBlock (bytes : Bytes) :
      Moves sender m (.sendCall bytes sender) [(bytes, .wouldBlock)] m (.sendLoop (-1) bytes sender)
  | fail (bytes : Bytes) :
      Moves sender m (.sendCall bytes sender) [(bytes, .error)] m (.sendFailed sender)
  | throw : Moves sender m (.sendFailed sender) [] m.queueShutdown sender.catches

section Call

variable [DecidableEq T] (listening : Bool) (t : T)

def sendStep (s : Point T × Bytes) (a : Mem T × Choice T) : Option (Point T × Bytes) :=
  if s.1.sends then
    (act listening t a.1 s.1 a.2).map (fun r => (r.2, s.2 ++ taken s.1 a.2))
  else none

/-- A call of `sendBytes` up to its return or its exception. -/
def sendBytes (bytes : Bytes) (sender : Sender T) :
    TransitionSystem (Point T × Bytes) (Mem T × Choice T) :=
  ⟨(.sendTest bytes sender, []), sendStep listening t⟩

end Call

/-- What the calls of `send` return. -/
def outcomes (steps : List (Mem T × Choice T)) : List Sent :=
  steps.filterMap (fun a => match a.2 with
    | .send sent => some sent
    | _ => none)

/-- No `send` fails, and none takes half of what it is offered or more without taking all; the first
is offered this many bytes. -/
def TakesAllOrLessThanHalf : ℕ → List Sent → Prop
  | _, [] => True
  | offered, .accepted n :: rest =>
      (n < offered → 2 * n < offered) ∧ TakesAllOrLessThanHalf (offered - n) rest
  | _, .wouldBlock :: _ | _, .error :: _ => False

theorem toSize_natCast {n : ℕ} (h : n < 2 ^ 64) : toSize n = n := by
  unfold toSize
  omega

/-- The length of a span never exceeds what a would-block is converted to. -/
theorem not_toSize_neg_one_lt {n : ℕ} (h : n < 2 ^ 64) : ¬ toSize (-1) < n := by
  have hmax : toSize (-1) = 2 ^ 64 - 1 := rfl
  omega

@[simp] theorem Sender.returns_sends (sender : Sender T) : sender.returns.sends = false := by
  cases sender <;> rfl

@[simp] theorem Sender.catches_sends (sender : Sender T) : sender.catches.sends = false := by
  cases sender <;> rfl

theorem outcomes_cons (a : Mem T × Choice T) (steps : List (Mem T × Choice T)) :
    outcomes (a :: steps) = outcomes [a] ++ outcomes steps :=
  List.filterMap_append (l := [a])

section Steps

variable [DecidableEq T] {listening : Bool} {t : T} {m m' : Mem T} {p p' : Point T}
  {choice : Choice T} {input bytes acc : Bytes} {sender : Sender T}
  {r : Point T × Bytes} {a : Mem T × Choice T} {steps : List (Mem T × Choice T)} {sentBytes : ℤ}

theorem exec_step {s : Point T × Bytes}
    (h : (sendBytes listening t input sender).exec s (a :: steps) = some r) :
    ∃ r₁, sendStep listening t s a = some r₁ ∧
      (sendBytes listening t input sender).exec r₁ steps = some r := by
  rw [TransitionSystem.exec_cons] at h
  exact Option.bind_eq_some_iff.mp h

/-- Outside the call there is no step. -/
theorem exec_ended {p : Point T} (hp : p.sends = false)
    (h : (sendBytes listening t input sender).exec (p, acc) steps = some r) :
    steps = [] ∧ r = (p, acc) := by
  cases steps with
  | nil => exact ⟨rfl, (Option.some.inj h).symm⟩
  | cons a steps =>
      obtain ⟨r₁, hstep, -⟩ := exec_step h
      simp only [sendStep, hp, Bool.false_eq_true, if_false, reduceCtorEq] at hstep

theorem moves_of_act (hp : p.sender = some sender) :
    act listening t m p choice = some (m', p') →
      Moves sender m p (issued p choice) m' p' ∧
        outcomes [(m, choice)] = (issued p choice).map Prod.snd := by
  fun_cases act listening t m p choice
  all_goals
    simp only [Option.some.injEq, Prod.mk.injEq, reduceCtorEq, false_implies, and_imp]
    try rintro rfl rfl
  all_goals try cases hp
  case case18.refl bytes =>
    split_ifs with h
    · exact ⟨.enter bytes h, rfl⟩
    · exact ⟨.refuse bytes (Bool.eq_false_iff.mpr h), rfl⟩
  case case19.refl sentBytes bytes =>
    split_ifs with h
    · exact ⟨.offer sentBytes bytes h, rfl⟩
    · exact ⟨.leave sentBytes bytes h, rfl⟩
  case case20.refl bytes n h => exact ⟨.accept n bytes h, rfl⟩
  case case22.refl bytes => exact ⟨.wouldBlock bytes, rfl⟩
  case case23.refl bytes => exact ⟨.fail bytes, rfl⟩
  case case24.refl => exact ⟨.throw, rfl⟩

/-- A step of the call, with what it leaves to be read off a run. -/
theorem sendStep_moves {p : Point T} (hp : p.sender = some sender)
    (h : sendStep listening t (p, acc) a = some r) :
    ∃ issued m', Moves sender a.1 p issued m' r.1 ∧ r.2 = acc ++ issued.flatMap accepted ∧
      outcomes [a] = issued.map Prod.snd := by
  rw [sendStep] at h
  split_ifs at h
  obtain ⟨⟨m', p'⟩, hact, rfl⟩ := Option.map_eq_some_iff.mp h
  obtain ⟨hmove, hout⟩ := moves_of_act hp hact
  exact ⟨_, m', hmove, congrArg (acc ++ ·) (taken_eq p a.2), hout⟩

theorem sendStep_test (h : sendStep listening t (.sendTest bytes sender, acc) a = some r)
    (hactive : a.1.isActive = true) :
    outcomes [a] = [] ∧ r = (.sendLoop 0 bytes sender, acc) := by
  obtain ⟨p', acc'⟩ := r
  obtain ⟨issued, m', hmove, rfl, hout⟩ := sendStep_moves rfl h
  cases hmove with
  | enter => exact ⟨hout, Prod.ext rfl (List.append_nil acc)⟩
  | refuse _ hinactive => exact absurd hactive (Bool.eq_false_iff.mp hinactive)

theorem sendStep_loop (h : sendStep listening t (.sendLoop sentBytes bytes sender, acc) a = some r)
    (hactive : a.1.isActive = true) :
    outcomes [a] = [] ∧ r = (if toSize sentBytes < bytes.length then .sendCall bytes sender
      else sender.returns, acc) := by
  obtain ⟨p', acc'⟩ := r
  obtain ⟨issued, m', hmove, rfl, hout⟩ := sendStep_moves rfl h
  cases hmove with
  | offer _ _ hlt => exact ⟨hout, Prod.ext (if_pos hlt.1).symm (List.append_nil acc)⟩
  | leave _ _ hnot =>
      have hge : ¬ toSize sentBytes < bytes.length := fun hlt => hnot ⟨hlt, hactive⟩
      exact ⟨hout, Prod.ext (if_neg hge).symm (List.append_nil acc)⟩

/-- A call of `send` takes a part of what it is offered, or fails. -/
theorem sendStep_call (h : sendStep listening t (.sendCall bytes sender, acc) a = some r) :
    (∃ n ≤ bytes.length, outcomes [a] = [.accepted n] ∧
        r = (.sendLoop n (if toSize n < bytes.length then bytes.drop n else bytes) sender,
          acc ++ bytes.take n)) ∨
      (outcomes [a] = [.wouldBlock] ∧ r = (.sendLoop (-1) bytes sender, acc)) ∨
      (outcomes [a] = [.error] ∧ r = (.sendFailed sender, acc)) := by
  obtain ⟨p', acc'⟩ := r
  obtain ⟨issued, m', hmove, rfl, hout⟩ := sendStep_moves rfl h
  cases hmove with
  | accept n _ hn =>
      exact Or.inl ⟨n, hn, hout, Prod.ext rfl (congrArg (acc ++ ·) (List.append_nil _))⟩
  | wouldBlock => exact Or.inr (Or.inl ⟨hout, Prod.ext rfl (List.append_nil acc)⟩)
  | fail => exact Or.inr (Or.inr ⟨hout, Prod.ext rfl (List.append_nil acc)⟩)

/-- After a `send` that failed nothing is sent any more. -/
theorem exec_failed (hr : r.1.sends = false)
    (h : (sendBytes listening t input sender).exec (.sendFailed sender, acc) steps = some r) :
    r.2 = acc := by
  cases steps with
  | nil =>
      obtain rfl := Option.some.inj h
      cases hr
  | cons a steps =>
      obtain ⟨⟨p', acc'⟩, hstep, hrest⟩ := exec_step h
      obtain ⟨issued, m', hmove, rfl, -⟩ := sendStep_moves rfl hstep
      cases hmove with
      | throw =>
          obtain ⟨-, rfl⟩ := exec_ended sender.catches_sends hrest
          exact List.append_nil acc

/-- What the rest of a call comes to, from the call of `send` and from the test of the loop. -/
theorem exec_loop (hsize : bytes.length < 2 ^ 64) (hactive : ∀ a ∈ steps, a.1.isActive = true)
    (hr : r.1.sends = false) :
    ((sendBytes listening t input sender).exec (.sendCall bytes sender, acc) steps = some r →
      bytes ≠ [] →
      (r.2 = acc ++ bytes ↔ TakesAllOrLessThanHalf bytes.length (outcomes steps))) ∧
    ∀ sentBytes,
      (sendBytes listening t input sender).exec (.sendLoop sentBytes bytes sender, acc) steps =
        some r →
      if toSize sentBytes < bytes.length then
        (r.2 = acc ++ bytes ↔ TakesAllOrLessThanHalf bytes.length (outcomes steps))
      else r.2 = acc ∧ outcomes steps = [] := by
  induction steps generalizing bytes acc with
  | nil =>
      refine ⟨fun h => ?_, fun sentBytes h => ?_⟩
      all_goals
        obtain rfl := Option.some.inj h
        cases hr
  | cons a steps ih =>
      obtain ⟨ha, hsteps⟩ := List.forall_mem_cons.mp hactive
      rw [outcomes_cons]
      constructor
      · intro h hne
        obtain ⟨r₁, hstep, hrest⟩ := exec_step h
        have hshort : ¬ acc = acc ++ bytes :=
          fun heq => hne (List.append_right_eq_self.mp heq.symm)
        rcases sendStep_call hstep with ⟨n, hn, hout, rfl⟩ | ⟨hout, rfl⟩ | ⟨hout, rfl⟩
        · rw [hout, List.singleton_append, TakesAllOrLessThanHalf]
          have htoSize : toSize n = n := toSize_natCast (by omega)
          rw [htoSize] at hrest
          by_cases hlt : n < bytes.length
          · rw [if_pos hlt] at hrest
            have hdrop : (bytes.drop n).length = bytes.length - n := List.length_drop
            have hend := (ih (by omega) hsteps).2 n hrest
            rw [htoSize, hdrop, List.append_assoc, List.take_append_drop] at hend
            split_ifs at hend with hmore
            · rw [hend]
              exact (and_iff_right (fun _ => by omega)).symm
            · rw [hend.1]
              refine iff_of_false (fun heq => ?_) (fun hboth => ?_)
              · have htake := congrArg List.length (List.append_cancel_left heq)
                rw [List.length_take] at htake
                omega
              · have hhalf := hboth.1 hlt
                omega
          · rw [if_neg hlt] at hrest
            have hend := (ih hsize hsteps).2 n hrest
            rw [htoSize, if_neg hlt, List.take_of_length_le (by omega)] at hend
            rw [hend.1, hend.2]
            exact iff_of_true rfl ⟨fun hlt' => absurd hlt' hlt, trivial⟩
        · have hend := (ih hsize hsteps).2 _ hrest
          rw [if_neg (not_toSize_neg_one_lt hsize)] at hend
          rw [hout, hend.1]
          exact iff_of_false hshort id
        · rw [hout, exec_failed hr hrest]
          exact iff_of_false hshort id
      · intro sentBytes h
        obtain ⟨r₁, hstep, hrest⟩ := exec_step h
        obtain ⟨hout, rfl⟩ := sendStep_loop hstep ha
        rw [hout, List.nil_append]
        split_ifs at hrest ⊢ with hmore
        · have hne : bytes ≠ [] := by
            rintro rfl
            cases hmore
          exact (ih hsize hsteps).1 hrest hne
        · obtain ⟨rfl, rfl⟩ := exec_ended sender.returns_sends hrest
          exact ⟨rfl, rfl⟩

/-- On a channel that stays active, a call that is over has sent its whole input exactly when no
`send` fails and none takes half of what it is offered or more without taking all. -/
theorem sendBytes_complete_iff (hsize : bytes.length < 2 ^ 64)
    (hactive : ∀ a ∈ steps, a.1.isActive = true)
    (h : (sendBytes listening t bytes sender).exec
        (sendBytes listening t bytes sender).start steps =
      some r) (hr : r.1.sends = false) :
    r.2 = bytes ↔ TakesAllOrLessThanHalf bytes.length (outcomes steps) := by
  cases steps with
  | nil =>
      obtain rfl := Option.some.inj h
      cases hr
  | cons a steps =>
      obtain ⟨ha, hsteps⟩ := List.forall_mem_cons.mp hactive
      obtain ⟨r₁, hstep, hrest⟩ := exec_step h
      obtain ⟨hout, rfl⟩ := sendStep_test hstep ha
      rw [outcomes_cons, hout, List.nil_append]
      have hend := (exec_loop hsize hsteps hr).2 0 hrest
      rw [show toSize 0 = 0 from rfl] at hend
      split_ifs at hend with hpos
      · exact hend
      · obtain rfl : bytes = [] := List.length_eq_zero_iff.mp (by omega)
        rw [hend.1, hend.2]
        exact iff_of_true rfl trivial

/-- Steps on a channel that nobody else has touched. -/
def untouched (choices : List (Choice Unit)) : List (Mem Unit × Choice Unit) :=
  choices.map (fun choice => ((initial Unit).mem, choice))

/-- A would-block before anything is sent: the call returns and has sent nothing. -/
theorem not_sendBytes_complete :
    ¬ ∀ (bytes : Bytes) (steps : List (Mem Unit × Choice Unit)) (r : Point Unit × Bytes),
      bytes.length < 2 ^ 64 → (∀ a ∈ steps, a.1.isActive = true) →
      (∀ sent ∈ outcomes steps, sent = .wouldBlock ∨ ∃ n, 1 ≤ n ∧ sent = .accepted n) →
      (sendBytes false () bytes (.handleWriteQueue [])).exec
        (sendBytes false () bytes (.handleWriteQueue [])).start steps = some r →
      r.1 = (Sender.handleWriteQueue []).returns → r.2 = bytes := by
  intro h
  have hempty := h [1, 2, 3]
    (untouched [.go, .go, .send .wouldBlock, .go]) (.writeNext [], []) (by decide) (by decide)
    (by simp [outcomes, untouched]) rfl rfl
  cases hempty

/-- Five bytes in three calls of `send`, which take two, one and the last two. -/
theorem sendBytes_complete_in_three_calls :
    ∃ steps r, outcomes steps = [.accepted 2, .accepted 1, .accepted 2] ∧
      (sendBytes false () [1, 2, 3, 4, 5] (.handleWriteQueue [])).exec
        (sendBytes false () [1, 2, 3, 4, 5] (.handleWriteQueue [])).start steps = some r ∧
      r.2 = [1, 2, 3, 4, 5] := by
  let steps := untouched [.go, .go, .send (.accepted 2), .go, .send (.accepted 1), .go,
    .send (.accepted 2), .go]
  let r : Point Unit × Bytes := (.writeNext [], [1, 2, 3, 4, 5])
  have hrun : (sendBytes false () [1, 2, 3, 4, 5] (.handleWriteQueue [])).exec
      (sendBytes false () [1, 2, 3, 4, 5] (.handleWriteQueue [])).start steps = some r := rfl
  have hout : outcomes steps = [.accepted 2, .accepted 1, .accepted 2] := rfl
  refine ⟨steps, r, hout, hrun, (sendBytes_complete_iff (by decide) (by decide) hrun rfl).mpr ?_⟩
  rw [hout]
  simp [TakesAllOrLessThanHalf]

end Steps

/-! ### The calls in a run of the channel -/

section Runs

variable [DecidableEq T] {listening : Bool} {t : T} {input : Bytes} {sender : Sender T}
  {s s' : State T} {a : Label T} {as : List (Label T)}

/-- A step of the channel is one of the call, or it leaves the thread of the call where it is. -/
theorem next_sendStep (h : next listening s a = some s') (hin : (s.points t).sends) (acc : Bytes) :
    (∃ choice, sendStep listening t (s.points t, acc) (s.mem, choice) =
        some (s'.points t, acc ++ taken (s.points t) choice)) ∨ s'.points t = s.points t := by
  obtain ⟨u, choice, m', p', rfl, hact, rfl⟩ | ⟨-, active, socketActive, rfl, -⟩ := next_cases h
  · by_cases hu : t = u
    · subst u
      left
      refine ⟨choice, ?_⟩
      have hpoint : Function.update s.points t p' t = p' := Function.update_self ..
      simp only [sendStep, if_pos hin, hact, Option.map_some, hpoint]
    · exact Or.inr (Function.update_of_ne hu ..)
  · exact Or.inr rfl

/-- What a thread does inside a call, in any run of the channel, is a run of the call. -/
theorem exec_sendBytes (h : (system T listening).exec s as = some s')
    (hin : (system T listening).Along (fun s _ => (s.points t).sends) s as) (acc : Bytes) :
    ∃ steps acc', (sendBytes listening t input sender).exec (s.points t, acc) steps =
      some (s'.points t, acc') := by
  induction as generalizing s acc with
  | nil =>
      obtain rfl := Option.some.inj h
      exact ⟨[], acc, rfl⟩
  | cons a as ih =>
      rw [TransitionSystem.exec_cons] at h
      obtain ⟨s₁, hs₁, hrest⟩ := Option.bind_eq_some_iff.mp h
      rcases next_sendStep hs₁ hin.1 acc with ⟨choice, hstep⟩ | hsame
      · obtain ⟨steps, acc', hsteps⟩ := ih hrest (hin.2 s₁ hs₁) (acc ++ taken (s.points t) choice)
        refine ⟨(s.mem, choice) :: steps, acc', ?_⟩
        rw [TransitionSystem.exec_cons, show (sendBytes listening t input sender).next _ _ = _ from
          hstep]
        exact hsteps
      · obtain ⟨steps, acc', hsteps⟩ := ih hrest (hin.2 s₁ hs₁) acc
        exact ⟨steps, acc', by rwa [← hsame]⟩

end Runs
end SocketLib.Channel
