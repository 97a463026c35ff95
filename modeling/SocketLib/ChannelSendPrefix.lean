import SocketLib.ChannelSend

/-!
# What one call of `sendBytes` puts on the wire

The call is followed with every `send` it issues, what that is offered and what it returns, and with
the memory that its last step leaves; each step finds whatever memory the others have left, so the
channel or its socket may be stopped at any moment.

The span is advanced on one way round the loop only. On the others it stays what it was, and on the
way that takes all of it the loop ends: what has been accepted and what is left of the span make up
the input, or all of it has been accepted and the test of the loop fails (`Remains`). A `send` that
fails is the last one, and the call throws with the channel inactive (`Threw`).
-/

namespace SocketLib.Channel

variable {T : Type*}

/-- A call with the memory its last step left, what its calls of `send` were offered and returned,
and whether it has thrown. -/
structure Call (T : Type*) where
  point : Point T
  mem : Mem T
  sends : List (Bytes × Sent)
  thrown : Bool

/-- What has been accepted, in the order of the calls of `send`. -/
def Call.sent (c : Call T) : Bytes := c.sends.flatMap accepted

/-- Between the `send` that failed and the exception. -/
def Point.failed : Point T → Bool
  | .sendFailed _ => true
  | _ => false

section Steps

variable [DecidableEq T] (listening : Bool) (t : T)

def callNext (c : Call T) (a : Mem T × Choice T) : Option (Call T) :=
  if c.point.sends then
    (act listening t a.1 c.point a.2).map
      (fun r => ⟨r.2, r.1, c.sends ++ issued c.point a.2, c.point.failed⟩)
  else none

def call (m : Mem T) (bytes : Bytes) (sender : Sender T) :
    TransitionSystem (Call T) (Mem T × Choice T) :=
  ⟨⟨.sendTest bytes sender, m, [], false⟩, callNext listening t⟩

end Steps

/-- The call is over by an exception and has left the channel inactive. -/
def Call.Threw (sender : Sender T) (c : Call T) : Prop :=
  c.thrown = true ∧ c.point = sender.catches ∧ c.mem.active = false

/-- The next step of the call throws, whatever it finds. -/
def Call.Throws [DecidableEq T] (listening : Bool) (t : T) (sender : Sender T) (c : Call T) :
    Prop :=
  (∀ m, ∃ c', callNext listening t c (m, .go) = some c') ∧
    ∀ a c', callNext listening t c a = some c' → c'.Threw sender

/-- What has been accepted, next to what is left of the span at this point of the call. -/
def Remains (input sent : Bytes) : Point T → Prop
  | .sendTest bytes _ | .sendCall bytes _ => sent ++ bytes = input
  | .sendLoop sentBytes bytes _ =>
      sent ++ bytes = input ∨ sent = input ∧ ¬ toSize sentBytes < bytes.length
  | _ => sent <+: input

theorem Remains.isPrefix {input sent : Bytes} {p : Point T} (h : Remains input sent p) :
    sent <+: input := by
  cases p with
  | sendTest bytes _ | sendCall bytes _ => exact ⟨bytes, h⟩
  | sendLoop _ bytes _ =>
      rcases h with h | ⟨rfl, -⟩
      · exact ⟨bytes, h⟩
      · exact List.prefix_rfl
  | _ => exact h

/-- Outside the loop nothing is left to be advanced. -/
theorem remains_of_not_sends {input sent : Bytes} {p : Point T} (hp : p.sends = false)
    (h : sent <+: input) : Remains input sent p := by
  cases p with
  | sendTest _ _ | sendCall _ _ | sendLoop _ _ _ | sendFailed _ => cases hp
  | _ => exact h

/-- No `send` has failed but for a would-block. -/
def NoError (sends : List (Bytes × Sent)) : Prop := Sent.error ∉ sends.map Prod.snd

theorem noError_append {sends issued : List (Bytes × Sent)} :
    NoError (sends ++ issued) ↔ NoError sends ∧ NoError issued := by
  rw [NoError, List.map_append, List.mem_append, not_or]
  rfl

section Moves

variable {m m' : Mem T} {input : Bytes} {sender : Sender T} {p p' : Point T}
  {sends issued : List (Bytes × Sent)}

/-- The span is advanced by what was accepted, or there is nothing left to do with it. -/
theorem Moves.remains (h : Moves sender m p issued m' p')
    (hr : Remains input (sends.flatMap accepted) p) :
    Remains input ((sends ++ issued).flatMap accepted) p' := by
  have hsame : ∀ {issued}, issued.flatMap accepted = [] →
      (sends ++ issued).flatMap accepted = sends.flatMap accepted := by
    intro issued hnone
    rw [List.flatMap_append, hnone, List.append_nil]
  cases h with
  | enter bytes _ =>
      rw [hsame rfl]
      exact Or.inl hr
  | refuse bytes _ =>
      rw [hsame rfl]
      exact remains_of_not_sends sender.returns_sends hr.isPrefix
  | offer sentBytes bytes hlt =>
      rw [hsame rfl]
      exact hr.resolve_right (fun hall => hall.2 hlt.1)
  | leave sentBytes bytes _ =>
      rw [hsame rfl]
      exact remains_of_not_sends sender.returns_sends hr.isPrefix
  | accept n bytes hn =>
      have htaken : [(bytes, Sent.accepted n)].flatMap accepted = bytes.take n :=
        List.append_nil _
      rw [List.flatMap_append, htaken]
      split_ifs with hlt
      · left
        rw [List.append_assoc, List.take_append_drop]
        exact hr
      · -- a count that does not compare as less is that of the whole span, also as a `size_t`
        have hmod : toSize n ≤ n := by
          unfold toSize
          omega
        right
        rw [List.take_of_length_le (by omega)]
        exact ⟨hr, hlt⟩
  | wouldBlock bytes =>
      rw [hsame rfl]
      exact Or.inl hr
  | fail bytes =>
      rw [hsame rfl]
      exact ⟨bytes, hr⟩
  | throw =>
      rw [hsame rfl]
      exact remains_of_not_sends sender.catches_sends hr.isPrefix

theorem Sender.returns_failed (sender : Sender T) : sender.returns.failed = false := by
  cases sender <;> rfl

/-- A step issues a `send` that fails exactly when it leads to the exception. -/
theorem Moves.failed (h : Moves sender m p issued m' p') (hp : p.failed = false) :
    (NoError issued ∧ p'.failed = false) ∨
      ∃ offered, issued = [(offered, .error)] ∧ p' = .sendFailed sender := by
  cases h with
  | enter | offer => exact Or.inl ⟨List.not_mem_nil, rfl⟩
  | refuse | leave => exact Or.inl ⟨List.not_mem_nil, sender.returns_failed⟩
  | accept | wouldBlock => exact Or.inl ⟨by simp [NoError], rfl⟩
  | fail bytes => exact Or.inr ⟨bytes, rfl, rfl⟩
  | throw => cases hp

theorem Moves.of_sendFailed (h : Moves sender m (.sendFailed sender) issued m' p') :
    issued = [] ∧ p' = sender.catches ∧ m'.active = false := by
  cases h with
  | throw => exact ⟨rfl, rfl, rfl⟩

/-- The sender of a call stays the same up to its end. -/
theorem Moves.keeps_sender (h : Moves sender m p issued m' p') :
    p'.sends = false ∨ p'.sender = some sender := by
  cases h with
  | refuse | leave => exact Or.inl sender.returns_sends
  | throw => exact Or.inl sender.catches_sends
  | _ => exact Or.inr rfl

end Moves

section Call

variable [DecidableEq T] {listening : Bool} {t : T} {m : Mem T} {input : Bytes}
  {sender : Sender T} {c c' : Call T} {a : Mem T × Choice T}

theorem callNext_eq_some (h : callNext listening t c a = some c') :
    c.point.sends ∧ c'.thrown = c.point.failed ∧ ∀ sender, c.point.sender = some sender →
      ∃ issued, c'.sends = c.sends ++ issued ∧ Moves sender a.1 c.point issued c'.mem c'.point := by
  rw [callNext] at h
  split_ifs at h with hsends
  obtain ⟨r, hact, rfl⟩ := Option.map_eq_some_iff.mp h
  exact ⟨hsends, rfl, fun sender hsender => ⟨_, rfl, (moves_of_act hsender hact).1⟩⟩

/-- From the failed `send` on there is one way. -/
theorem throws_of_sendFailed (hc : c.point = .sendFailed sender) :
    c.Throws listening t sender := by
  constructor
  · intro m
    refine ⟨⟨sender.catches, m.queueShutdown, c.sends ++ [], true⟩, ?_⟩
    rw [callNext, hc]
    rfl
  · intro a c' h
    obtain ⟨-, hthrown, hmoves⟩ := callNext_eq_some h
    rw [hc] at hthrown hmoves
    obtain ⟨issued, -, hmove⟩ := hmoves sender rfl
    exact ⟨hthrown, hmove.of_sendFailed.2⟩

/-! ### The invariant -/

/-- How a call stands after any of its steps. -/
structure Sending (input : Bytes) (sender : Sender T) (c : Call T) : Prop where
  ofSender : c.point.sends = false ∨ c.point.sender = some sender
  remains : Remains input c.sent c.point
  failed : (NoError c.sends ∧ c.point.failed = false ∧ c.thrown = false) ∨
    ∃ tried offered, c.sends = tried ++ [(offered, .error)] ∧ NoError tried ∧
      (c.Threw sender ∨ c.point = .sendFailed sender)

theorem sending_start : Sending input sender (call listening t m input sender).start where
  ofSender := Or.inr rfl
  remains := rfl
  failed := Or.inl ⟨List.not_mem_nil, rfl, rfl⟩

theorem Sending.next (hs : Sending input sender c) (h : callNext listening t c a = some c') :
    Sending input sender c' := by
  obtain ⟨hsends, hthrown, hmoves⟩ := callNext_eq_some h
  have hsender : c.point.sender = some sender :=
    hs.ofSender.resolve_left (fun hno => Bool.eq_false_iff.mp hno hsends)
  obtain ⟨issued, hissued, hmove⟩ := hmoves sender hsender
  constructor
  case ofSender => exact hmove.keeps_sender
  case remains =>
    rw [Call.sent, hissued]
    exact hmove.remains hs.remains
  case failed =>
    rcases hs.failed with ⟨hnone, hpoint, -⟩ | ⟨tried, offered, htried, hnone, hend⟩
    · rcases hmove.failed hpoint with ⟨hok, hpoint'⟩ | ⟨offered, hfail, hpoint'⟩
      · left
        rw [hissued, noError_append]
        exact ⟨⟨hnone, hok⟩, hpoint', hthrown.trans hpoint⟩
      · exact Or.inr ⟨c.sends, offered, by rw [hissued, hfail], hnone, Or.inr hpoint'⟩
    · rcases hend with hthrew | hpoint
      · rw [hthrew.2.1, sender.catches_sends] at hsends
        cases hsends
      · rw [hpoint] at hmove hthrown
        obtain ⟨rfl, hend⟩ := hmove.of_sendFailed
        rw [List.append_nil] at hissued
        exact Or.inr ⟨tried, offered, hissued.trans htried, hnone, Or.inl ⟨hthrown, hend⟩⟩

theorem sending_of_reachable (h : (call listening t m input sender).Reachable c) :
    Sending input sender c :=
  h.invariant sending_start (fun _ _ _ _ hs _ hnext => hs.next hnext)

/-- At any time, what the calls of `send` of one `sendBytes` have accepted is a prefix of its input;
and if one of them failed with another error than a would-block, it is the last one, and the call has
thrown with the channel inactive or does so in its next step. -/
theorem sendBytes_prefix (h : (call listening t m input sender).Reachable c) :
    c.sends.flatMap accepted <+: input ∧
      (Sent.error ∈ c.sends.map Prod.snd →
        (∃ tried offered, c.sends = tried ++ [(offered, .error)] ∧
          Sent.error ∉ tried.map Prod.snd) ∧
        (c.Threw sender ∨ c.Throws listening t sender)) := by
  have hs := sending_of_reachable h
  refine ⟨hs.remains.isPrefix, fun herror => ?_⟩
  rcases hs.failed with ⟨hnone, -⟩ | ⟨tried, offered, htried, hnone, hend⟩
  · exact absurd herror hnone
  · exact ⟨⟨tried, offered, htried, hnone⟩, hend.imp_right throws_of_sendFailed⟩

end Call

/-- Two of five bytes are taken, then the connection fails. -/
theorem sendBytes_prefix_broken_off :
    ∃ c : Call Unit,
      (call false () (initial Unit).mem [1, 2, 3, 4, 5] (.handleWriteQueue [])).Reachable c ∧
      c.thrown = true ∧ c.sends.flatMap accepted = [1, 2] ∧
      ([1, 2] : Bytes) <+: [1, 2, 3, 4, 5] ∧
      ∃ tried offered, c.sends = tried ++ [(offered, .error)] ∧
        Sent.error ∉ tried.map Prod.snd := by
  have hrun : ((call false () (initial Unit).mem [1, 2, 3, 4, 5] (.handleWriteQueue [])).exec
      (call false () (initial Unit).mem [1, 2, 3, 4, 5] (.handleWriteQueue [])).start
      (untouched [.go, .go, .send (.accepted 2), .go, .send .error, .go])).any (fun c =>
        c.thrown ∧ c.sends.flatMap accepted = [1, 2] ∧ Sent.error ∈ c.sends.map Prod.snd) =
      true := by decide
  obtain ⟨c, hc, hstate⟩ := TransitionSystem.exists_reachedBy_of_execWhile hrun
  rw [decide_eq_true_eq] at hstate
  obtain ⟨hthrown, hsent, herror⟩ := hstate
  obtain ⟨hpre, hlast⟩ := sendBytes_prefix hc
  rw [hsent] at hpre
  exact ⟨c, hc, hthrown, hsent, hpre, (hlast herror).1⟩

/-! ### The calls in a run of the channel -/

section Runs

variable [DecidableEq T] {listening : Bool} {t : T} {m : Mem T} {input : Bytes} {sender : Sender T}

/-- The call takes the steps of `sendBytes`, whatever they leave in memory. -/
theorem sendStep_eq_map (c : Call T) (a : Mem T × Choice T) :
    sendStep listening t (c.point, c.sent) a =
      (callNext listening t c a).map (fun c' => (c'.point, c'.sent)) := by
  rw [sendStep, callNext]
  split_ifs with hsends
  · rw [Option.map_map]
    congr 1
    funext r
    rw [taken_eq, Function.comp_apply, Call.sent, Call.sent, List.flatMap_append]
  · rfl

theorem exec_sendBytes_eq_map (c : Call T) (steps : List (Mem T × Choice T)) :
    (sendBytes listening t input sender).exec (c.point, c.sent) steps =
      ((call listening t m input sender).exec c steps).map (fun c' => (c'.point, c'.sent)) :=
  TransitionSystem.exec_map (S := call listening t m input sender)
    (f := fun c => (c.point, c.sent)) sendStep_eq_map c steps

/-- What a thread does inside a call, in any run of the channel, is a run of the call. -/
theorem reachable_call {s s' : State T} {as : List (Label T)}
    (h : (system T listening).exec s as = some s')
    (hin : (system T listening).Along (fun s _ => (s.points t).sends) s as)
    (hstart : s.points t = .sendTest input sender) :
    ∃ c, (call listening t m input sender).Reachable c ∧ c.point = s'.points t := by
  have hcall : ∃ steps acc, (sendBytes listening t input sender).exec (s.points t, []) steps =
      some (s'.points t, acc) := exec_sendBytes h hin []
  rw [hstart] at hcall
  obtain ⟨steps, acc, hsteps⟩ := hcall
  have hmap : (sendBytes listening t input sender).exec (.sendTest input sender, []) steps =
      ((call listening t m input sender).exec (call listening t m input sender).start steps).map
        (fun c => (c.point, c.sent)) :=
    exec_sendBytes_eq_map (call listening t m input sender).start steps
  obtain ⟨c, hc, heq⟩ := Option.map_eq_some_iff.mp (hmap.symm.trans hsteps)
  exact ⟨c, TransitionSystem.execWhile_reachedBy .start hc, congrArg Prod.fst heq⟩

end Runs
end SocketLib.Channel
