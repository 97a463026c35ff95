import SocketLib.ChannelLocks

/-!
# A channel after its shutdown

Once `active` is false it stays false, and every thread stops at its next test of it. A thread that
is past its last test has at most one call of `recv` or `send`, or one message for `writeQueue`,
left (`Point.effectsLeft`); of the threads past the test in `sendBytes` there is only one, since
they work under `writeLock`. Bytes go into the incoming queue only right after a test, so those that
a worker has received and not tested for yet are dropped.
-/

namespace SocketLib.Channel

open LockHolder

variable {T : Type*}

def Point.callsSend : Point T → Bool
  | .sendCall _ _ => true
  | _ => false

def Point.callsRecv : Point T → Bool
  | .readRecv _ => true
  | _ => false

/-- The steps that issue a `recv` or a `send` or add to `writeQueue`. -/
def Point.hasEffect : Point T → Bool
  | .sendCall _ _ | .readRecv _ | .queueEnqueue _ => true
  | _ => false

/-- The steps that put bytes in `incomingQueue` or show it to a listener. -/
def Point.delivers : Point T → Bool
  | .readEnqueue _ | .readListen => true
  | _ => false

/-- The steps of any thread, or of one thread, that are taken from such a point. -/
def Takes (kind : Point T → Bool) (s : State T) : Label T → Bool
  | .thread t _ => kind (s.points t)
  | _ => false

def TakesBy [DecidableEq T] (u : T) (kind : Point T → Bool) (s : State T) : Label T → Bool
  | .thread t _ => decide (t = u) && kind (s.points t)
  | _ => false

/-- What a thread can still do when it finds the channel inactive at its next test. -/
def Point.effectsLeft : Point T → ℕ
  | .sendCall _ _ | .readTryLock _ | .readRecv _ | .queueEnqueue _ => 1
  | _ => 0

theorem Point.effectsLeft_le_one (p : Point T) : p.effectsLeft ≤ 1 := by
  unfold Point.effectsLeft
  split <;> omega

/-- Whether the holder of `writeLock` is about to call `send`. -/
def State.sendsLeft (s : State T) : ℕ :=
  inHand (fun p => p.callsSend.toNat) 0 s.mem.writeLock s.points

theorem State.sendsLeft_le_one (s : State T) : s.sendsLeft ≤ 1 := by
  unfold State.sendsLeft inHand
  cases s.mem.writeLock with
  | none => exact Nat.zero_le _
  | some t => exact Bool.toNat_le _

theorem Point.callsSend_of_not_writes (p : Point T) (h : p.writes = false) :
    p.callsSend.toNat = 0 := by
  cases p with
  | sendCall _ _ => cases h
  | _ => rfl

section Steps

variable [DecidableEq T] {listening : Bool} {t : T} {m m' : Mem T} {p p' : Point T}
  {choice : Choice T}

/-- On an inactive channel a step uses up what its thread has left. -/
theorem act_inactive : act listening t m p choice = some (m', p') → m.active = false →
      m'.active = false ∧
      p.hasEffect.toNat + p'.effectsLeft ≤ p.effectsLeft ∧
      p'.callsSend = false ∧
      (p'.delivers → p.delivers) ∧
      (∀ bytes, p' ≠ .readEnqueue bytes) := by
  fun_cases act listening t m p choice
  all_goals
    simp only [Option.some.injEq, Prod.mk.injEq, reduceCtorEq, false_implies, and_imp]
    try rintro rfl rfl
  case' case10 zero => cases zero
  case' case37 => cases listening
  all_goals try cases ‹Sender T›
  all_goals
    intro hactive
    simp_all [Point.hasEffect, Point.effectsLeft, Point.callsSend, Point.delivers, Mem.isActive,
      Mem.queueShutdown, Sender.returns, Sender.catches]

/-- The stream grows by what is enqueued. -/
theorem act_stream : act listening t m p choice = some (m', p') →
    m'.dequeued ++ m'.incomingQueue = m.dequeued ++ m.incomingQueue ∨
      ∃ bytes, p = .readEnqueue bytes ∧
        m'.dequeued ++ m'.incomingQueue = m.dequeued ++ m.incomingQueue ++ bytes := by
  fun_cases act listening t m p choice
  all_goals
    simp only [Option.some.injEq, Prod.mk.injEq, reduceCtorEq, false_implies, and_imp]
    try rintro rfl rfl
  case case37 bytes => exact Or.inr ⟨bytes, rfl, (List.append_assoc ..).symm⟩
  case case38 maxCount =>
    left
    rw [List.append_assoc, List.take_append_drop]
  all_goals exact Or.inl rfl

end Steps

/-! ### Runs from the shutdown on -/

section Runs

variable [DecidableEq T] {listening : Bool} {s s' : State T} {as : List (Label T)} {a : Label T}

theorem next_inactive (h : next listening s a = some s') (hdown : s.mem.active = false) :
    s'.mem.active = false := by
  obtain ⟨t, choice, m', p', rfl, hact, rfl⟩ | ⟨-, active, socketActive, rfl, hkeep, -⟩ :=
    next_cases h
  · exact (act_inactive hact hdown).1
  · exact Bool.eq_false_iff.mpr (fun hactive => Bool.eq_false_iff.mp hdown (hkeep hactive))

/-- Each step of a thread that has an effect uses up one of those it has left. -/
theorem next_effectsLeft (h : next listening s a = some s') (hdown : s.mem.active = false) (u : T) :
    (TakesBy u Point.hasEffect s a).toNat + (s'.points u).effectsLeft ≤
      (s.points u).effectsLeft := by
  obtain ⟨t, choice, m', p', rfl, hact, rfl⟩ | ⟨hnot, active, socketActive, rfl, -⟩ := next_cases h
  · by_cases hu : t = u
    · subst u
      simp only [TakesBy, decide_true, Bool.true_and, Function.update_self]
      exact (act_inactive hact hdown).2.1
    · simp only [TakesBy, hu, decide_false, Bool.false_and, Bool.toNat_false, Nat.zero_add,
        Function.update_of_ne (Ne.symm hu), le_refl]
  · cases a with
    | thread t choice => exact absurd rfl (hnot t choice)
    | _ => exact (Nat.zero_add _).le

theorem next_sendsLeft (h : next listening s a = some s') (hdown : s.mem.active = false)
    (hl : Locked s) : (Takes Point.callsSend s a).toNat + s'.sendsLeft ≤ s.sendsLeft := by
  obtain ⟨t, choice, m', p', rfl, hact, rfl⟩ | ⟨hnot, active, socketActive, rfl, -⟩ := next_cases h
  · obtain ⟨-, -, hp', -⟩ := act_inactive hact hdown
    obtain ⟨hhand, hhand'⟩ | ⟨hp, -, hhand⟩ :=
      hl.write.inHand_update (hl.act hact).write Point.callsSend_of_not_writes
    · rw [State.sendsLeft, State.sendsLeft, hhand, hhand', hp']
      exact le_rfl
    · rw [State.sendsLeft, State.sendsLeft, hhand, Takes, Point.callsSend_of_not_writes _ hp,
        Nat.zero_add]
  · cases a with
    | thread t choice => exact absurd rfl (hnot t choice)
    | _ => exact (Nat.zero_add _).le

theorem next_delivers (h : next listening s a = some s') (hdown : s.mem.active = false) {u : T}
    (hu : (s.points u).delivers = false) :
    (s'.points u).delivers = false ∧ TakesBy u Point.delivers s a = false := by
  obtain ⟨t, choice, m', p', rfl, hact, rfl⟩ | ⟨hnot, active, socketActive, rfl, -⟩ := next_cases h
  · obtain ⟨-, -, -, hkeep, -⟩ := act_inactive hact hdown
    by_cases htu : t = u
    · subst u
      simp only [TakesBy, Function.update_self, hu, Bool.and_false, and_true]
      exact Bool.eq_false_iff.mpr (fun hp' => Bool.eq_false_iff.mp hu (hkeep hp'))
    · simp only [TakesBy, htu, decide_false, Bool.false_and, and_true,
        Function.update_of_ne (Ne.symm htu), hu]
  · cases a with
    | thread t choice => exact absurd rfl (hnot t choice)
    | _ => exact ⟨hu, rfl⟩

/-- What the runs from the shutdown on keep. -/
def Down (s : State T) : Prop := s.mem.active = false ∧ Locked s

theorem Down.next (hd : Down s) (h : next listening s a = some s') : Down s' :=
  ⟨next_inactive h hd.1, hd.2.next h⟩

theorem Down.effects_le (hd : Down s) (h : (system T listening).exec s as = some s') (u : T) :
    (system T listening).countSteps (TakesBy u Point.hasEffect) s as ≤
      (s.points u).effectsLeft := by
  obtain ⟨-, hcount⟩ := TransitionSystem.countSteps_le (I := Down)
    (P := TakesBy u Point.hasEffect) (b := fun s => (s.points u).effectsLeft) hd
    (fun _ _ _ hd hs => ⟨hd.next hs, next_effectsLeft hs hd.1 u⟩) h
  exact (Nat.le_add_right ..).trans hcount

theorem Down.sends_le (hd : Down s) (h : (system T listening).exec s as = some s') :
    (system T listening).countSteps (Takes Point.callsSend) s as ≤ 1 := by
  obtain ⟨-, hcount⟩ := TransitionSystem.countSteps_le (I := Down)
    (P := Takes Point.callsSend) (b := State.sendsLeft) hd
    (fun _ _ _ hd hs => ⟨hd.next hs, next_sendsLeft hs hd.1 hd.2⟩) h
  exact (Nat.le_add_right ..).trans (hcount.trans s.sendsLeft_le_one)

theorem Down.recvs_le (hd : Down s) (h : (system T listening).exec s as = some s') (u : T) :
    (system T listening).countSteps (TakesBy u Point.callsRecv) s as ≤ 1 := by
  have hmono : ∀ (s : State T) a, TakesBy u Point.callsRecv s a →
      TakesBy u Point.hasEffect s a := by
    intro s a
    cases a with
    | thread t choice =>
        simp only [TakesBy, Bool.and_eq_true]
        refine And.imp_right (fun hrecv => ?_)
        cases hp : s.points t with
        | readRecv _ => rfl
        | _ => simp [hp, Point.callsRecv] at hrecv
    | _ => exact id
  exact (TransitionSystem.countSteps_mono hmono s as).trans
    ((hd.effects_le h u).trans (Point.effectsLeft_le_one _))

theorem Down.delivers_eq_zero (hd : Down s) (h : (system T listening).exec s as = some s') {u : T}
    (hu : (s.points u).delivers = false) :
    (system T listening).countSteps (TakesBy u Point.delivers) s as = 0 := by
  have hstep : ∀ (s : State T) a s', Down s ∧ (s.points u).delivers = false →
      Channel.next listening s a = some s' → (Down s' ∧ (s'.points u).delivers = false) ∧
        (TakesBy u Point.delivers s a).toNat + 0 ≤ 0 := by
    intro s a s' hI hs
    obtain ⟨hkeep, hnot⟩ := next_delivers hs hI.1.1 hI.2
    rw [hnot]
    exact ⟨⟨hI.1.next hs, hkeep⟩, le_rfl⟩
  exact Nat.le_zero.mp
    (TransitionSystem.countSteps_le (I := fun s => Down s ∧ (s.points u).delivers = false)
      (b := fun _ => 0) ⟨hd, hu⟩ hstep h).2

/-- The stream of `s` is that of `s₀` with at most the one chunk that a worker had tested for and
not enqueued yet in `s₀`. -/
structure Drained (s₀ s : State T) : Prop where
  known : ∀ t bytes, s.points t = .readEnqueue bytes → s₀.points t = .readEnqueue bytes
  stream : s.mem.dequeued ++ s.mem.incomingQueue = s₀.mem.dequeued ++ s₀.mem.incomingQueue ∨
    ∃ t bytes, s₀.points t = .readEnqueue bytes ∧ (∀ u bytes, s.points u ≠ .readEnqueue bytes) ∧
      s.mem.dequeued ++ s.mem.incomingQueue =
        s₀.mem.dequeued ++ s₀.mem.incomingQueue ++ bytes

theorem Drained.next {s₀ : State T} (h : Drained s₀ s) (hd : Down s)
    (hs : next listening s a = some s') : Drained s₀ s' := by
  obtain ⟨t, choice, m', p', rfl, hact, rfl⟩ | ⟨-, active, socketActive, rfl, -⟩ := next_cases hs
  · obtain ⟨-, -, -, -, hp'⟩ := act_inactive hact hd.1
    have hothers : ∀ u bytes, Function.update s.points t p' u = .readEnqueue bytes →
        u ≠ t ∧ s.points u = .readEnqueue bytes := by
      intro u bytes hu
      by_cases hut : u = t
      · subst u
        rw [Function.update_self] at hu
        exact absurd hu (hp' bytes)
      · rw [Function.update_of_ne hut] at hu
        exact ⟨hut, hu⟩
    constructor
    case known => exact fun u bytes hu => h.known u bytes (hothers u bytes hu).2
    case stream =>
      rcases act_stream hact with hsame | ⟨bytes, hp, hgrown⟩
      · rcases h.stream with hstream | ⟨u, bytes, hu, hnone, hstream⟩
        · exact Or.inl (hsame.trans hstream)
        · exact Or.inr ⟨u, bytes, hu, fun v bytes hv => hnone v bytes (hothers v bytes hv).2,
            hsame.trans hstream⟩
      · right
        rcases h.stream with hstream | ⟨-, -, -, hnone, -⟩
        · refine ⟨t, bytes, h.known t bytes hp, fun v bytes' hv => ?_, ?_⟩
          · obtain ⟨hvt, hv'⟩ := hothers v bytes' hv
            exact hvt (hd.2.read.unique (by simp [hv', Point.reads]) (by simp [hp, Point.reads]))
          · rw [hgrown, hstream]
        · exact absurd hp (hnone t bytes)
  · exact ⟨h.known, h.stream⟩

theorem drained_of_exec (hr : (system T listening).Reachable s) (hdown : s.mem.active = false)
    (h : (system T listening).exec s as = some s') : s'.mem.active = false ∧ Drained s s' := by
  have hI : s.mem.active = false ∧ Drained s s := ⟨hdown, fun _ _ => id, Or.inl rfl⟩
  refine ((TransitionSystem.execWhile_leadsBy h).keeps
    (I := fun r => r.mem.active = false ∧ Drained s r) hr hI ?_).2
  intro r a r' hr hI _ hs
  exact ⟨next_inactive hs hI.1, hI.2.next ⟨hI.1, locked_of_reachable hr⟩ hs⟩

/-- From a state in which the channel is shut down: it stays so; at most one more `send` is issued,
by all threads together; a thread outside its calls issues no `recv` or `send` and adds nothing to
`writeQueue` any more; no thread issues more than one `recv`; a worker that has not passed the test
after its `recv` delivers nothing; and the incoming queue grows at most by a chunk whose worker had
passed it. -/
theorem effectsAfterShutdown (hr : (system T listening).Reachable s)
    (hdown : s.mem.active = false) (h : (system T listening).exec s as = some s') :
    s'.mem.active = false ∧
    (system T listening).countSteps (Takes Point.callsSend) s as ≤ 1 ∧
    (∀ t, s.points t = .idle →
      (system T listening).countSteps (TakesBy t Point.hasEffect) s as = 0) ∧
    (∀ t, (system T listening).countSteps (TakesBy t Point.callsRecv) s as ≤ 1) ∧
    (∀ t, (s.points t).delivers = false →
      (system T listening).countSteps (TakesBy t Point.delivers) s as = 0) ∧
    (s'.mem.dequeued ++ s'.mem.incomingQueue = s.mem.dequeued ++ s.mem.incomingQueue ∨
      ∃ t bytes, s.points t = .readEnqueue bytes ∧
        s'.mem.dequeued ++ s'.mem.incomingQueue =
          s.mem.dequeued ++ s.mem.incomingQueue ++ bytes) := by
  have hd : Down s := ⟨hdown, locked_of_reachable hr⟩
  obtain ⟨hdown', hdrained⟩ := drained_of_exec hr hdown h
  refine ⟨hdown', hd.sends_le h, fun t ht => ?_, hd.recvs_le h, fun t => hd.delivers_eq_zero h, ?_⟩
  · have hle := hd.effects_le h t
    rw [ht] at hle
    exact Nat.le_zero.mp hle
  · refine hdrained.stream.imp_right ?_
    rintro ⟨t, bytes, ht, -, hstream⟩
    exact ⟨t, bytes, ht, hstream⟩

end Runs

/-! ### A shutdown amid three calls -/

def goes (t : Fin 3) (n : ℕ) : List (Label (Fin 3)) := List.replicate n (.thread t .go)

def oneByte : Message := ⟨some [7], 1, by decide⟩

/-- A worker before its `recv`, a worker before its `send`, a producer before its enqueue. -/
def beforeShutdown : List (Label (Fin 3)) :=
  .thread 2 (.queueWrite oneByte) :: goes 2 2 ++
    [.thread 1 .handleWriteQueue] ++ goes 1 1 ++ [.thread 1 (.sizeApprox false)] ++ goes 1 1 ++
    [.thread 1 (.dequeueBulk [(2, oneByte)])] ++ goes 1 3 ++
    .thread 0 (.readData 8) :: goes 0 2 ++ .thread 2 (.queueWrite oneByte) :: goes 2 1

/-- Each of them takes its last step with an effect, and the first worker calls `readData` again. -/
def afterShutdown : List (Label (Fin 3)) :=
  .thread 0 (.recv (.data [1])) :: goes 0 2 ++ .thread 1 (.send (.accepted 1)) :: goes 1 3 ++
    goes 2 1 ++ .thread 0 (.readData 8) :: goes 0 1

theorem effectsAfterShutdown_three_threads :
    ∃ s s' : State (Fin 3), (system (Fin 3) true).Reachable s ∧
      (system (Fin 3) true).exec s afterShutdown = some s' ∧ s'.mem.active = false ∧
      (system (Fin 3) true).countSteps (Takes Point.callsSend) s afterShutdown ≤ 1 ∧
      (∀ t, (system (Fin 3) true).countSteps (TakesBy t Point.callsRecv) s afterShutdown ≤ 1) ∧
      (system (Fin 3) true).countSteps (TakesBy 0 Point.delivers) s afterShutdown = 0 := by
  have hrun : ((system (Fin 3) true).exec (system (Fin 3) true).start
      (beforeShutdown ++ [.queueShutdown])).any (fun s =>
        (s.mem.active = false ∧ (s.points 0).delivers = false) ∧
        ((system (Fin 3) true).exec s afterShutdown).isSome) = true := by decide
  obtain ⟨s, hs, hstate⟩ := TransitionSystem.exists_reachedBy_of_execWhile hrun
  rw [decide_eq_true_eq] at hstate
  obtain ⟨⟨hdown, hpoint⟩, hafter⟩ := hstate
  obtain ⟨s', hs'⟩ := Option.isSome_iff_exists.mp hafter
  obtain ⟨hactive, hsends, -, hrecvs, hdelivers, -⟩ := effectsAfterShutdown hs hdown hs'
  exact ⟨s, s', hs, hs', hactive, hsends, hrecvs, hdelivers 0 hpoint⟩

end SocketLib.Channel
