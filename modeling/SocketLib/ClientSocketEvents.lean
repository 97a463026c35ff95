import SocketLib.ClientSocket

/-!
# The connection events of a `ClientSocket`

`close` is a public operation and the body of the destructor, and each call of it tells the connect
callback of a disconnection, whether or not `connect` has made a channel since the last one. So the
events are balanced exactly when successful connects and these calls take turns (`balanced_iff`).
-/

namespace SocketLib.ClientSocket

inductive Turn
  | connect
  | disconnect
  deriving DecidableEq

/-- Connects and disconnects take turns up to the last disconnect. -/
def takeTurns (connected : Bool) : List Turn → Bool
  | [] => !connected
  | .connect :: rest => !connected && takeTurns true rest
  | .disconnect :: rest => connected && takeTurns false rest

/-- A successful connect, or a disconnect event. -/
def Action.turn : Action → Option Turn
  | .connect _ .success => some .connect
  | .invoke _ false => some .disconnect
  | _ => none

/-- A connect that succeeds, or a call of `close`, be it the destructor's. -/
def Label.turn : Label → Option Turn
  | .connectStatus .success => some .connect
  | .close | .destroy => some .disconnect
  | _ => none

/-- The disconnect events before the next successful connect. -/
def disconnects (trace : List Action) : ℕ :=
  (trace.takeWhile (fun a => a.turn ≠ some .connect)).countP (fun a => a.turn = some .disconnect)

/-- Each successful connect is followed by one disconnect event before the next, or the end. -/
def OneEach (trace : List Action) : Prop :=
  ∀ before a after, trace = before ++ a :: after → a.turn = some .connect → disconnects after = 1

/-- Every disconnect event refers to a channel, there is none before the first successful connect,
and one after each. -/
structure Balanced (trace : List Action) : Prop where
  channel : .invoke false false ∉ trace
  unconnected : disconnects trace = 0
  connected : OneEach trace

/-! ### Counting and taking turns -/

section Turns

variable {a : Action} {trace : List Action}

theorem disconnects_none (h : a.turn = none) : disconnects (a :: trace) = disconnects trace := by
  simp [disconnects, h]

theorem disconnects_connect (h : a.turn = some .connect) : disconnects (a :: trace) = 0 := by
  simp [disconnects, h]

theorem disconnects_disconnect (h : a.turn = some .disconnect) :
    disconnects (a :: trace) = disconnects trace + 1 := by
  simp [disconnects, h]

theorem oneEach_cons :
    OneEach (a :: trace) ↔ (a.turn = some .connect → disconnects trace = 1) ∧ OneEach trace := by
  constructor
  · intro h
    refine ⟨h [] a trace rfl, fun before b after heq hb => ?_⟩
    exact h (a :: before) b after (congrArg _ heq) hb
  · rintro ⟨hfirst, hrest⟩ before b after heq hb
    cases before with
    | nil =>
        obtain ⟨rfl, rfl⟩ := List.cons.inj heq
        exact hfirst hb
    | cons c before => exact hrest before b after (List.cons.inj heq).2 hb

theorem takeTurns_iff (connected : Bool) (trace : List Action) :
    takeTurns connected (trace.filterMap Action.turn) ↔
      disconnects trace = connected.toNat ∧ OneEach trace := by
  induction trace generalizing connected with
  | nil =>
      have hnil : OneEach [] := fun before a after heq => by simp at heq
      cases connected <;> simp [takeTurns, disconnects, hnil]
  | cons a trace ih =>
      rw [oneEach_cons]
      cases ha : a.turn with
      | none =>
          rw [List.filterMap_cons_none ha, disconnects_none ha, ih]
          simp
      | some turn =>
          rw [List.filterMap_cons_some ha]
          cases turn with
          | connect =>
              rw [disconnects_connect ha]
              cases connected <;> simp [takeTurns, ih]
          | disconnect =>
              rw [disconnects_disconnect ha]
              cases connected <;> simp [takeTurns, ih]

end Turns

/-! ### What the calls tell the callback -/

variable {k : Settings} {fd : ℤ} {s s' : State} {m m' : Mem} {p p' : Point} {a : Label}

def turnsOf (trace : List Action) : List Turn := trace.filterMap Action.turn

theorem turnsOf_append (trace trace' : List Action) :
    turnsOf (trace ++ trace') = turnsOf trace ++ turnsOf trace' := List.filterMap_append ..

/-- What a step adds to the trace. -/
inductive Tells (s s' : State) : Option Turn → Prop
  | silent (rest : List Action) (htrace : s'.mem.trace = s.mem.trace ++ rest)
      (hrest : turnsOf rest = []) (hchannel : s'.mem.channel = none → s.mem.channel = none)
      (hpoint : s.point = .destroyed → s'.point = .destroyed) : Tells s s' none
  | connect (fd : ℤ) (htrace : s'.mem.trace = s.mem.trace ++ [.connect fd .success])
      (hchannel : s'.mem.channel ≠ none) : Tells s s' (some .connect)
  | disconnect (rest : List Action)
      (htrace : s'.mem.trace = s.mem.trace ++ rest ++ [.invoke s.mem.channel.isSome false])
      (hrest : turnsOf rest = []) (hpoint : s.point ≠ .destroyed)
      (hchannel : s'.point ≠ .destroyed → s'.mem.channel = s.mem.channel) :
      Tells s s' (some .disconnect)

theorem turnsOf_channelAction (fd : ℤ) (q : Channel.Point Unit) :
    turnsOf (channelAction fd q).toList = [] := by
  cases q <;> rfl

theorem close_trace (hk : k.connectCallback = true) (m : Mem) :
    ∃ rest, (m.close k).trace = m.trace ++ rest ++ [.invoke m.channel.isSome false] ∧
      turnsOf rest = [] := by
  by_cases hfd : m.socketDescriptor = -1
  · refine ⟨[], ?_, rfl⟩
    simp [Mem.close, Mem.closeDescriptor_of_eq m hfd, Mem.invokeConnect, hk]
  · refine ⟨[.shutdown m.socketDescriptor, .close m.socketDescriptor], ?_, rfl⟩
    simp [Mem.close, Mem.closeDescriptor_of_ne m hfd, Mem.invokeConnect, hk]

theorem act_tells (hk : k.connectCallback = true) :
    act k m p a = some (m', p') → Tells ⟨m, p⟩ ⟨m', p'⟩ a.turn := by
  fun_cases act k m p a
  case case8 =>
    intro h
    obtain ⟨c, cm, q', hc, -, rfl, rfl⟩ := Mem.serve_eq_some h
    exact .silent _ rfl (turnsOf_channelAction _ _) (absurd · (Option.some_ne_none _))
      Point.noConfusion
  all_goals
    simp only [Option.some.injEq, Prod.mk.injEq, reduceCtorEq, false_implies, and_imp]
    try rintro rfl rfl
  case case1 => exact .silent [] (List.append_nil _).symm rfl id Point.noConfusion
  case case2 => exact .silent [_] rfl rfl id Point.noConfusion
  case case3 => exact .connect _ rfl (Option.some_ne_none _)
  case case4 => exact .silent [_] rfl rfl id Point.noConfusion
  case case5 status hsuccess _ =>
    have htrace : (m.trace ++ [.connect m.socketDescriptor status]) ++ [.close m.socketDescriptor] =
        m.trace ++ [.connect m.socketDescriptor status, .close m.socketDescriptor] :=
      List.append_assoc ..
    cases status with
    | success => exact absurd rfl hsuccess
    | _ => exact .silent _ htrace rfl id Point.noConfusion
  case case6 =>
    obtain ⟨rest, htrace, hrest⟩ := close_trace hk m
    exact .disconnect rest htrace hrest Point.noConfusion (fun _ => Mem.close_channel k m)
  case case7 => exact .silent [] (List.append_nil _).symm rfl id Point.noConfusion
  case case9 =>
    obtain ⟨rest, htrace, hrest⟩ := close_trace hk m
    exact .disconnect rest htrace hrest Point.noConfusion (fun hp => absurd rfl hp)

theorem next_tells (hk : k.connectCallback = true) (hs : next k s a = some s') :
    Tells s s' a.turn := by
  obtain ⟨m', p', hact, rfl⟩ | ⟨rfl, rfl⟩ := next_cases hs
  · exact act_tells hk hact
  · refine .silent [.invoke s.mem.channel.isSome true] ?_ rfl ?_ id
    · simp [Mem.invokeConnect, hk]
    · exact fun hnone => (Mem.invokeConnect_channel k s.mem true).symm.trans hnone

/-- As long as the socket is not destroyed, a connect has left a channel; and a disconnect event
that found none came before any. -/
structure Told (s : State) : Prop where
  channel : s.point ≠ .destroyed → s.mem.channel = none → Turn.connect ∉ turnsOf s.mem.trace
  missing : .invoke false false ∈ s.mem.trace → (turnsOf s.mem.trace).head? = some .disconnect

theorem Tells.turns {turn : Option Turn} (h : Tells s s' turn) :
    turnsOf s'.mem.trace = turnsOf s.mem.trace ++ turn.toList := by
  cases h with
  | silent rest htrace hrest => rw [htrace, turnsOf_append, hrest, Option.toList_none]
  | connect fd htrace => rw [htrace, turnsOf_append]; rfl
  | disconnect rest htrace hrest =>
      rw [htrace, turnsOf_append, turnsOf_append, hrest, List.append_nil]
      rfl

theorem not_mem_of_turnsOf {rest : List Action} (h : turnsOf rest = []) :
    .invoke false false ∉ rest :=
  fun hmem => nomatch (List.filterMap_eq_nil_iff.mp h _ hmem)

theorem Tells.told {turn : Option Turn} (h : Tells s s' turn) (htold : Told s) : Told s' := by
  have hturns := h.turns
  have hmissing : .invoke false false ∈ s.mem.trace →
      (turnsOf s'.mem.trace).head? = some .disconnect := by
    intro hmem
    rw [hturns, List.head?_append, htold.missing hmem, Option.some_or]
  cases h with
  | silent rest htrace hrest hchannel hpoint =>
      refine ⟨fun hp hnone => ?_, fun hmem => hmissing ?_⟩
      · rw [hturns, Option.toList_none, List.append_nil]
        exact htold.channel (fun hd => hp (hpoint hd)) (hchannel hnone)
      · rw [htrace, List.mem_append] at hmem
        exact hmem.resolve_right (not_mem_of_turnsOf hrest)
  | connect fd htrace hchannel =>
      refine ⟨fun _ hnone => absurd hnone hchannel, fun hmem => hmissing ?_⟩
      rw [htrace, List.mem_append] at hmem
      exact hmem.resolve_right (by simp)
  | disconnect rest htrace hrest hpoint hchannel =>
      have hnot : s.mem.channel = none → Turn.connect ∉ turnsOf s'.mem.trace := by
        intro hnone
        rw [hturns, List.mem_append]
        exact not_or.mpr ⟨htold.channel hpoint hnone, by simp⟩
      refine ⟨fun hp hnone => hnot ((hchannel hp).symm.trans hnone), fun hmem => ?_⟩
      rw [htrace, List.mem_append, List.mem_append] at hmem
      rcases hmem with (hold | hmem) | hinvoke
      · exact hmissing hold
      · exact absurd hmem (not_mem_of_turnsOf hrest)
      · have hnone : s.mem.channel = none := by simpa using hinvoke
        specialize hnot hnone
        rw [hturns] at hnot ⊢
        cases hw : turnsOf s.mem.trace with
        | nil => rfl
        | cons turn rest =>
            cases turn with
            | connect => simp [hw] at hnot
            | disconnect => rfl

/-- In a run with a connect callback the trace shows the turns of the labels. -/
theorem exec_told {labels : List Label} (hk : k.connectCallback = true) (htold : Told s)
    (hs : (system k fd).exec s labels = some s') :
    Told s' ∧ turnsOf s'.mem.trace = turnsOf s.mem.trace ++ labels.filterMap Label.turn := by
  induction labels generalizing s with
  | nil =>
      obtain rfl : s = s' := Option.some.inj hs
      exact ⟨htold, (List.append_nil _).symm⟩
  | cons a labels ih =>
      rw [TransitionSystem.exec_cons] at hs
      obtain ⟨t, ht, hrest⟩ := Option.bind_eq_some_iff.mp hs
      have htells := next_tells hk ht
      obtain ⟨htold', hturns⟩ := ih (htells.told htold) hrest
      refine ⟨htold', ?_⟩
      rw [hturns, htells.turns, List.append_assoc, List.filterMap_cons]
      cases a.turn <;> rfl

/-- The events of a run are balanced exactly when in it successful connects and calls of `close`, of
which the destructor makes the last, take turns. -/
theorem balanced_iff {labels : List Label} (hk : k.connectCallback = true)
    (hs : (system k fd).exec (initial fd) labels = some s) :
    Balanced s.mem.trace ↔ takeTurns false (labels.filterMap Label.turn) := by
  obtain ⟨htold, hturns⟩ := exec_told hk ⟨fun _ _ => List.not_mem_nil, fun h => by cases h⟩ hs
  rw [show turnsOf (initial fd).mem.trace = [] from rfl, List.nil_append] at hturns
  rw [← hturns]
  constructor
  · exact fun h => (takeTurns_iff false _).mpr ⟨h.unconnected, h.connected⟩
  · intro hturn
    obtain ⟨hzero, hone⟩ := (takeTurns_iff false s.mem.trace).mp hturn
    refine ⟨fun hmissing => ?_, hzero, hone⟩
    obtain ⟨rest, hrest⟩ := List.head?_eq_some_iff.mp (htold.missing hmissing)
    rw [hrest] at hturn
    cases hturn

/-- The connection is refused, and the destructor invokes the callback on a channel that was never
made. -/
theorem not_balanced :
    ¬ ∀ labels s, (system ⟨false, false, true⟩ 3).exec (initial 3) labels = some s →
      s.point = .destroyed → Balanced s.mem.trace := by
  intro h
  have hbalanced := h [.connect, .connectStatus .error, .destroy] _ rfl rfl
  exact hbalanced.channel (by decide)

def oneConnection : List Label :=
  [.connect, .connectStatus .wouldBlock, .connectStatus .success, .connectThread, .destroy]

/-- A connection is made after a would-block, and the destructor ends it. -/
theorem balanced_oneConnection :
    ∃ s, (system ⟨false, false, true⟩ 3).exec (initial 3) oneConnection = some s ∧
      s.point = .destroyed ∧ Balanced s.mem.trace := by
  have hrun : ∃ s, (system ⟨false, false, true⟩ 3).exec (initial 3) oneConnection = some s ∧
      s.point = .destroyed := ⟨_, rfl, rfl⟩
  obtain ⟨s, hs, hend⟩ := hrun
  exact ⟨s, hs, hend, (balanced_iff rfl hs).mpr (by decide)⟩

end SocketLib.ClientSocket
