import SocketLib.ChannelDelivery
import SocketLib.ClientSocket

/-!
# The descriptor number of a `ClientSocket` after it was closed

The number is kept in `socketDescriptor`, which `close` sets back to -1, and in the channel, which
keeps it. Two kinds of calls pass a number on that was closed: after a `connect` that fails,
`socketDescriptor` still holds the number it has closed, and after `close` the channel is still
active. A run without the two (`Clear`) never passes a closed number on, and each step that is not
clear leads on to a state in which a closed number was passed on.
-/

namespace SocketLib.ClientSocket

open TransitionSystem

/-- The kernel calls that act on the descriptor itself. -/
def Action.passes (n : ℤ) : Action → Bool
  | .shutdown fd | .close fd | .recv fd | .send fd => fd = n
  | .setsockopt _ | .connect _ _ | .invoke _ _ => false

/-- A number is not passed on once it was closed. There is no descriptor -1. -/
def Disciplined (trace : List Action) : Prop :=
  ∀ n : ℤ, n ≠ -1 → trace.Pairwise (fun a b => a = .close n → b.passes n = false)

/-- `::connect` returns an error that `connect` does not try again. -/
def ConnectStatus.fails : ConnectStatus → Bool
  | .success | .wouldBlock => false
  | .inProgress | .already | .isConnected | .error => true

/-- No `::connect` on a descriptor fails, and `readData` and `handleWriteQueue` are not called after
`close` when the channel is active and, for `handleWriteQueue`, has something to send. -/
def Clear (s : State) : Label → Prop
  | .connectStatus status => status.fails → s.mem.socketDescriptor = -1
  | .channel (.readData _) => ∀ c ∈ s.mem.channel, c.mem.active = true →
      c.clientDescriptor = s.mem.socketDescriptor
  | .channel .handleWriteQueue => ∀ c ∈ s.mem.channel, (s.mem.channelMem c).isActive = true →
      c.mem.writeQueue () ≠ [] → c.clientDescriptor = s.mem.socketDescriptor
  | _ => True

theorem Disciplined.append {trace : List Action} {a : Action} (h : Disciplined trace)
    (ha : ∀ n ≠ -1, a.passes n = true → Action.close n ∉ trace) : Disciplined (trace ++ [a]) := by
  intro n hn
  rw [List.pairwise_append]
  refine ⟨h n hn, List.pairwise_singleton .., ?_⟩
  rintro x hx y hy rfl
  rw [List.mem_singleton] at hy
  subst y
  exact Bool.eq_false_iff.mpr (fun hpass => ha n hn hpass hx)

theorem not_disciplined {trace after : List Action} {a : Action} {n : ℤ} (hn : n ≠ -1)
    (hclose : Action.close n ∈ trace) (ha : a.passes n = true) :
    ¬ Disciplined (trace ++ a :: after) := by
  intro h
  have hpair := (List.pairwise_append.mp (h n hn)).2.2 _ hclose a List.mem_cons_self rfl
  rw [ha] at hpair
  cases hpair

/-! ### The steps of a call on a channel that pass no number on -/

section Harmless

/-- From this point a single thread gets to no `recv` and no `send`. -/
def Harmless (m : Channel.Mem Unit) : Channel.Point Unit → Prop
  | .readTest _ => m.active = false
  | .readTryLock _ | .readRecv _ | .sendCall _ _ => False
  | .writeTest | .writeSize | .writeTryLock | .writeDequeue =>
      m.isActive = false ∨ m.writeQueue () = []
  | .writeNext batch => m.isActive = false ∨ batch = []
  | .sendTest _ _ | .sendLoop _ _ _ => m.isActive = false
  | _ => True

theorem channelAction_passes {n fd : ℤ} {p : Channel.Point Unit} {action : Action}
    (h : channelAction fd p = some action) (hpass : action.passes n = true) : fd = n := by
  cases p with
  | readRecv _ | sendCall _ _ =>
      obtain rfl := Option.some.inj h
      exact of_decide_eq_true hpass
  | _ => cases h

theorem channelAction_ne_close {n fd : ℤ} {p : Channel.Point Unit} :
    Action.close n ∉ channelAction fd p := by
  cases p with
  | readRecv _ | sendCall _ _ => exact nofun
  | _ => exact nofun

variable {listening : Bool} {m m' : Channel.Mem Unit} {p p' : Channel.Point Unit}
  {choice : Channel.Choice Unit}

theorem Harmless.channelAction_eq (h : Harmless m p) (fd : ℤ) : channelAction fd p = none := by
  cases p with
  | readRecv _ => exact h.elim
  | sendCall _ _ => exact h.elim
  | _ => rfl

theorem harmless_returns (h : m.isActive = false) (sender : Channel.Sender Unit) :
    Harmless m sender.returns := by
  cases sender with
  | queueWrite => trivial
  | handleWriteQueue rest => exact Or.inl h

theorem harmless_catches (sender : Channel.Sender Unit) : Harmless m sender.catches := by
  cases sender with
  | queueWrite => trivial
  | handleWriteQueue rest => trivial

/-- A call that starts may only pass the number on when the channel is active. -/
theorem harmless_act (hthread : m.writeThread = none) (h : Harmless m p)
    (hread : ∀ size, choice = .readData size → m.active = false)
    (hwrite : choice = .handleWriteQueue → m.isActive = false ∨ m.writeQueue () = []) :
    Channel.act listening () m p choice = some (m', p') → Harmless m' p' := by
  fun_cases Channel.act listening () m p choice
  all_goals
    simp only [Option.some.injEq, Prod.mk.injEq, reduceCtorEq, false_implies, and_imp]
    try rintro rfl rfl
  case case2 => exact hwrite rfl
  case case3 => exact hread _ rfl
  case case6 hself => exact absurd (hself.symm.trans hthread) (Option.some_ne_none _)
  case case13 hoffers => exact h.imp_right (fun hq => hoffers.2.eq_nil (fun _ => hq))
  case case16 => exact h.resolve_right (List.cons_ne_nil _ _)
  case case18 =>
    rw [if_neg (ne_true_of_eq_false h)]
    exact harmless_returns h _
  case case19 =>
    rw [if_neg (fun hand => ne_true_of_eq_false h hand.2)]
    exact harmless_returns h _
  case case24 => exact harmless_catches _
  case case25 =>
    rw [if_neg (ne_true_of_eq_false h)]
    trivial
  all_goals try split
  all_goals first | exact trivial | exact h | exact h.elim

end Harmless

/-! ### Runs without the two kinds of calls -/

section Runs

variable {k : Settings} {fd : ℤ} {s s' : State} {m m' : Mem} {p p' : Point} {a : Label}

/-- A number that was closed is no longer in `socketDescriptor`, and a call on a channel with
another number will not use it. -/
structure Guarded (m : Mem) (p : Point) : Prop where
  disciplined : Disciplined m.trace
  opened : m.socketDescriptor ≠ -1 → Action.close m.socketDescriptor ∉ m.trace
  served : ∀ c ∈ m.channel, c.clientDescriptor = m.socketDescriptor ∨
    Harmless (m.channelMem c) p.onChannel

theorem Guarded.does (h : Guarded m p) {action : Action}
    (hpass : ∀ n ≠ -1, action.passes n = false) : Guarded (m.does action) p where
  disciplined := h.disciplined.append (fun n hn htrue => absurd htrue (by simp [hpass n hn]))
  opened := by
    intro hne hmem
    obtain hmem | hmem := List.mem_append.mp hmem
    · exact h.opened hne hmem
    · have hnot := hpass _ hne
      rw [← List.mem_singleton.mp hmem] at hnot
      exact of_decide_eq_false hnot rfl
  served := h.served

/-- No call on the channel is in progress. -/
theorem Guarded.leave (h : Guarded m p) (hp' : p'.onChannel = .idle) : Guarded m p' := by
  refine ⟨h.disciplined, h.opened, fun _ _ => Or.inr ?_⟩
  rw [hp']
  trivial

theorem Guarded.closeDescriptor (h : Guarded m p) : Guarded m.closeDescriptor .idle := by
  by_cases hsd : m.socketDescriptor = -1
  · rw [m.closeDescriptor_of_eq hsd]
    exact h.leave rfl
  · rw [m.closeDescriptor_of_ne hsd]
    have hshutdown : Disciplined (m.trace ++ [.shutdown m.socketDescriptor]) := by
      apply h.disciplined.append
      intro n hn hpass
      obtain rfl := of_decide_eq_true hpass
      exact h.opened hsd
    refine ⟨hshutdown.append ?_, fun hne => absurd rfl hne, fun _ _ => Or.inr trivial⟩
    intro n hn hpass
    obtain rfl := of_decide_eq_true hpass
    simp only [List.mem_append, List.mem_singleton, reduceCtorEq, or_false]
    exact h.opened hsd

theorem Guarded.invokeConnect (h : Guarded m p) (connected : Bool) :
    Guarded (m.invokeConnect k connected) p := by
  rw [Mem.invokeConnect]
  split
  · exact h.does (fun _ _ => rfl)
  · exact h

theorem Guarded.close (h : Guarded m p) : Guarded (m.close k) .idle :=
  h.closeDescriptor.invokeConnect false

/-- A call on the channel passes the number of the channel on: it is still the one of the socket, or
the call finds nothing to do. -/
theorem Guarded.serve {q q' : Channel.Point Unit} {choice : Channel.Choice Unit} {c : OwnedChannel}
    {cm : Channel.Mem Unit} (h : Guarded m (.channel q)) (hon : OnChannel k m (.channel q))
    (hclear : Clear ⟨m, .channel q⟩ (.channel choice)) (hc : m.channel = some c)
    (hact : Channel.act k.listenCallback () (m.channelMem c) q choice = some (cm, q')) :
    Guarded { m with
      channel := some { c with mem := cm }
      trace := m.trace ++ (channelAction c.clientDescriptor q).toList } (.channel q') := by
  have hthread := (Channel.locked_of_reachable (hon c hc)).writeThread
  by_cases hcd : c.clientDescriptor = m.socketDescriptor
  · constructor
    case disciplined =>
      cases haction : channelAction c.clientDescriptor q with
      | none => simpa using h.disciplined
      | some action =>
          apply h.disciplined.append
          intro n hn hpass
          obtain rfl := (channelAction_passes haction hpass).symm.trans hcd
          exact h.opened hn
    case opened =>
      intro hne hmem
      obtain hmem | hmem := List.mem_append.mp hmem
      · exact h.opened hne hmem
      · exact channelAction_ne_close (Option.mem_toList.mp hmem)
    case served =>
      intro c' hc'
      obtain rfl := Option.some.inj hc'
      exact Or.inl hcd
  · have hharm : Harmless (m.channelMem c) q := (h.served c hc).resolve_left hcd
    rw [hharm.channelAction_eq, Option.toList_none, List.append_nil]
    refine ⟨h.disciplined, h.opened, fun c' hc' => Or.inr ?_⟩
    obtain rfl := Option.some.inj hc'
    have hharm' : Harmless cm q' := by
      refine harmless_act hthread hharm ?_ ?_ hact
      · rintro size rfl
        exact Bool.eq_false_iff.mpr (fun hactive => hcd (hclear c hc hactive))
      · rintro rfl
        by_contra hnot
        push Not at hnot
        exact hcd (hclear c hc (by simpa using hnot.1) hnot.2)
    rwa [← Mem.channelMem_served hact] at hharm'

theorem Guarded.act (h : Guarded m p) (hon : OnChannel k m p) (hclear : Clear ⟨m, p⟩ a) :
    ClientSocket.act k m p a = some (m', p') → Guarded m' p' := by
  fun_cases ClientSocket.act k m p a
  case case8 q choice =>
    intro hserve
    obtain ⟨c, cm, q', hc, hact, rfl, rfl⟩ := Mem.serve_eq_some hserve
    exact h.serve hon hclear hc hact
  all_goals
    simp only [Option.some.injEq, Prod.mk.injEq, reduceCtorEq, false_implies, and_imp]
    try rintro rfl rfl
  case case1 => split <;> exact h.leave rfl
  case case2 => split <;> exact (h.does (fun _ _ => rfl)).leave rfl
  case case3 =>
    have hdoes : Guarded (m.does (.connect m.socketDescriptor .success)) .connectLoop :=
      h.does (fun _ _ => rfl)
    refine ⟨hdoes.disciplined, hdoes.opened, fun c hc => Or.inl ?_⟩
    obtain rfl := Option.some.inj hc
    rfl
  case case4 => exact h.does (fun _ _ => rfl)
  case case5 status _ _ =>
    have hsd : m.socketDescriptor = -1 := by
      cases status with
      | success | wouldBlock => contradiction
      | _ => exact hclear rfl
    refine ((h.does (fun _ _ => rfl)).does (fun n hn => ?_)).leave rfl
    exact decide_eq_false (fun hfd => hn (hfd.symm.trans hsd))
  case case6 => exact h.close
  case case7 => exact ⟨h.disciplined, h.opened, fun _ _ => Or.inr trivial⟩
  case case9 =>
    exact ⟨h.close.disciplined, h.close.opened,
      fun c hc => absurd (Option.mem_def.mp hc).symm (Option.some_ne_none c)⟩

theorem Guarded.next (h : Guarded s.mem s.point) (hon : OnChannel k s.mem s.point)
    (hclear : Clear s a) (hs : ClientSocket.next k s a = some s') : Guarded s'.mem s'.point := by
  obtain ⟨m', p', hact, rfl⟩ | ⟨rfl, rfl⟩ := next_cases hs
  · exact h.act hon hclear hact
  · have hinvoke := h.invokeConnect (k := k) true
    exact ⟨hinvoke.disciplined, hinvoke.opened, hinvoke.served⟩

theorem guarded_initial : Guarded (initial fd).mem (initial fd).point where
  disciplined := fun _ _ => List.Pairwise.nil
  opened := fun _ => List.not_mem_nil
  served := by
    intro c hc
    cases hc

theorem guarded_of_clear (h : (system k fd).ReachedBy Clear s) : Guarded s.mem s.point :=
  h.invariant (I := fun s => Guarded s.mem s.point) guarded_initial
    (fun _ _ _ hr hg hclear hs =>
      hg.next (onChannel_of_reachable hr.reachable) hclear hs)

/-- When no `::connect` on the descriptor fails and no call finds work on the channel after `close`,
no closed number is passed on, by repeated `close` and by the destructor included. -/
theorem disciplined_of_clear (h : (system k fd).ReachedBy Clear s) : Disciplined s.mem.trace :=
  (guarded_of_clear h).disciplined

end Runs

/-! ### The condition is sharp -/

section Sharp

variable {k : Settings} {fd : ℤ} {s s' : State} {m m' : Mem} {p p' : Point} {a : Label}

/-- The channel of a socket that was closed keeps the number that was closed. -/
def Numbered (m : Mem) : Prop :=
  ∀ c ∈ m.channel, c.clientDescriptor = m.socketDescriptor ∨
    c.clientDescriptor ≠ -1 ∧ Action.close c.clientDescriptor ∈ m.trace

theorem Numbered.mono (h : Numbered m) (hchannel : ∀ c' ∈ m'.channel, ∃ c ∈ m.channel,
      c'.clientDescriptor = c.clientDescriptor)
    (hsocket : m'.socketDescriptor = m.socketDescriptor) (htrace : m.trace ⊆ m'.trace) :
    Numbered m' := by
  intro c' hc'
  obtain ⟨c, hc, heq⟩ := hchannel c' hc'
  rw [heq, hsocket]
  exact (h c hc).imp_right (And.imp_right (fun hmem => htrace hmem))

theorem Numbered.does (h : Numbered m) (action : Action) : Numbered (m.does action) :=
  h.mono (fun c hc => ⟨c, hc, rfl⟩) rfl (List.subset_append_left ..)

theorem Numbered.invokeConnect (h : Numbered m) (connected : Bool) :
    Numbered (m.invokeConnect k connected) := by
  rw [Mem.invokeConnect]
  split
  · exact h.does _
  · exact h

theorem Numbered.close (h : Numbered m) : Numbered (m.close k) := by
  apply Numbered.invokeConnect
  by_cases hsd : m.socketDescriptor = -1
  · rwa [m.closeDescriptor_of_eq hsd]
  · rw [m.closeDescriptor_of_ne hsd]
    intro c hc
    right
    obtain heq | ⟨hne, hmem⟩ := h c hc
    · rw [heq]
      exact ⟨hsd, by simp⟩
    · exact ⟨hne, by simp [hmem]⟩

theorem act_numbered : act k m p a = some (m', p') → Numbered m → Numbered m' := by
  fun_cases act k m p a
  case case8 q choice =>
    intro hserve hn
    obtain ⟨c, cm, q', hc, -, rfl, rfl⟩ := Mem.serve_eq_some hserve
    refine hn.mono (fun c' hc' => ⟨c, hc, ?_⟩) rfl (List.subset_append_left ..)
    obtain rfl := Option.some.inj hc'
    rfl
  all_goals
    simp only [Option.some.injEq, Prod.mk.injEq, reduceCtorEq, false_implies, and_imp]
    try rintro rfl rfl
  case case3 =>
    intro _ c hc
    obtain rfl := Option.some.inj hc
    exact Or.inl rfl
  case case6 => exact Numbered.close
  case case9 => exact fun _ c hc => absurd (Option.mem_def.mp hc).symm (Option.some_ne_none c)
  all_goals first | exact id | exact fun h => h.does _ | exact fun h => (h.does _).does _

theorem numbered_of_reachable (h : (system k fd).Reachable s) : Numbered s.mem := by
  apply h.invariant (I := fun s => Numbered s.mem)
  · exact nofun
  · intro s a s' _ hn _ hs
    obtain ⟨m', p', hact, rfl⟩ | ⟨rfl, rfl⟩ := next_cases hs
    · exact act_numbered hact hn
    · exact hn.invokeConnect true

/-- The steps of a call on a channel, one after the other. -/
def serveSteps (k : Settings) (r : Channel.Mem Unit × Channel.Point Unit)
    (choices : List (Channel.Choice Unit)) : Option (Channel.Mem Unit × Channel.Point Unit) :=
  choices.foldlM (fun r choice => Channel.act k.listenCallback () r.1 r.2 choice) r

theorem serveSteps_cons {r r' : Channel.Mem Unit × Channel.Point Unit}
    {choice : Channel.Choice Unit} (h : Channel.act k.listenCallback () r.1 r.2 choice = some r')
    (choices : List (Channel.Choice Unit)) :
    serveSteps k r (choice :: choices) = serveSteps k r' choices := by
  rw [serveSteps, List.foldlM_cons, h]
  rfl

theorem serve_leadsTo {c : OwnedChannel} {q q' : Channel.Point Unit} {cm : Channel.Mem Unit}
    (hc : m.channel = some c) {choices : List (Channel.Choice Unit)}
    (h : serveSteps k (m.channelMem c, q) choices = some (cm, q')) :
    ∃ m' c', (system k fd).LeadsTo ⟨m, .channel q⟩ ⟨m', .channel q'⟩ ∧ m'.channel = some c' ∧
      c'.clientDescriptor = c.clientDescriptor ∧ m'.channelMem c' = cm ∧ m.trace ⊆ m'.trace := by
  induction choices generalizing m c q with
  | nil =>
      obtain ⟨rfl, rfl⟩ := Prod.mk.inj (Option.some.inj h)
      exact ⟨m, c, Relation.ReflTransGen.refl, hc, rfl, rfl, List.Subset.refl _⟩
  | cons choice choices ih =>
      rw [serveSteps, List.foldlM_cons] at h
      obtain ⟨⟨cm₁, q₁⟩, hact, h⟩ := Option.bind_eq_some_iff.mp h
      let m₁ : Mem := { m with
        channel := some { c with mem := cm₁ }
        trace := m.trace ++ (channelAction c.clientDescriptor q).toList }
      have hmem : m₁.channelMem { c with mem := cm₁ } = cm₁ := Mem.channelMem_served hact
      have hstep : (system k fd).next ⟨m, .channel q⟩ (.channel choice) =
          some ⟨m₁, .channel q₁⟩ := by
        rw [next_channel, Mem.serve, hc, Option.bind_some, hact]
        rfl
      obtain ⟨m', c', hleads, hc', hcd, hcm, htrace⟩ := ih (m := m₁) (q := q₁) rfl (by rwa [hmem])
      have hlead : (system k fd).LeadsTo ⟨m, .channel q⟩ ⟨m₁, .channel q₁⟩ :=
        LeadsBy.single (a := Label.channel choice) trivial hstep
      exact ⟨m', c', hlead.trans hleads, hc', hcd, hcm,
        fun x hx => htrace (List.mem_append_left _ hx)⟩

/-- From a state whose next kernel call passes on the closed number of the channel. -/
theorem exists_undisciplined_of_serve {c : OwnedChannel} {q q' q'' : Channel.Point Unit}
    {cm cm' : Channel.Mem Unit} (hn : Numbered m) (hc : m.channel = some c)
    (hcd : c.clientDescriptor ≠ m.socketDescriptor) {choices : List (Channel.Choice Unit)}
    (hsteps : serveSteps k (m.channelMem c, q) choices = some (cm, q'))
    (choice : Channel.Choice Unit)
    (hact : Channel.act k.listenCallback () cm q' choice = some (cm', q''))
    {action : Action} (haction : channelAction c.clientDescriptor q' = some action)
    (hpass : action.passes c.clientDescriptor = true) :
    ∃ s', (system k fd).LeadsTo ⟨m, .channel q⟩ s' ∧ ¬ Disciplined s'.mem.trace := by
  obtain ⟨hne, hclosed⟩ := (hn c hc).resolve_left hcd
  obtain ⟨m', c', hleads, hc', hcd', hcm, htrace⟩ := serve_leadsTo hc hsteps
  have hstep : (system k fd).next ⟨m', .channel q'⟩ (.channel choice) =
      some ⟨{ m' with
        channel := some { c' with mem := cm' }
        trace := m'.trace ++ [action] }, .channel q''⟩ := by
    rw [next_channel, Mem.serve, hc', Option.bind_some, hcm, hact, hcd', haction]
    rfl
  exact ⟨_, hleads.tail ⟨_, trivial, hstep⟩, not_disciplined hne (htrace hclosed) hpass⟩

theorem not_disciplined_close (hsd : m.socketDescriptor ≠ -1)
    (hclosed : Action.close m.socketDescriptor ∈ m.trace) : ¬ Disciplined (m.close k).trace := by
  have hshutdown : Action.passes m.socketDescriptor (.shutdown m.socketDescriptor) = true :=
    decide_eq_true rfl
  rw [Mem.close, m.closeDescriptor_of_ne hsd, Mem.invokeConnect]
  split <;> simp only [Mem.does_trace, List.append_assoc, List.cons_append] <;>
    exact not_disciplined hsd hclosed hshutdown

/-- A number that was closed and is still in `socketDescriptor` is closed again by the
destructor. -/
theorem exists_undisciplined_of_destroy (hsd : m.socketDescriptor ≠ -1)
    (hclosed : Action.close m.socketDescriptor ∈ m.trace) :
    ∃ s', (system k fd).LeadsTo ⟨m, .idle⟩ s' ∧ ¬ Disciplined s'.mem.trace := by
  have hstep : (system k fd).next ⟨m, .idle⟩ .destroy =
      some ⟨{ m.close k with channel := none }, .destroyed⟩ := rfl
  exact ⟨_, LeadsBy.single trivial hstep, not_disciplined_close hsd hclosed⟩

theorem act_connectFails {status : ConnectStatus} (hfails : status.fails)
    (hact : act k m p (.connectStatus status) = some (m', p')) :
    m' = (m.does (.connect m.socketDescriptor status)).does (.close m.socketDescriptor) ∧
      p' = .idle := by
  cases p with
  | connectLoop =>
      cases status with
      | success | wouldBlock => cases hfails
      | _ =>
          obtain ⟨rfl, rfl⟩ := Prod.mk.inj (Option.some.inj hact)
          exact ⟨rfl, rfl⟩
  | channel q => cases q <;> cases hact
  | _ => cases hact

/-- The calls on a channel start between two calls. -/
theorem act_readData {size : ℕ} {q q' : Channel.Point Unit} {cm cm' : Channel.Mem Unit}
    (hact : Channel.act k.listenCallback () cm q (.readData size) = some (cm', q')) :
    cm' = cm ∧ q' = .readTest size := by
  cases q with
  | idle =>
      rw [Channel.act] at hact
      split at hact
      · obtain ⟨rfl, rfl⟩ := Prod.mk.inj (Option.some.inj hact)
        exact ⟨rfl, rfl⟩
      · cases hact
  | writeNext batch => cases batch <;> cases hact
  | _ => cases hact

theorem act_handleWriteQueue {q q' : Channel.Point Unit} {cm cm' : Channel.Mem Unit}
    (hact : Channel.act k.listenCallback () cm q .handleWriteQueue = some (cm', q')) :
    cm' = cm ∧ q' = .writeTest := by
  cases q with
  | idle =>
      obtain ⟨rfl, rfl⟩ := Prod.mk.inj (Option.some.inj hact)
      exact ⟨rfl, rfl⟩
  | writeNext batch => cases batch <;> cases hact
  | _ => cases hact

section Calls

variable {cm : Channel.Mem Unit}

/-- A `readData` that finds the channel active and the lock free gets to its `recv`. -/
theorem serveSteps_readData (hactive : cm.active = true) (hlock : cm.readLock = none) (size : ℕ) :
    serveSteps k (cm, .readTest size) [.go, .go] =
      some ({ cm with readLock := some () }, .readRecv size) := by
  simp [serveSteps, Channel.act, hactive, hlock]

/-- A `handleWriteQueue` that finds the channel active, the lock free and bytes in the queue gets to
its first `send`. -/
theorem serveSteps_handleWriteQueue (hactive : cm.isActive = true) (hlock : cm.writeLock = none)
    {msg : Channel.Message} {rest : List Channel.Message} (hqueue : cm.writeQueue () = msg :: rest)
    (hmsg : 0 < msg.toSpan.length) :
    ∃ cm', serveSteps k (cm, .writeTest)
        [.go, .sizeApprox false, .go, .dequeueBulk [((), msg)], .go, .go, .go] =
      some (cm', .sendCall msg.toSpan (.handleWriteQueue [])) := by
  have hoffers : cm.writeQueue.Offers [((), msg)] := by
    rintro x hx
    obtain rfl := List.mem_singleton.mp hx
    rw [hqueue]
    exact ⟨rest, rfl⟩
  have hflag : cm.active = true := (Bool.and_eq_true_iff.mp hactive).1
  let cm₁ : Channel.Mem Unit := { cm with
    writeLock := some ()
    writeQueue := cm.writeQueue.dequeue [((), msg)]
    handed := cm.handed ++ [((), msg)] }
  have htest : Channel.act k.listenCallback () cm .writeTest .go = some (cm, .writeSize) := by
    rw [Channel.act, hflag, if_pos rfl]
  have htryLock : Channel.act k.listenCallback () cm .writeTryLock .go =
      some ({ cm with writeLock := some () }, .writeDequeue) := by
    rw [Channel.act, if_pos (by rw [hlock, Option.isNone_none])]
  have hdequeue : Channel.act k.listenCallback () { cm with writeLock := some () } .writeDequeue
      (.dequeueBulk [((), msg)]) = some ({ cm with
        writeLock := some ()
        writeQueue := cm.writeQueue.dequeue [((), msg)] }, .writeNext [((), msg)]) :=
    if_pos ⟨Nat.le_add_left 1 9, hoffers⟩
  have hsendTest : Channel.act k.listenCallback () cm₁
      (.sendTest msg.toSpan (.handleWriteQueue [])) .go =
      some (cm₁, .sendLoop 0 msg.toSpan (.handleWriteQueue [])) := by
    rw [Channel.act, show cm₁.isActive = true from hactive, if_pos rfl]
  have hsendLoop : Channel.act k.listenCallback () cm₁
      (.sendLoop 0 msg.toSpan (.handleWriteQueue [])) .go =
      some (cm₁, .sendCall msg.toSpan (.handleWriteQueue [])) := by
    rw [Channel.act, if_pos ⟨hmsg, hactive⟩]
  refine ⟨cm₁, ?_⟩
  rw [serveSteps_cons htest, serveSteps_cons rfl, serveSteps_cons htryLock,
    serveSteps_cons hdequeue, serveSteps_cons rfl, serveSteps_cons hsendTest,
    serveSteps_cons hsendLoop]
  rfl

end Calls

section Closed

variable {c : OwnedChannel} (hn : Numbered m) (hc : m.channel = some c)
  (hcd : c.clientDescriptor ≠ m.socketDescriptor)

include hn hc hcd

theorem exists_undisciplined_of_readData {size : ℕ}
    (hon : OnChannel k m (.channel (.readTest size))) (hactive : (m.channelMem c).active = true) :
    ∃ s', (system k fd).LeadsTo ⟨m, .channel (.readTest size)⟩ s' ∧
      ¬ Disciplined s'.mem.trace := by
  have hl := Channel.locked_of_reachable (hon c hc)
  have hlock := hl.read.free_of_outside (fun _ => rfl)
  have hpass : Action.passes c.clientDescriptor (.recv c.clientDescriptor) = true :=
    decide_eq_true rfl
  exact exists_undisciplined_of_serve hn hc hcd (serveSteps_readData hactive hlock size)
    (.recv .wouldBlock) rfl rfl hpass

theorem exists_undisciplined_of_handleWriteQueue
    (hon : OnChannel k m (.channel .writeTest)) (hactive : (m.channelMem c).isActive = true)
    (hqueue : (m.channelMem c).writeQueue () ≠ []) :
    ∃ s', (system k fd).LeadsTo ⟨m, .channel .writeTest⟩ s' ∧ ¬ Disciplined s'.mem.trace := by
  have hl := Channel.locked_of_reachable (hon c hc)
  have hlock := hl.write.free_of_outside (fun _ => rfl)
  obtain ⟨msg, rest, hmsgs⟩ := List.exists_cons_of_ne_nil hqueue
  have hmem : msg ∈ (m.channelMem c).writeQueue () := by
    rw [hmsgs]
    exact List.mem_cons_self
  have hpos := (Channel.delivered_of_reachable (hon c hc)).toSpan_pos
    (Bool.and_eq_true_iff.mp hactive).1 hmem
  obtain ⟨cm, hsteps⟩ := serveSteps_handleWriteQueue (k := k) hactive hlock hmsgs hpos
  have hpass : Action.passes c.clientDescriptor (.send c.clientDescriptor) = true :=
    decide_eq_true rfl
  exact exists_undisciplined_of_serve hn hc hcd hsteps (.send .wouldBlock) rfl rfl hpass

end Closed

/-- A call that is not clear gets to a kernel call with the number that was closed. -/
theorem exists_undisciplined_of_call {choice : Channel.Choice Unit} (hr : (system k fd).Reachable s)
    (hclear : ¬ Clear s (.channel choice))
    (hs : (system k fd).next s (.channel choice) = some s') :
    ∃ s'', (system k fd).LeadsTo s' s'' ∧ ¬ Disciplined s''.mem.trace := by
  have hr' := hr.step trivial hs
  have hn := numbered_of_reachable hr'
  have hon := onChannel_of_reachable hr'
  obtain ⟨m, p⟩ := s
  cases p with
  | connectNoDelay | connectLoop | destroyed => cases hs
  | channel q =>
      rw [next_channel] at hs
      obtain ⟨⟨m', p'⟩, hserve, rfl⟩ := Option.map_eq_some_iff.mp hs
      obtain ⟨c, cm, q', hc, hact, rfl, rfl⟩ := Mem.serve_eq_some hserve
      cases choice with
      | readData size =>
          obtain ⟨rfl, rfl⟩ := act_readData hact
          simp only [Clear, not_forall] at hclear
          obtain ⟨c₀, hc₀, hactive, hcd⟩ := hclear
          obtain rfl := Option.some.inj (hc₀.symm.trans hc)
          exact exists_undisciplined_of_readData hn rfl hcd hon hactive
      | handleWriteQueue =>
          obtain ⟨rfl, rfl⟩ := act_handleWriteQueue hact
          simp only [Clear, not_forall] at hclear
          obtain ⟨c₀, hc₀, hactive, hqueue, hcd⟩ := hclear
          obtain rfl := Option.some.inj (hc₀.symm.trans hc)
          exact exists_undisciplined_of_handleWriteQueue hn rfl hcd hon hactive hqueue
      | _ => exact absurd trivial hclear

/-- After each step that is not clear, a closed number can still be passed on. -/
theorem exists_undisciplined_of_not_clear (hr : (system k fd).Reachable s) (hclear : ¬ Clear s a)
    (hs : (system k fd).next s a = some s') :
    ∃ s'', (system k fd).LeadsTo s' s'' ∧ ¬ Disciplined s''.mem.trace := by
  cases a with
  | channel choice => exact exists_undisciplined_of_call hr hclear hs
  | connectStatus status =>
      simp only [Clear, not_forall] at hclear
      obtain ⟨hfails, hsd⟩ := hclear
      obtain ⟨m', p', hact, rfl⟩ | ⟨hlabel, -⟩ := next_cases (a := .connectStatus status) hs
      · obtain ⟨rfl, rfl⟩ := act_connectFails hfails hact
        exact exists_undisciplined_of_destroy hsd (by simp)
      · cases hlabel
  | _ => exact absurd trivial hclear

end Sharp

/-! ### Runs of one socket -/

instance (s : State) (a : Label) : Decidable (Clear s a) := by
  unfold Clear
  split <;> infer_instance

def subscribed : Settings := ⟨false, false, true⟩

/-- The connection is refused and the socket is destroyed: the destructor shuts down and closes the
number that `connect` has closed. -/
theorem not_forall_disciplined :
    ¬ ∀ k fd s, (system k fd).Reachable s → Disciplined s.mem.trace := by
  intro h
  have hrun : ((system subscribed 3).exec (system subscribed 3).start
      [.connect, .connectStatus .error, .destroy]).any (fun s =>
      s.mem.trace = [.connect 3 .error, .close 3] ++
        .shutdown 3 :: [.close 3, .invoke false false]) = true := by decide
  obtain ⟨s, hs, htrace⟩ := exists_reachedBy_of_execWhile hrun
  have hd := h subscribed 3 s hs
  rw [of_decide_eq_true htrace] at hd
  exact not_disciplined (n := 3) (by decide) (by decide) (by decide) hd

def hi : Channel.Message where
  data := some [104, 105]
  length := 2
  sized := by simp

def serve (choices : List (Channel.Choice Unit)) : List Label := choices.map .channel

/-- A message is written and sent, the socket is closed twice and destroyed; a worker calls
`handleWriteQueue` once more and finds nothing to send. -/
theorem disciplined_whole_life :
    ∃ s, (system subscribed 3).ReachedBy Clear s ∧
      s.mem.trace = [.connect 3 .wouldBlock, .connect 3 .success, .send 3, .shutdown 3, .close 3,
        .invoke true false, .invoke true false, .invoke true false] ∧
      Disciplined s.mem.trace := by
  have hrun : ((system subscribed 3).execWhile Clear (system subscribed 3).start
      ([.connect, .connectStatus .wouldBlock, .connectStatus .success] ++
        serve [.queueWrite hi, .go, .go] ++
        serve [.handleWriteQueue, .go, .sizeApprox false, .go, .dequeueBulk [((), hi)], .go, .go,
          .go, .send (.accepted 2), .go, .go, .go] ++
        [.close] ++ serve [.handleWriteQueue, .go, .sizeApprox true] ++
        [.close, .destroy])).any (fun s =>
      s.mem.trace = [.connect 3 .wouldBlock, .connect 3 .success, .send 3, .shutdown 3, .close 3,
        .invoke true false, .invoke true false, .invoke true false]) = true := by decide
  obtain ⟨s, hs, htrace⟩ := exists_reachedBy_of_execWhile hrun
  exact ⟨s, hs, of_decide_eq_true htrace, disciplined_of_clear hs⟩

end SocketLib.ClientSocket
