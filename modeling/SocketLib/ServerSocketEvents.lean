import SocketLib.ServerSocketLock

/-!
# The order of a channel's callbacks

Workers run listen callbacks under shared access while the channel is in the map, and `closeClient`
tells the disconnection after it has taken the channel out under exclusive access, so these come in
order. The callback for the connection runs on a detached thread that nobody waits for: it may start
after the first listen callback, after the disconnection, and after the channel is destroyed.
`ConnectFirst` is the condition that it does not, and under it the callbacks of every channel come
in the order of connection, data, disconnection.
-/

namespace SocketLib.ServerSocket

/-- The connect callback for the connection has started. -/
def Channel.told (ch : Channel) : Bool :=
  ch.connectThread = .running ∨ ch.connectThread = .returned

/-- Some listen events between a connection and a disconnection, or a part of this from the
beginning. -/
def EventOrder (events : List Event) : Prop :=
  ∃ n, events <+: .connect true :: List.replicate n .listen ++ [.connect false]

/-- The callbacks of every channel have started in order; once the disconnection was told no other
callback of the channel is running; and none has started after the channel was destroyed. -/
structure EventsInOrder {T : Type*} (s : State T) : Prop where
  order : ∀ c, EventOrder (s.mem.channel c).events
  disconnectedLast : ∀ c, .connect false ∈ (s.mem.channel c).events →
    (s.mem.channel c).connectThread ≠ .running ∧ ∀ t rest, s.points t ≠ .readCallback c rest
  beforeDestruction : ∀ c, (s.mem.channel c).startedDestroyed = false

/-- The connect callback of a channel starts before the first listen callback and before the channel
is destroyed with the server, and it returns before `closeClient` tells the disconnection. -/
def ConnectFirst {T : Type*} (s : State T) : Label T → Prop
  | .thread t _ =>
      match s.points t with
      | .readInvoke c _ => (s.mem.channel c).told
      | .closing .invoke c _ _ => (s.mem.channel c).connectThread = .returned
      | .destroyJoin => ∀ e ∈ s.mem.clients, (s.mem.channel e.2).told
      | _ => True
  | _ => True

/-- The client that the listen thread is registering, up to the start of the detached thread. -/
def Point.registers : Point → Option ChannelId
  | .acceptTest (some c) | .connectAcquire c | .connectEmplace c | .connectUnlock c
  | .connectSpawn c => some c
  | _ => none

/-- What the order of callbacks depends on. -/
structure SameLife (m m' : Mem) : Prop where
  lifetime : m'.lifetime = .destroyed ↔ m.lifetime = .destroyed
  accepted : m'.accepted = m.accepted
  connectThread : ∀ c, (m'.channel c).connectThread = (m.channel c).connectThread
  events : ∀ c, (m'.channel c).events = (m.channel c).events
  destroyed : ∀ c, (m'.channel c).destroyed = (m.channel c).destroyed
  startedDestroyed : ∀ c, (m'.channel c).startedDestroyed = (m.channel c).startedDestroyed

/-- The steps of a thread, by what they mean for the life of a channel. -/
inductive LifeMoves (m : Mem) (p : Point) : Mem → Point → Prop
  | same {m' : Mem} {p' : Point} (hs : SameLife m m')
      (hr : p'.registers = none ∨ (p'.registers = p.registers ∧ ∀ c, p ≠ .connectSpawn c)) :
      LifeMoves m p m' p'
  | accepts (fd : Fd) (hp : p.registers = none) :
      LifeMoves m p (m.accept fd) (.acceptTest (some m.accepted))
  | collides (c : ChannelId) (e : Entry) (hp : p = .connectEmplace c)
      (hfind : m.find (m.channel c).clientDescriptor = some e) :
      LifeMoves m p (m.destroy c) (.connectUnlock e.2)
  | spawns (c : ChannelId) (hp : p = .connectSpawn c) :
      LifeMoves m p (m.setConnectThread c .spawned) .listenTest
  | delivers (c : ChannelId) (rest : List Entry) (hp : p = .readInvoke c rest) :
      LifeMoves m p (m.start c .listen) (.readCallback c rest)
  | disconnects (c : ChannelId) (fd : Fd) (caller : Caller) (hp : p = .closing .invoke c fd caller) :
      LifeMoves m p (m.start c (.connect false)) (.closing .callback c fd caller)
  | destroys (c : ChannelId) (fd : Fd) (caller : Caller) (hp : p = .closing .destroy c fd caller) :
      LifeMoves m p (m.destroy c) caller.resume
  | ends (hp : p = .destroyJoin) : LifeMoves m p m.destroyMembers .finished

theorem SameLife.refl (m : Mem) : SameLife m m :=
  ⟨Iff.rfl, rfl, fun _ => rfl, fun _ => rfl, fun _ => rfl, fun _ => rfl⟩

theorem sameLife_modify (m : Mem) (c : ChannelId) (f : Channel → Channel)
    (ht : (f (m.channel c)).connectThread = (m.channel c).connectThread)
    (he : (f (m.channel c)).events = (m.channel c).events)
    (hd : (f (m.channel c)).destroyed = (m.channel c).destroyed)
    (hs : (f (m.channel c)).startedDestroyed = (m.channel c).startedDestroyed) :
    SameLife m (m.modify c f) := by
  refine ⟨Iff.rfl, rfl, fun d => ?_, fun d => ?_, fun d => ?_, fun d => ?_⟩
  all_goals
    by_cases h : d = c
    · subst d
      simpa only [Mem.modify, Function.update_self]
    · simp only [Mem.modify, Function.update_of_ne h]

theorem sameLife_shutdown (m : Mem) (fd : Fd) : SameLife m (m.shutdown fd) := by
  unfold Mem.shutdown
  split
  · exact sameLife_modify m _ _ rfl rfl rfl rfl
  · exact .refl m

theorem sameLife_close (m : Mem) (fd : Fd) : SameLife m (m.close fd) := by
  unfold Mem.close
  split
  · rename_i c _
    have hs := sameLife_modify { m with owner := Function.update m.owner fd none } c
      (fun ch => { ch with closes := ch.closes + 1 }) rfl rfl rfl rfl
    exact ⟨hs.lifetime, hs.accepted, hs.connectThread, hs.events, hs.destroyed,
      hs.startedDestroyed⟩
  · exact ⟨Iff.rfl, rfl, fun _ => rfl, fun _ => rfl, fun _ => rfl, fun _ => rfl⟩

theorem sameLife_erase (m : Mem) (e : Entry) : SameLife m (m.erase e) := by
  have hs := sameLife_modify { m with clients := m.clients.erase e } e.2
    (fun ch => { ch with removals := ch.removals + 1 }) rfl rfl rfl rfl
  exact ⟨hs.lifetime, hs.accepted, hs.connectThread, hs.events, hs.destroyed, hs.startedDestroyed⟩

theorem act_lifeMoves {registered : Bool} {m m' : Mem} {p p' : Point} {choice : Choice} :
    act registered m p choice = some (m', p') → LifeMoves m p m' p' := by
  fun_cases act registered m p choice
  all_goals
    simp only [Option.some.injEq, Prod.mk.injEq, reduceCtorEq, false_implies, and_imp]
    try rintro rfl rfl
  case case3 =>
    exact .same ⟨by simp [*], rfl, fun _ => rfl, fun _ => rfl, fun _ => rfl, fun _ => rfl⟩
      (Or.inl rfl)
  case case15 => exact .accepts _ rfl
  case case20 => exact .collides _ _ rfl ‹_›
  case case22 =>
    exact .same ⟨Iff.rfl, rfl, fun _ => rfl, fun _ => rfl, fun _ => rfl, fun _ => rfl⟩
      (Or.inr ⟨rfl, by simp⟩)
  case case25 => exact .spawns _ rfl
  case case27 => exact .same (sameLife_erase m _) (Or.inl rfl)
  case case31 => exact .disconnects _ _ _ rfl
  case case34 => exact .same (sameLife_shutdown m _) (Or.inl rfl)
  case case35 => exact .same (sameLife_close m _) (Or.inl rfl)
  case case37 => exact .destroys _ _ _ rfl
  case case38 =>
    exact .same ⟨Iff.rfl, rfl, fun _ => rfl, fun _ => rfl, fun _ => rfl, fun _ => rfl⟩ (Or.inl rfl)
  case case43 => exact .ends rfl
  case case51 | case55 | case59 => exact .same (sameLife_modify m _ _ rfl rfl rfl rfl) (Or.inl rfl)
  case case57 => exact .delivers _ _ rfl
  case case60 =>
    split
    · exact .same (sameLife_modify m _ _ rfl rfl rfl rfl) (Or.inl rfl)
    · exact .same (.refl m) (Or.inl rfl)
  all_goals try split
  all_goals first
    | exact .same (.refl _) (Or.inl rfl)
    | exact .same (.refl _) (Or.inr ⟨rfl, by simp⟩)

/-! ### The invariant -/

/-- A channel whose connect callback has come first. -/
structure Ordered (ch : Channel) : Prop where
  before : ch.told = false → ch.events = []
  after : ch.told → ∃ n, ch.events = .connect true :: List.replicate n .listen ∨
    (ch.connectThread = .returned ∧
      ch.events = .connect true :: List.replicate n .listen ++ [.connect false])
  destroyed : ch.destroyed → ch.told
  started : ch.startedDestroyed = false

/-- The channel is in the map, or some thread answers for it. -/
def Attended {T : Type*} (m : Mem) (points : T → Point) (c : ChannelId) : Prop :=
  (∃ e ∈ m.clients, e.2 = c) ∨ ∃ t, (points t).carries = some c

/-- A client that is being registered is so by one thread, and its detached thread is yet to
come. -/
structure Registering {T : Type*} (m : Mem) (points : T → Point) : Prop where
  registering : ∀ t c, (points t).registers = some c →
    c < m.accepted ∧ (m.channel c).connectThread = .unborn
  registeringOnce : ∀ t u c, (points t).registers = some c → (points u).registers = some c → t = u
  gone : m.lifetime = .destroyed → ∀ t, points t = .idle ∨ points t = .finished

structure Lifecycle {T : Type*} (m : Mem) (points : T → Point) : Prop
    extends Registering m points where
  ordered : ∀ c, Ordered (m.channel c)
  alive : m.lifetime ≠ .destroyed → ∀ c, Attended m points c → (m.channel c).destroyed = false

section Ordered

variable {ch : Channel}

theorem Ordered.eventOrder (h : Ordered ch) : EventOrder ch.events := by
  cases ht : ch.told with
  | false =>
      rw [h.before ht]
      exact ⟨0, List.nil_prefix⟩
  | true =>
      obtain ⟨n, hevents | ⟨-, hevents⟩⟩ := h.after ht
      · rw [hevents]
        exact ⟨n, List.prefix_append _ _⟩
      · rw [hevents]
        exact ⟨n, List.prefix_rfl⟩

theorem Ordered.returned (h : Ordered ch) (hmem : .connect false ∈ ch.events) :
    ch.connectThread = .returned := by
  cases ht : ch.told with
  | false =>
      rw [h.before ht] at hmem
      cases hmem
  | true =>
      obtain ⟨n, hevents | ⟨hreturned, -⟩⟩ := h.after ht
      · rw [hevents] at hmem
        simp at hmem
      · exact hreturned

/-- Before the disconnection is told the events are those of a connection with its data. -/
theorem Ordered.open (h : Ordered ch) (htold : ch.told) (hmem : .connect false ∉ ch.events) :
    ∃ n, ch.events = .connect true :: List.replicate n .listen := by
  obtain ⟨n, hevents | ⟨-, hevents⟩⟩ := h.after htold
  · exact ⟨n, hevents⟩
  · rw [hevents] at hmem
    simp at hmem

theorem Ordered.deliver (h : Ordered ch) (htold : ch.told) (hmem : .connect false ∉ ch.events)
    (hdestroyed : ch.destroyed = false) :
    Ordered { ch with
      events := ch.events ++ [.listen]
      startedDestroyed := ch.startedDestroyed || ch.destroyed } := by
  obtain ⟨n, hevents⟩ := h.open htold hmem
  refine ⟨fun hnot => ?_, fun _ => ⟨n + 1, Or.inl ?_⟩, h.destroyed, ?_⟩
  · change ch.told = false at hnot
    rw [htold] at hnot
    cases hnot
  · simp only [hevents, List.replicate_succ', List.cons_append]
  · simp only [h.started, hdestroyed, Bool.or_false]

theorem Ordered.disconnect (h : Ordered ch) (hreturned : ch.connectThread = .returned)
    (hmem : .connect false ∉ ch.events) (hdestroyed : ch.destroyed = false) :
    Ordered { ch with
      events := ch.events ++ [.connect false]
      startedDestroyed := ch.startedDestroyed || ch.destroyed } := by
  have htold : ch.told := by simp [Channel.told, hreturned]
  obtain ⟨n, hevents⟩ := h.open htold hmem
  refine ⟨fun hnot => ?_, fun _ => ⟨n, Or.inr ⟨hreturned, ?_⟩⟩, h.destroyed, ?_⟩
  · change ch.told = false at hnot
    rw [htold] at hnot
    cases hnot
  · simp only [hevents]
  · simp only [h.started, hdestroyed, Bool.or_false]

theorem Ordered.connect (h : Ordered ch) (hspawned : ch.connectThread = .spawned) :
    Ordered { ch with
      events := ch.events ++ [.connect true]
      startedDestroyed := ch.startedDestroyed || ch.destroyed
      connectThread := .running } := by
  have hnot : ch.told = false := by simp [Channel.told, hspawned]
  have hdestroyed : ch.destroyed = false := by
    by_contra hd
    rw [h.destroyed (by simpa using hd)] at hnot
    cases hnot
  refine ⟨fun hnot => ?_, fun _ => ⟨0, Or.inl ?_⟩, fun _ => rfl, ?_⟩
  · cases hnot
  · simp only [h.before hnot, List.nil_append, List.replicate_zero]
  · simp only [h.started, hdestroyed, Bool.or_false]

theorem Ordered.return (h : Ordered ch) (hrunning : ch.connectThread = .running) :
    Ordered { ch with connectThread := .returned } := by
  have htold : ch.told := by simp [Channel.told, hrunning]
  refine ⟨fun hnot => ?_, fun _ => ?_, fun _ => rfl, h.started⟩
  · cases hnot
  · obtain ⟨n, hevents | ⟨hreturned, -⟩⟩ := h.after htold
    · exact ⟨n, Or.inl hevents⟩
    · rw [hrunning] at hreturned
      cases hreturned

theorem Ordered.spawn (h : Ordered ch) (hunborn : ch.connectThread = .unborn) :
    Ordered { ch with connectThread := .spawned } := by
  have hnot : ch.told = false := by simp [Channel.told, hunborn]
  refine ⟨fun _ => h.before hnot, fun htold => (nomatch htold), fun hd => ?_, h.started⟩
  rw [h.destroyed hd] at hnot
  cases hnot

theorem Ordered.destroy (h : Ordered ch) (htold : ch.told) :
    Ordered { ch with active := false, destroyed := true } :=
  ⟨h.before, h.after, fun _ => htold, h.started⟩

end Ordered

section Preservation

variable {registered : Bool} {m m' : Mem}

theorem Ordered.congr {ch ch' : Channel} (h : Ordered ch)
    (ht : ch'.connectThread = ch.connectThread) (he : ch'.events = ch.events)
    (hd : ch'.destroyed = ch.destroyed) (hs : ch'.startedDestroyed = ch.startedDestroyed) :
    Ordered ch' := by
  have htold : ch'.told = ch.told := by simp only [Channel.told, ht]
  refine ⟨?_, ?_, ?_, ?_⟩
  · rw [htold, he]
    exact h.before
  · rw [htold, he, ht]
    exact h.after
  · rw [htold, hd]
    exact h.destroyed
  · rw [hs]
    exact h.started

theorem ordered_initial (fd : Fd) : Ordered (Channel.initial fd) :=
  ⟨fun _ => rfl, fun h => (nomatch h), fun h => (nomatch h), rfl⟩

theorem ordered_modify (h : ∀ c, Ordered (m.channel c)) {c : ChannelId} {f : Channel → Channel}
    (hf : Ordered (f (m.channel c))) (d : ChannelId) : Ordered ((m.modify c f).channel d) := by
  by_cases hd : d = c
  · subst d
    simpa only [Mem.modify, Function.update_self] using hf
  · simpa only [Mem.modify, Function.update_of_ne hd] using h d

variable {T : Type*} {points : T → Point}

theorem Listed.not_disconnected {e : Entry} (h : Listed m e) :
    .connect false ∉ (m.channel e.2).events := by
  have hcount : (m.channel e.2).tally.disconnects = 0 := by rw [h.tally]; rfl
  exact List.count_eq_zero.mp hcount

/-- The callbacks stay in order over a step that lets the connect callback come first. -/
theorem Lifecycle.ordered_act {t : T} {p' : Point} (h : Lifecycle m points)
    (hc : Custody true m points) (hscan : Scanning m (points t))
    (hlife : LifeMoves m (points t) m' p') (hlifetime : m.lifetime ≠ .destroyed)
    (hread : ∀ c rest, points t = .readInvoke c rest → (m.channel c).told)
    (hinvoke : ∀ c fd caller, points t = .closing .invoke c fd caller →
      (m.channel c).connectThread = .returned)
    (hjoin : points t = .destroyJoin → ∀ e ∈ m.clients, (m.channel e.2).told) (c : ChannelId) :
    Ordered (m'.channel c) := by
  cases hlife with
  | same hs =>
      exact (h.ordered c).congr (hs.connectThread c) (hs.events c) (hs.destroyed c)
        (hs.startedDestroyed c)
  | accepts fd =>
      by_cases hcm : c = m.accepted
      · subst c
        simpa only [Mem.accept, Function.update_self] using ordered_initial fd
      · simpa only [Mem.accept, Function.update_of_ne hcm] using h.ordered c
  | collides d e hp hfind =>
      have hfresh := (descriptorDiscipline_of_custody (s := ⟨m, points⟩) hc).emplace t d hp
      rw [hfind] at hfresh
      cases hfresh
  | spawns d hp =>
      exact ordered_modify h.ordered
        ((h.ordered d).spawn (h.registering t d (by rw [hp]; rfl)).2) c
  | delivers d rest hp =>
      obtain ⟨e, he, rfl⟩ := hscan.visits d (by rw [hp]; rfl)
      exact ordered_modify h.ordered ((h.ordered e.2).deliver (hread e.2 rest hp)
        (hc.listed e he).not_disconnected (h.alive hlifetime e.2 (Or.inl ⟨e, he, rfl⟩))) c
  | disconnects d fd caller hp =>
      have hcarry : (points t).carries = some d := by rw [hp]; rfl
      have hcount : (m.channel d).tally.disconnects = 0 := by
        rw [(hc.answers t d hcarry).tally, hp]
        rfl
      exact ordered_modify h.ordered ((h.ordered d).disconnect (hinvoke d fd caller hp)
        (List.count_eq_zero.mp hcount) (h.alive hlifetime d (Or.inr ⟨t, hcarry⟩))) c
  | destroys d fd caller hp =>
      have hcarry : (points t).carries = some d := by rw [hp]; rfl
      have hcount : (m.channel d).events.count (.connect false) = 1 := by
        change (m.channel d).tally.disconnects = 1
        rw [(hc.answers t d hcarry).tally, hp]
        rfl
      have hmem : .connect false ∈ (m.channel d).events := List.count_pos_iff.mp (by omega)
      have htold : (m.channel d).told := by
        simp [Channel.told, (h.ordered d).returned hmem]
      exact ordered_modify h.ordered ((h.ordered d).destroy htold) c
  | ends hp =>
      simp only [Mem.destroyMembers]
      split
      · rename_i hmem
        obtain ⟨e, he, rfl⟩ := List.mem_map.mp hmem
        exact (h.ordered e.2).destroy (hjoin hp e he)
      · exact h.ordered c

theorem LifeMoves.accepted {p p' : Point} (h : LifeMoves m p m' p') : m.accepted ≤ m'.accepted := by
  cases h with
  | same hs => exact hs.accepted.ge
  | accepts => exact Nat.le_succ _
  | _ => exact le_rfl

/-- A step leaves the detached thread of a channel alone, except for the one of a channel that it
accepts or for which it starts that thread. -/
theorem LifeMoves.connectThread {p p' : Point} (h : LifeMoves m p m' p') {c : ChannelId}
    (hc : c < m.accepted) (hp : p ≠ .connectSpawn c) :
    (m'.channel c).connectThread = (m.channel c).connectThread := by
  have hmodify : ∀ d f, (d = c → (f (m.channel d)).connectThread = (m.channel d).connectThread) →
      ((m.modify d f).channel c).connectThread = (m.channel c).connectThread := by
    intro d f hf
    by_cases hd : c = d
    · subst d
      simpa only [Mem.modify, Function.update_self] using hf rfl
    · simp only [Mem.modify, Function.update_of_ne hd]
  cases h with
  | same hs => exact hs.connectThread c
  | accepts => simp only [Mem.accept, Function.update_of_ne hc.ne]
  | collides d => exact hmodify d _ (fun _ => rfl)
  | spawns d hd =>
      apply hmodify d
      rintro rfl
      exact absurd hd hp
  | delivers d => exact hmodify d _ (fun _ => rfl)
  | disconnects d => exact hmodify d _ (fun _ => rfl)
  | destroys d => exact hmodify d _ (fun _ => rfl)
  | ends =>
      simp only [Mem.destroyMembers]
      split <;> rfl

/-- Whose client a thread registers after a step: the one before, none, or the client accepted. -/
theorem LifeMoves.registers {p p' : Point} (h : LifeMoves m p m' p') {c : ChannelId}
    (hc : p'.registers = some c) (hfind : ∀ d, p = .connectEmplace d →
      m.find (m.channel d).clientDescriptor = none) :
    p.registers = some c ∧ p ≠ .connectSpawn c ∨
      (c = m.accepted ∧ c < m'.accepted ∧ (m'.channel c).connectThread = .unborn) := by
  cases h with
  | same hs hr =>
      rcases hr with hr | ⟨hr, hp⟩
      · rw [hr] at hc
        cases hc
      · exact Or.inl ⟨hr.symm.trans hc, hp c⟩
  | accepts fd hp =>
      obtain rfl := Option.some.inj hc
      right
      simp [Mem.accept, Channel.initial]
  | collides d e hp hd =>
      rw [hfind d hp] at hd
      cases hd
  | destroys d fd caller => cases caller <;> cases hc
  | spawns => cases hc
  | delivers => cases hc
  | disconnects => cases hc
  | ends => cases hc

/-- A thread attends to the channels attended to before, and to the one it accepts. -/
theorem Moves.attended [DecidableEq T] {t : T} {p' : Point}
    (h : Moves registered m (points t) m' p') {c : ChannelId}
    (hc : Attended m' (Function.update points t p') c) :
    Attended m points c ∨ ∃ fd, m' = m.accept fd ∧ c = m.accepted := by
  have hthread : ∀ u, (Function.update points t p' u).carries = some c →
      Attended m points c ∨ p'.carries = some c := by
    intro u hu
    by_cases hut : u = t
    · subst u
      rw [Function.update_self] at hu
      exact Or.inr hu
    · rw [Function.update_of_ne hut] at hu
      exact Or.inl (Or.inr ⟨u, hu⟩)
  have hkeep : m'.clients = m.clients → (p'.carries = some c → Attended m points c) →
      Attended m points c ∨ ∃ fd, m' = m.accept fd ∧ c = m.accepted := by
    intro hclients hp'
    rcases hc with ⟨e, he, hec⟩ | ⟨u, hu⟩
    · exact Or.inl (Or.inl ⟨e, hclients ▸ he, hec⟩)
    · exact Or.inl ((hthread u hu).elim id hp')
  cases h with
  | carriesOn hs hcarries => exact hkeep hs.clients (fun hp' => Or.inr ⟨t, hcarries.symm.trans hp'⟩)
  | drops hs hcarries =>
      apply hkeep hs.clients
      intro hp'
      rw [hcarries] at hp'
      cases hp'
  | accepts fd hfd hp =>
      rcases hc with ⟨e, he, hec⟩ | ⟨u, hu⟩
      · exact Or.inl (Or.inl ⟨e, he, hec⟩)
      · rcases hthread u hu with hold | hnew
        · exact Or.inl hold
        · exact Or.inr ⟨fd, rfl, (Option.some.inj hnew).symm⟩
  | registers d clients p' hp hfind hperm hcarries =>
      left
      rcases hc with ⟨e, he, hec⟩ | ⟨u, hu⟩
      · rcases List.mem_cons.mp (hperm.mem_iff.mp he) with rfl | hold
        · obtain rfl : d = c := hec
          exact Or.inr ⟨t, by rw [hp]; rfl⟩
        · exact Or.inl ⟨e, hold, hec⟩
      · rcases hthread u hu with hold | hnew
        · exact hold
        · rw [hcarries] at hnew
          cases hnew
  | removes fd caller e hp hfind =>
      left
      rcases hc with ⟨e', he, hec⟩ | ⟨u, hu⟩
      · exact Or.inl ⟨e', List.mem_of_mem_erase he, hec⟩
      · rcases hthread u hu with hold | hnew
        · exact hold
        · exact Or.inl ⟨e, (find_some hfind).1, Option.some.inj hnew⟩
  | invokes d fd caller hp => exact hkeep rfl (fun hp' => Or.inr ⟨t, by rw [hp]; exact hp'⟩)
  | shuts d fd caller hp =>
      exact hkeep (shutdown_clients m fd) (fun hp' => Or.inr ⟨t, by rw [hp]; exact hp'⟩)
  | closes d fd caller hp =>
      exact hkeep (close_clients m fd) (fun hp' => Or.inr ⟨t, by rw [hp]; exact hp'⟩)

theorem Lifecycle.alive_act [DecidableEq T] {t : T} {p' : Point} (h : Lifecycle m points)
    (hc : Custody true m points) (hmoves : Moves true m (points t) m' p')
    (hlife : LifeMoves m (points t) m' p') (hlifetime : m'.lifetime ≠ .destroyed) {c : ChannelId}
    (hatt : Attended m' (Function.update points t p') c) : (m'.channel c).destroyed = false := by
  rcases hmoves.attended hatt with hold | ⟨fd, rfl, rfl⟩
  · have hmodify : ∀ d f, (f (m.channel d)).destroyed = (m.channel d).destroyed →
        m.lifetime ≠ .destroyed → ((m.modify d f).channel c).destroyed = false := by
      intro d f hf hm
      by_cases hd : c = d
      · subst d
        simpa only [Mem.modify, Function.update_self, hf] using h.alive hm c hold
      · simpa only [Mem.modify, Function.update_of_ne hd] using h.alive hm c hold
    cases hlife with
    | same hs =>
        rw [hs.destroyed]
        exact h.alive (fun hm => hlifetime (hs.lifetime.mpr hm)) c hold
    | accepts fd =>
        by_cases hcm : c = m.accepted
        · subst c
          simp [Mem.accept, Channel.initial]
        · simpa only [Mem.accept, Function.update_of_ne hcm] using h.alive hlifetime c hold
    | collides d e hp hfind =>
        have hfresh := (descriptorDiscipline_of_custody (s := ⟨m, points⟩) hc).emplace t d hp
        rw [hfind] at hfresh
        cases hfresh
    | spawns d => exact hmodify d _ rfl hlifetime
    | delivers d => exact hmodify d _ rfl hlifetime
    | disconnects d => exact hmodify d _ rfl hlifetime
    | destroys d fd caller hp =>
        have hcarry : (points t).carries = some d := by rw [hp]; rfl
        by_cases hd : c = d
        · -- nobody attends to the channel that was destroyed
          subst d
          exfalso
          rcases hatt with ⟨e, he, hec⟩ | ⟨u, hu⟩
          · exact hc.apart t c hcarry e he hec
          · by_cases hut : u = t
            · subst u
              rw [Function.update_self] at hu
              cases caller <;> cases hu
            · rw [Function.update_of_ne hut] at hu
              exact hut (hc.unique u t c hu hcarry)
        · simpa only [Mem.destroy, Mem.modify, Function.update_of_ne hd]
            using h.alive hlifetime c hold
    | ends => exact absurd rfl hlifetime
  · simp [Mem.accept, Channel.initial]

theorem connectStart_eq (m : Mem) (c : ChannelId) :
    (m.start c (.connect true)).setConnectThread c .running = m.modify c fun ch =>
      { ch with
        events := ch.events ++ [.connect true]
        startedDestroyed := ch.startedDestroyed || ch.destroyed
        connectThread := .running } := by
  simp [Mem.start, Mem.setConnectThread, Mem.modify]

/-- A field that a change of a channel leaves alone is the same in all channels. -/
theorem modify_field {α : Type*} (g : Channel → α) (m : Mem) (c d : ChannelId)
    (f : Channel → Channel) (h : g (f (m.channel c)) = g (m.channel c)) :
    g ((m.modify c f).channel d) = g (m.channel d) := by
  by_cases hd : d = c
  · subst d
    simpa only [Mem.modify, Function.update_self] using h
  · simp only [Mem.modify, Function.update_of_ne hd]

/-- Nobody is inside a destroyed server, and nobody enters it. -/
theorem act_gone {p p' : Point} {choice : Choice} (hgone : m.lifetime = .destroyed)
    (hp : p = .idle ∨ p = .finished) : act registered m p choice ≠ some (m', p') := by
  rcases hp with rfl | rfl <;> cases choice <;> simp [act, hgone]

end Preservation

section Runs

variable {T : Type*}

theorem registering_initial (role : T → Role) :
    Registering Mem.initial (fun t => (role t).point) := by
  have hnone : ∀ t, ((role t).point).registers = none := fun t => by cases role t <;> rfl
  refine ⟨?_, ?_, fun h => (nomatch h)⟩
  · intro t c hc
    rw [hnone t] at hc
    cases hc
  · intro t u c hc
    rw [hnone t] at hc
    cases hc

theorem lifecycle_initial (role : T → Role) :
    Lifecycle Mem.initial (fun t => (role t).point) :=
  ⟨registering_initial role, fun _ => ordered_initial 0, fun _ _ _ => rfl⟩

/-- Only the start of a detached thread ends the registration of its client. -/
theorem Outside.unborn {m m' : Mem} (h : Outside m m') {c : ChannelId}
    (hc : (m.channel c).connectThread = .unborn) : (m'.channel c).connectThread = .unborn := by
  cases h with
  | connectStart d hspawned =>
      have hne : c ≠ d := by
        rintro rfl
        rw [hspawned] at hc
        cases hc
      rw [connectStart_eq]
      simpa only [Mem.modify, Function.update_of_ne hne] using hc
  | connectReturn d hrunning =>
      have hne : c ≠ d := by
        rintro rfl
        rw [hrunning] at hc
        cases hc
      simpa only [Mem.setConnectThread, Mem.modify, Function.update_of_ne hne] using hc
  | notifyStop => exact hc
  | foreignOpen => exact hc
  | foreignClose => exact hc

theorem Outside.lifetime {m m' : Mem} (h : Outside m m') : m'.lifetime = m.lifetime := by
  cases h <;> rfl

theorem Outside.destroyed {m m' : Mem} (h : Outside m m') (c : ChannelId) :
    (m'.channel c).destroyed = (m.channel c).destroyed := by
  cases h with
  | connectStart d =>
      rw [connectStart_eq]
      exact modify_field Channel.destroyed m d c _ rfl
  | connectReturn d => exact modify_field Channel.destroyed m d c _ rfl
  | _ => rfl

theorem Registering.outside {m m' : Mem} {points : T → Point} (h : Registering m points)
    (hout : Outside m m') : Registering m' points := by
  refine ⟨?_, h.registeringOnce, ?_⟩
  · intro t c hc
    obtain ⟨hlt, hunborn⟩ := h.registering t c hc
    exact ⟨((sameCustody_outside hout).spares c).accepted hlt, hout.unborn hunborn⟩
  · rw [hout.lifetime]
    exact h.gone

theorem Lifecycle.outside {m m' : Mem} {points : T → Point} (h : Lifecycle m points)
    (hout : Outside m m') : Lifecycle m' points := by
  refine ⟨h.toRegistering.outside hout, ?_, ?_⟩
  · cases hout with
    | connectStart c hspawned =>
        rw [connectStart_eq]
        exact ordered_modify h.ordered ((h.ordered c).connect hspawned)
    | connectReturn c hrunning => exact ordered_modify h.ordered ((h.ordered c).return hrunning)
    | notifyStop => exact h.ordered
    | foreignOpen => exact h.ordered
    | foreignClose => exact h.ordered
  · intro hne c hatt
    rw [hout.destroyed]
    rw [hout.lifetime] at hne
    apply h.alive hne c
    simpa only [Attended, (sameCustody_outside hout).clients] using hatt

theorem Registering.inside {m m' : Mem} {points : T → Point} {t : T} {p' : Point} {choice : Choice}
    (h : Registering m points) (hact : act true m (points t) choice = some (m', p')) :
    m.lifetime ≠ .destroyed :=
  fun hgone => act_gone hgone (h.gone hgone t) hact

variable [DecidableEq T]

theorem Registering.thread {s : State T} {t : T} {choice : Choice} {m' : Mem} {p' : Point}
    (h : Registering s.mem s.points) (hc : Custody true s.mem s.points) (hadmits : s.admits t)
    (hact : act true s.mem (s.points t) choice = some (m', p')) :
    Registering m' (Function.update s.points t p') := by
  have hlife := act_lifeMoves hact
  have hfresh : ∀ d, s.points t = .connectEmplace d →
      s.mem.find (s.mem.channel d).clientDescriptor = none :=
    (descriptorDiscipline_of_custody hc).emplace t
  have hinside := h.inside hact
  have hregisters : ∀ u c, (Function.update s.points t p' u).registers = some c →
      ((s.points u).registers = some c ∧ s.points t ≠ .connectSpawn c) ∨
        (u = t ∧ c = s.mem.accepted ∧ c < m'.accepted ∧
          (m'.channel c).connectThread = .unborn) := by
    intro u c hu
    by_cases hut : u = t
    · subst u
      rw [Function.update_self] at hu
      exact (hlife.registers hu hfresh).imp id (fun hnew => ⟨rfl, hnew⟩)
    · rw [Function.update_of_ne hut] at hu
      refine Or.inl ⟨hu, fun hp => hut ?_⟩
      exact h.registeringOnce u t c hu (by rw [hp]; rfl)
  refine ⟨?_, ?_, ?_⟩
  · intro u c hu
    rcases hregisters u c hu with ⟨hold, hp⟩ | ⟨-, -, hnew⟩
    · obtain ⟨hlt, hunborn⟩ := h.registering u c hold
      exact ⟨hlt.trans_le hlife.accepted, (hlife.connectThread hlt hp).trans hunborn⟩
    · exact hnew
  · intro u v c hu hv
    rcases hregisters u c hu with ⟨hold, -⟩ | ⟨rfl, rfl, -⟩
    · rcases hregisters v c hv with ⟨hold', -⟩ | ⟨-, rfl, -⟩
      · exact h.registeringOnce u v c hold hold'
      · exact absurd (h.registering u _ hold).1 (lt_irrefl _)
    · rcases hregisters v _ hv with ⟨hold', -⟩ | ⟨rfl, -⟩
      · exact absurd (h.registering v _ hold').1 (lt_irrefl _)
      · rfl
  · intro hgone u
    cases hlife with
    | same hs => exact absurd (hs.lifetime.mp hgone) hinside
    | ends hp =>
        by_cases hut : u = t
        · subst u
          rw [Function.update_self]
          exact Or.inr rfl
        · rw [Function.update_of_ne hut]
          simp only [State.admits, hp] at hadmits
          exact hadmits u hut
    | _ => exact absurd hgone hinside

theorem Lifecycle.thread {s : State T} {t : T} {choice : Choice} {m' : Mem} {p' : Point}
    (h : Lifecycle s.mem s.points) (hc : Custody true s.mem s.points)
    (hscan : Scanning s.mem (s.points t)) (hadmits : s.admits t)
    (hclear : ConnectFirst s (.thread t choice))
    (hact : act true s.mem (s.points t) choice = some (m', p')) :
    Lifecycle m' (Function.update s.points t p') := by
  have hlife := act_lifeMoves hact
  refine ⟨h.toRegistering.thread hc hadmits hact, ?_, ?_⟩
  · apply h.ordered_act hc hscan hlife (h.inside hact)
    · intro c rest hp
      simpa only [ConnectFirst, hp] using hclear
    · intro c fd caller hp
      simpa only [ConnectFirst, hp] using hclear
    · intro hp
      simpa only [ConnectFirst, hp] using hclear
  · exact fun hlifetime c hatt => h.alive_act hc (act_moves hact) hlife hlifetime hatt

variable [Fintype T] {role : T → Role} {s : State T}

theorem lifecycle_of_connectFirst (h : (system role true).ReachedBy ConnectFirst s) :
    Lifecycle s.mem s.points := by
  refine h.invariant (I := fun s => Lifecycle s.mem s.points) (lifecycle_initial role) ?_
  intro s a s' hr hI hclear hs
  rcases next_cases hs with ⟨t, choice, m', p', rfl, hadmits, hact, rfl⟩ | ⟨-, hout, hpoints⟩
  · exact hI.thread (custody_of_reachable hr.reachable) (scanning_of_reachable hr.reachable t)
      hadmits hclear hact
  · rw [hpoints]
    exact hI.outside hout

/-- With a connect callback and a listen callback registered, and the callback for the connection
first, the callbacks of every channel come in order. -/
theorem eventsInOrder_of_connectFirst (h : (system role true).ReachedBy ConnectFirst s) :
    EventsInOrder s := by
  have hl := lifecycle_of_connectFirst h
  have hc := custody_of_reachable h.reachable
  refine ⟨fun c => (hl.ordered c).eventOrder, ?_, fun c => (hl.ordered c).started⟩
  intro c hmem
  refine ⟨by simp [(hl.ordered c).returned hmem], ?_⟩
  intro t rest hp
  obtain ⟨e, he, rfl⟩ := (scanning_of_reachable h.reachable t).visits c (by rw [hp]; rfl)
  exact (hc.listed e he).not_disconnected hmem

end Runs

/-! ### Runs of one client -/

def isConnectFirst {T : Type*} (s : State T) : Label T → Bool
  | .thread t _ =>
      match s.points t with
      | .readInvoke c _ => (s.mem.channel c).told
      | .closing .invoke c _ _ => decide ((s.mem.channel c).connectThread = .returned)
      | .destroyJoin => s.mem.clients.all (fun e => (s.mem.channel e.2).told)
      | _ => true
  | _ => true

theorem isConnectFirst_iff {T : Type*} (s : State T) (a : Label T) :
    isConnectFirst s a = true ↔ ConnectFirst s a := by
  cases a with
  | thread t choice =>
      simp only [isConnectFirst, ConnectFirst]
      split <;> simp only [decide_eq_true_eq, List.all_eq_true]
  | _ => exact iff_of_true rfl trivial

instance {T : Type*} (s : State T) (a : Label T) : Decidable (ConnectFirst s a) :=
  decidable_of_iff (isConnectFirst s a = true) (isConnectFirst_iff s a)

/-- A user closes the client before the detached thread gets to run: the connection is told after
the disconnection, with a channel that is destroyed. -/
theorem not_eventsInOrder :
    ¬ ∀ s, (system smallServer true).Reachable s → EventsInOrder s := by
  intro h
  have hrun : ((system smallServer true).exec (system smallServer true).start
      (acceptClient 0 5 [(5, 0)] ++ closeByUser 1 5 ++ [.connectStart 0])).any (fun s =>
      (s.mem.channel 0).events = [.connect false, .connect true] ∧
      (s.mem.channel 0).startedDestroyed = true) = true := by decide
  obtain ⟨s, hs, hstate⟩ := TransitionSystem.exists_reachedBy_of_execWhile hrun
  rw [decide_eq_true_eq] at hstate
  have hbefore := (h s hs).beforeDestruction 0
  rw [hstate.2] at hbefore
  cases hbefore

/-- The worker reads data for the client and runs the listen callback. -/
def deliverData {T : Type*} (t : T) : List (Label T) :=
  go t 5 ++ .thread t (.recv .data) :: go t 4 ++ go t 1

/-- A client connects, sends data and is closed. -/
theorem eventsInOrder_whole_life :
    ∃ s, (system smallServer true).ReachedBy ConnectFirst s ∧
      (s.mem.channel 0).events = [.connect true, .listen, .connect false] ∧
      (s.mem.channel 0).destroyed = true ∧ EventsInOrder s := by
  have hrun : ((system smallServer true).execWhile ConnectFirst (system smallServer true).start
      (acceptClient 0 5 [(5, 0)] ++ [.connectStart 0] ++ deliverData 2 ++ [.connectReturn 0] ++
        closeByUser 1 5)).any (fun s =>
      (s.mem.channel 0).events = [.connect true, .listen, .connect false] ∧
      (s.mem.channel 0).destroyed = true) = true := by decide
  obtain ⟨s, hs, hstate⟩ := TransitionSystem.exists_reachedBy_of_execWhile hrun
  rw [decide_eq_true_eq] at hstate
  exact ⟨s, hs, hstate.1, hstate.2, eventsInOrder_of_connectFirst hs⟩

end SocketLib.ServerSocket
