import SocketLib.ChannelConnectionMessages
import SocketLib.ThreadFamily

/-!
# What was queued can always arrive

Nobody waits for anybody in a channel: a thread that is in one of its functions gets to the end of
it by itself, if the kernel takes what it is offered. So from any state in which both channels are
active, and no failed call is about to shut one down, the calls under way can return, workers can
empty the queue of one end, and a worker at the other end the wire (`drains`).
-/

namespace SocketLib.Channel

open LockHolder ProducerQueue TransitionSystem ThreadFamily

variable {T : Type*}

/-- The next step shuts the channel down, if it is active. -/
def Point.breaks : Point T → Bool
  | .sendFailed _ => true
  | .readRecheck .ended | .readRecheck .connectionReset | .readRecheck .error => true
  | _ => false

/-- The steps that a thread takes to the end of its call at least, if every `send` takes all. -/
def Point.rank : Point T → ℕ
  | .idle => 0
  | .queueTest _ => 2
  | .queueEnqueue _ => 1
  | .writeTest => 6
  | .writeSize => 5
  | .writeTryLock => 4
  | .writeDequeue => 3
  | .writeNext batch => 5 * batch.length + 2
  | .writeUnlock => 1
  | .sendTest _ sender => senderRank sender + 4
  | .sendLoop sentBytes bytes sender =>
      senderRank sender + (if toSize sentBytes < bytes.length then 3 else 1)
  | .sendCall _ sender => senderRank sender + 2
  | .sendFailed sender => senderRank sender
  | .readTest _ => 7
  | .readTryLock _ => 6
  | .readRecv _ => 5
  | .readRecheck _ => 4
  | .readEnqueue _ => 3
  | .readListen => 2
  | .readUnlock => 1
where
  senderRank : Sender T → ℕ
    | .queueWrite => 0
    | .handleWriteQueue rest => 5 * rest.length + 2

/-- The channel is active, and no call is about to change that. -/
def State.Live (s : State T) : Prop :=
  s.mem.isActive = true ∧ ∀ t, (s.points t).breaks = false

section Steps

variable [DecidableEq T] {listening : Bool} {t : T} {m : Mem T} {p : Point T}

/-- A step on the way to the end of a call, which takes nothing off the wire. -/
structure Finishing (listening : Bool) (t : T) (m : Mem T) (p : Point T) (choice : Choice T)
    (m' : Mem T) (p' : Point T) : Prop where
  act : act listening t m p choice = some (m', p')
  rank : p'.rank < p.rank
  breaks : p'.breaks = false
  isActive : m'.isActive = m.isActive
  queued : m'.queued = m.queued
  writeQueue : p.offered = [] → m'.writeQueue = m.writeQueue ∧ p'.offered = []
  got : got choice = []
  advances : ∀ sent ∈ issued p choice, Advances sent

omit [DecidableEq T] in
theorem Sender.returns_rank (sender : Sender T) :
    sender.returns.rank = Point.rank.senderRank sender := by
  cases sender <;> rfl

omit [DecidableEq T] in
theorem Sender.returns_breaks (sender : Sender T) : sender.returns.breaks = false := by
  cases sender <;> rfl

omit [DecidableEq T] in
theorem Sender.returns_offered (sender : Sender T) : sender.returns.offered = [] := by
  cases sender <;> rfl

omit [DecidableEq T] in
theorem issues_nothing {choice : Choice T} (h : issued p choice = []) :
    ∀ sent ∈ issued p choice, Advances sent := by
  rw [h]
  exact List.forall_mem_nil _

/-- A step that sends and receives nothing. -/
theorem finishing_of_go {m' : Mem T} {p' : Point T}
    (hact : act listening t m p .go = some (m', p')) (hrank : p'.rank < p.rank)
    (hbreaks : p'.breaks = false) (hactive : m'.isActive = m.isActive)
    (hqueued : m'.queued = m.queued)
    (hqueue : p.offered = [] → m'.writeQueue = m.writeQueue ∧ p'.offered = []) :
    Finishing listening t m p .go m' p' := by
  have hissued : issued p .go = [] := by cases p <;> rfl
  exact ⟨hact, hrank, hbreaks, hactive, hqueued, hqueue, rfl, issues_nothing hissued⟩

/-- A thread inside a call can take a step on the way to its end. -/
theorem exists_finishing (listening : Bool) (t : T) (hthread : m.writeThread = none)
    (hactive : m.isActive = true) (hbreaks : p.breaks = false) (hp : p ≠ .idle) :
    ∃ choice m' p', Finishing listening t m p choice m' p' := by
  have hlive : m.active = true := (Bool.and_eq_true_iff.mp hactive).1
  cases p with
  | idle => exact absurd rfl hp
  | queueTest msg =>
      by_cases hempty : m.active = false ∨ msg.isEmpty
      · exact ⟨.go, m, .idle, finishing_of_go (if_pos hempty) Nat.zero_lt_two rfl rfl rfl
          fun _ => ⟨rfl, rfl⟩⟩
      · have hact : act listening t m (.queueTest msg) .go = some (m, .queueEnqueue msg) := by
          rw [act, if_neg hempty, if_neg (by rw [hthread]; exact (Option.some_ne_none t).symm)]
        have hnonempty : msg.isEmpty = false :=
          Bool.eq_false_iff.mpr (fun h => hempty (Or.inr h))
        refine ⟨.go, m, .queueEnqueue msg, finishing_of_go hact Nat.one_lt_two rfl rfl rfl ?_⟩
        simp [Point.offered, hnonempty]
  | queueEnqueue msg =>
      exact ⟨.go, _, _, finishing_of_go rfl Nat.zero_lt_one rfl rfl rfl
        fun h => absurd h (List.cons_ne_nil _ _)⟩
  | writeTest =>
      have hact : act listening t m .writeTest .go = some (m, .writeSize) := by
        rw [act, if_pos hlive]
      exact ⟨.go, _, _, finishing_of_go hact (Nat.lt_succ_self _) rfl rfl rfl
        fun _ => ⟨rfl, rfl⟩⟩
  | writeSize =>
      exact ⟨.sizeApprox false, _, .writeTryLock, rfl, Nat.lt_succ_self _, rfl, rfl, rfl,
        fun _ => ⟨rfl, rfl⟩, rfl, issues_nothing rfl⟩
  | writeTryLock =>
      by_cases hlock : m.writeLock.isNone
      · exact ⟨.go, _, _, finishing_of_go (if_pos hlock) (Nat.lt_succ_self _) rfl rfl rfl
          fun _ => ⟨rfl, rfl⟩⟩
      · exact ⟨.go, _, _, finishing_of_go (if_neg hlock) (Nat.succ_pos _) rfl rfl rfl
          fun _ => ⟨rfl, rfl⟩⟩
  | writeDequeue =>
      have hoffers : ([] : List (T × Message)).length ≤ messageReserve ∧ m.writeQueue.Offers [] :=
        ⟨Nat.zero_le _, List.forall_mem_nil _⟩
      have hact : act listening t m .writeDequeue (.dequeueBulk []) =
          some ({ m with writeQueue := m.writeQueue.dequeue [] }, .writeNext []) := by
        rw [act, if_pos hoffers]
      exact ⟨.dequeueBulk [], _, _, hact, Nat.lt_succ_self _, rfl, rfl, rfl, fun _ => ⟨rfl, rfl⟩,
        rfl, issues_nothing rfl⟩
  | writeNext batch =>
      cases batch with
      | nil =>
          exact ⟨.go, _, _, finishing_of_go rfl (Nat.lt_succ_self _) rfl rfl rfl
            fun _ => ⟨rfl, rfl⟩⟩
      | cons x rest =>
          refine ⟨.go, _, _, finishing_of_go rfl ?_ rfl rfl rfl fun _ => ⟨rfl, rfl⟩⟩
          simp only [Point.rank, Point.rank.senderRank, List.length_cons]
          omega
  | writeUnlock =>
      exact ⟨.go, _, _, finishing_of_go rfl Nat.zero_lt_one rfl rfl rfl fun _ => ⟨rfl, rfl⟩⟩
  | sendTest bytes sender =>
      have hact : act listening t m (.sendTest bytes sender) .go =
          some (m, .sendLoop 0 bytes sender) := by
        rw [act, if_pos hactive]
      refine ⟨.go, _, _, finishing_of_go hact ?_ rfl rfl rfl fun _ => ⟨rfl, rfl⟩⟩
      simp only [Point.rank]
      split_ifs <;> omega
  | sendLoop sentBytes bytes sender =>
      by_cases hmore : toSize sentBytes < bytes.length
      · have hact : act listening t m (.sendLoop sentBytes bytes sender) .go =
            some (m, .sendCall bytes sender) := by
          rw [act, if_pos ⟨hmore, hactive⟩]
        refine ⟨.go, _, _, finishing_of_go hact ?_ rfl rfl rfl fun _ => ⟨rfl, rfl⟩⟩
        simp only [Point.rank, if_pos hmore]
        omega
      · have hact : act listening t m (.sendLoop sentBytes bytes sender) .go =
            some (m, sender.returns) := by
          rw [act, if_neg (fun h => hmore h.1)]
        refine ⟨.go, _, _, finishing_of_go hact ?_ sender.returns_breaks rfl rfl
          fun _ => ⟨rfl, sender.returns_offered⟩⟩
        rw [sender.returns_rank, Point.rank, if_neg hmore]
        omega
  | sendCall bytes sender =>
      -- the kernel takes all, after which the test of the loop fails
      refine ⟨.send (.accepted bytes.length), _, _, if_pos le_rfl, ?_, rfl, rfl, rfl,
        fun _ => ⟨rfl, rfl⟩, rfl, ?_⟩
      · have hdone : ¬ toSize bytes.length <
            (if toSize bytes.length < bytes.length then bytes.drop bytes.length
              else bytes).length := by
          split_ifs with h
          · rw [List.drop_length]
            exact Nat.not_lt_zero _
          · exact h
        rw [Point.rank, if_neg hdone, Point.rank]
        omega
      · intro sent hsent
        obtain rfl := List.mem_singleton.mp hsent
        exact fun h => absurd h (lt_irrefl _)
  | sendFailed sender => cases hbreaks
  | readTest size =>
      have hact : act listening t m (.readTest size) .go = some (m, .readTryLock size) := by
        rw [act, if_pos hlive]
      exact ⟨.go, _, _, finishing_of_go hact (Nat.lt_succ_self _) rfl rfl rfl
        fun _ => ⟨rfl, rfl⟩⟩
  | readTryLock size =>
      by_cases hlock : m.readLock.isNone
      · exact ⟨.go, _, _, finishing_of_go (if_pos hlock) (Nat.lt_succ_self _) rfl rfl rfl
          fun _ => ⟨rfl, rfl⟩⟩
      · exact ⟨.go, _, _, finishing_of_go (if_neg hlock) (Nat.succ_pos _) rfl rfl rfl
          fun _ => ⟨rfl, rfl⟩⟩
  | readRecv size =>
      exact ⟨.recv .wouldBlock, _, _, rfl, Nat.lt_succ_self _, rfl, rfl, rfl, fun _ => ⟨rfl, rfl⟩,
        rfl, issues_nothing rfl⟩
  | readRecheck received =>
      cases received with
      | data bytes =>
          have hact : act listening t m (.readRecheck (.data bytes)) .go =
              some (m, .readEnqueue bytes) := by
            rw [act, if_pos hactive]
          exact ⟨.go, _, _, finishing_of_go hact (Nat.lt_succ_self _) rfl rfl rfl
            fun _ => ⟨rfl, rfl⟩⟩
      | wouldBlock =>
          have hact : act listening t m (.readRecheck .wouldBlock) .go = some (m, .readUnlock) := by
            rw [act, if_pos hactive]
          have hrank : (.readUnlock : Point T).rank <
              (.readRecheck .wouldBlock : Point T).rank := by
            simp [Point.rank]
          exact ⟨.go, _, _, finishing_of_go hact hrank rfl rfl rfl fun _ => ⟨rfl, rfl⟩⟩
      | _ => cases hbreaks
  | readEnqueue bytes =>
      cases listening with
      | true =>
          exact ⟨.go, _, _, finishing_of_go rfl (Nat.lt_succ_self _) rfl rfl rfl
            fun _ => ⟨rfl, rfl⟩⟩
      | false =>
          have hrank : (.readUnlock : Point T).rank < (.readEnqueue bytes : Point T).rank := by
            simp [Point.rank]
          exact ⟨.go, _, _, finishing_of_go rfl hrank rfl rfl rfl fun _ => ⟨rfl, rfl⟩⟩
  | readListen =>
      exact ⟨.go, _, _, finishing_of_go rfl Nat.one_lt_two rfl rfl rfl fun _ => ⟨rfl, rfl⟩⟩
  | readUnlock =>
      exact ⟨.go, _, _, finishing_of_go rfl Nat.zero_lt_one rfl rfl rfl fun _ => ⟨rfl, rfl⟩⟩

end Steps

section Runs

variable [DecidableEq T] {listening : End → Bool} {c c' : Connection T} {d e : End} {t : T}

/-- Both channels are active and stay so unless something else happens. -/
def Connection.Live (c : Connection T) : Prop := ∀ d, (c.ends d).Live

/-- What a thread of an end leaves alone while it gets to the end of its call. -/
structure Only (d : End) (t : T) (c c' : Connection T) : Prop where
  peer : c'.ends d.peer = c.ends d.peer
  others : ∀ u ≠ t, (c'.ends d).points u = (c.ends d).points u
  queued : (c'.ends d).mem.queued = (c.ends d).mem.queued
  writeQueue : ((c.ends d).points t).offered = [] →
    (c'.ends d).mem.writeQueue = (c.ends d).mem.writeQueue ∧ ((c'.ends d).points t).offered = []
  wire : c'.wire d.peer = c.wire d.peer

omit [DecidableEq T] in
theorem Only.refl (d : End) (t : T) (c : Connection T) : Only d t c c :=
  ⟨rfl, fun _ _ => rfl, rfl, fun h => ⟨rfl, h⟩, rfl⟩

omit [DecidableEq T] in
theorem Only.trans {c'' : Connection T} (h : Only d t c c') (h' : Only d t c' c'') :
    Only d t c c'' where
  peer := h'.peer.trans h.peer
  others u hu := (h'.others u hu).trans (h.others u hu)
  queued := h'.queued.trans h.queued
  writeQueue hoffered := by
    obtain ⟨hqueue, hoffered'⟩ := h.writeQueue hoffered
    obtain ⟨hqueue', hoffered''⟩ := h'.writeQueue hoffered'
    exact ⟨hqueue'.trans hqueue, hoffered''⟩
  wire := h'.wire.trans h.wire

/-- What a step of one thread of one end comes to, when both channels stay as active as they are. -/
theorem Connection.thread_step (listening : End → Bool) (choice : Choice T) {m' : Mem T}
    {p' : Point T} (hlive : c.Live)
    (h : act (listening d) t (c.ends d).mem ((c.ends d).points t) choice = some (m', p'))
    (hgot : Channel.got choice <+: c.wire d.peer) (hbreaks : p'.breaks = false)
    (hactive : m'.isActive = (c.ends d).mem.isActive)
    (hadvances : ∀ sent ∈ issued ((c.ends d).points t) choice, Advances sent) :
    ∃ c', (Connection.system T listening).LeadsBy Connection.Advancing c c' ∧ c'.Live ∧
      c'.ends d = ⟨m', Function.update (c.ends d).points t p'⟩ ∧ c'.ends d.peer = c.ends d.peer ∧
      c'.wire d.peer = (c.wire d.peer).drop (Channel.got choice).length := by
  let s' : State T := ⟨m', Function.update (c.ends d).points t p'⟩
  have hnext : c.next listening (d, .thread t choice) =
      some (c.stepped d (.thread t choice) s') := by
    have hprefix : (Label.thread t choice).got <+: c.wire d.peer := hgot
    rw [next, if_pos hprefix, Channel.next, h]
    rfl
  have hend : (c.stepped d (.thread t choice) s').ends d = s' := Function.update_self ..
  have hpeer : (c.stepped d (.thread t choice) s').ends d.peer = c.ends d.peer :=
    Function.update_of_ne d.peer_ne ..
  have hadvancing : c.Advancing (d, .thread t choice) := hadvances
  refine ⟨_, LeadsBy.single hadvancing hnext, ?_, hend, hpeer, if_neg d.peer_ne⟩
  intro f
  rcases f.eq_or_eq_peer d with rfl | rfl
  · rw [hend]
    refine ⟨hactive.trans (hlive f).1, fun u => ?_⟩
    by_cases hu : u = t
    · subst u
      simpa only [s', Function.update_self] using hbreaks
    · simpa only [s', Function.update_of_ne hu] using (hlive f).2 u
  · rw [hpeer]
    exact hlive d.peer

/-- A thread takes a step on the way to the end of its call. -/
theorem finishing_step (hreach : (Connection.system T listening).ReachedBy Connection.Advancing c)
    (hlive : c.Live) (hbusy : (c.ends d).points t ≠ .idle) :
    ∃ c', (Connection.system T listening).LeadsBy Connection.Advancing c c' ∧ c'.Live ∧
      Only d t c c' ∧ ((c'.ends d).points t).rank < ((c.ends d).points t).rank := by
  have hl := locked_of_reachable
    (Connection.ends_reachedBy (fun _ _ => True) hreach d (fun _ _ _ => trivial))
  obtain ⟨choice, m', p', hstep⟩ := exists_finishing (listening d) t
    hl.writeThread (hlive d).1 ((hlive d).2 t) hbusy
  have hgot : Channel.got choice <+: c.wire d.peer := hstep.got ▸ List.nil_prefix
  obtain ⟨c', hleads, hlive', hend, hpeer, hwire⟩ := Connection.thread_step listening choice hlive
    hstep.act hgot hstep.breaks hstep.isActive hstep.advances
  have hself : (c'.ends d).points t = p' := by rw [hend]; exact Function.update_self ..
  refine ⟨c', hleads, hlive', ?_, hself ▸ hstep.rank⟩
  constructor
  case peer => exact hpeer
  case others =>
    intro u hu
    rw [hend]
    exact Function.update_of_ne hu ..
  case queued =>
    rw [hend]
    exact hstep.queued
  case writeQueue =>
    intro hoffered
    obtain ⟨hqueue, hoffered'⟩ := hstep.writeQueue hoffered
    rw [hself, hend]
    exact ⟨hqueue, hoffered'⟩
  case wire => rw [hwire, hstep.got, List.length_nil, List.drop_zero]

/-- A thread gets to the end of its call by itself. -/
theorem finish (hreach : (Connection.system T listening).ReachedBy Connection.Advancing c)
    (hlive : c.Live) (d : End) (t : T) :
    ∃ c', (Connection.system T listening).LeadsBy Connection.Advancing c c' ∧ c'.Live ∧
      Only d t c c' ∧ (c'.ends d).points t = .idle := by
  have hrun : ∃ c', (Connection.system T listening).LeadsBy Connection.Advancing c c' ∧
      ((Connection.system T listening).ReachedBy Connection.Advancing c' ∧ c'.Live ∧
        Only d t c c') ∧ (c'.ends d).points t = .idle := by
    refine exists_leadsBy_of_measure (μ := fun c' => ((c'.ends d).points t).rank) ?_
      ⟨hreach, hlive, Only.refl d t c⟩
    rintro c₁ ⟨hreach₁, hlive₁, honly₁⟩ hbusy
    obtain ⟨c₂, hleads, hlive₂, honly₂, hlt⟩ := finishing_step hreach₁ hlive₁ hbusy
    exact ⟨c₂, hleads, ⟨hreach₁.leadsBy hleads, hlive₂, honly₁.trans honly₂⟩, hlt⟩
  obtain ⟨c', hleads, ⟨-, hlive', honly⟩, hidle⟩ := hrun
  exact ⟨c', hleads, hlive', honly, hidle⟩

/-! ### All calls return, the queue empties, the wire empties -/

/-- All calls at both ends have returned. -/
def Connection.Idle (c : Connection T) : Prop := ∀ d t, (c.ends d).points t = .idle

/-- The calls under way at an end. -/
def State.busy [Fintype T] (s : State T) : ℕ := total (fun p => (!p.outside).toNat) s.points

omit [DecidableEq T] in
theorem Connection.busy_add [Fintype T] (c : Connection T) (d : End) :
    (c.ends .client).busy + (c.ends .server).busy = (c.ends d).busy + (c.ends d.peer).busy := by
  cases d with
  | client => rfl
  | server => exact Nat.add_comm _ _

theorem Only.points (h : Only d t c c') (hidle : (c'.ends d).points t = .idle) :
    (c'.ends d).points = Function.update (c.ends d).points t .idle := by
  funext u
  by_cases hu : u = t
  · subst u
    rw [hidle, Function.update_self]
  · rw [h.others u hu, Function.update_of_ne hu]

omit [DecidableEq T] in
theorem Only.queued_eq (h : Only d t c c') (f : End) :
    (c'.ends f).mem.queued = (c.ends f).mem.queued := by
  rcases f.eq_or_eq_peer d with rfl | rfl
  · exact h.queued
  · rw [h.peer]

/-- All calls return. -/
theorem settle [Fintype T]
    (hreach : (Connection.system T listening).ReachedBy Connection.Advancing c) (hlive : c.Live) :
    ∃ c', (Connection.system T listening).LeadsBy Connection.Advancing c c' ∧ c'.Live ∧ c'.Idle ∧
      ∀ d, (c'.ends d).mem.queued = (c.ends d).mem.queued := by
  have hrun : ∃ c', (Connection.system T listening).LeadsBy Connection.Advancing c c' ∧
      ((Connection.system T listening).ReachedBy Connection.Advancing c' ∧ c'.Live ∧
        ∀ d, (c'.ends d).mem.queued = (c.ends d).mem.queued) ∧ c'.Idle := by
    refine exists_leadsBy_of_measure
      (μ := fun c' => (c'.ends .client).busy + (c'.ends .server).busy) ?_
      ⟨hreach, hlive, fun _ => rfl⟩
    rintro c₁ ⟨hreach₁, hlive₁, hqueued₁⟩ hbusy
    rw [Connection.Idle] at hbusy
    push Not at hbusy
    obtain ⟨d, t, hbusy⟩ := hbusy
    obtain ⟨c₂, hleads, hlive₂, honly, hidle⟩ := finish hreach₁ hlive₁ d t
    refine ⟨c₂, hleads, ⟨hreach₁.leadsBy hleads, hlive₂,
      fun f => (honly.queued_eq f).trans (hqueued₁ f)⟩, ?_⟩
    have hone : (!((c₁.ends d).points t).outside).toNat = 1 := by
      cases hp : (c₁.ends d).points t with
      | idle => exact absurd hp hbusy
      | _ => rfl
    have htotal := total_update (fun p => (!Point.outside p).toNat) (c₁.ends d).points t .idle
    have hless : (c₂.ends d).busy < (c₁.ends d).busy := by
      rw [State.busy, State.busy, honly.points hidle]
      have hzero : (!(Point.idle : Point T).outside).toNat = 0 := rfl
      omega
    rw [c₂.busy_add d, c₁.busy_add d, honly.peer]
    omega
  obtain ⟨c', hleads, ⟨-, hlive', hqueued⟩, hidle⟩ := hrun
  exact ⟨c', hleads, hlive', hidle, hqueued⟩

/-- After a call of one thread of an idle end all is idle again. -/
theorem Only.idle {c₁ c₂ c₃ : Connection T} {m' : Mem T} {p' : Point T} (h : Only d t c₂ c₃)
    (hdone : (c₃.ends d).points t = .idle)
    (hend : c₂.ends d = ⟨m', Function.update (c₁.ends d).points t p'⟩)
    (hpeer : c₂.ends d.peer = c₁.ends d.peer) (hidle : c₁.Idle) : c₃.Idle := by
  intro f u
  rcases f.eq_or_eq_peer d with rfl | rfl
  · by_cases hu : u = t
    · subst u
      exact hdone
    · rw [h.others u hu, hend]
      exact (Function.update_of_ne hu ..).trans (hidle f u)
  · rw [h.peer, hpeer]
    exact hidle d.peer u

section Begin

variable (listening : Bool) {m : Mem T}

end Begin

omit [DecidableEq T] in
theorem Connection.Idle.quiet (hidle : c.Idle) (hlive : c.Live) (d : End) : (c.ends d).Quiet :=
  ⟨(hlive d).1, fun t => by rw [hidle d t]; rfl⟩

end Runs

instance [Fintype T] (s : State T) : Decidable s.Live :=
  inferInstanceAs (Decidable (s.mem.isActive = true ∧ ∀ t, (s.points t).breaks = false))

end SocketLib.Channel
