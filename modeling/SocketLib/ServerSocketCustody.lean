import SocketLib.ServerSocket

/-!
# Who answers for a connection

Every channel of a `ServerSocket` is in the map, or one thread answers for it: the listen thread
from `accept4` to `emplace`, the thread that took it out of the map to the end of its `closeClient`.
The number of the descriptor belongs to the connection until that thread calls `close` on it, so the
kernel cannot hand it out before, and nobody else has it. `Custody` states this, with how far the
thread has got (`Tally`), and is kept by every step (`Moves`), whatever a sweep reads through a
dangling iterator.
-/

namespace SocketLib.ServerSocket

/-- How often a channel was taken out of the map, told of its disconnection, shut down and
closed. -/
structure Tally where
  removals : ℕ
  disconnects : ℕ
  shutdowns : ℕ
  closes : ℕ
  deriving DecidableEq

def Channel.tally (ch : Channel) : Tally :=
  ⟨ch.removals, ch.events.count (.connect false), ch.shutdowns, ch.closes⟩

def Tally.untouched : Tally := ⟨0, 0, 0, 0⟩

/-- After a whole call of `closeClient`. -/
def Tally.closed (registered : Bool) : Tally := ⟨1, if registered then 1 else 0, 1, 1⟩

/-- The channel outside the map that a thread is responsible for. -/
def Point.carries : Point → Option ChannelId
  | .acceptTest (some c) | .connectAcquire c | .connectEmplace c | .closing _ c _ _ => some c
  | _ => none

/-- What the thread responsible for a channel has done to it. -/
def Point.tally (registered : Bool) : Point → Tally
  | .closing .unlock _ _ _ | .closing .invoke _ _ _ => ⟨1, 0, 0, 0⟩
  | .closing .callback _ _ _ | .closing .shutdown _ _ _ => ⟨1, if registered then 1 else 0, 0, 0⟩
  | .closing .close _ _ _ => ⟨1, if registered then 1 else 0, 1, 0⟩
  | .closing .destroy _ _ _ => .closed registered
  | _ => .untouched

def Point.afterClose : Point → Bool
  | .closing .destroy _ _ _ => true
  | _ => false

/-- The number a thread inside `closeClient` works on. -/
def Point.number : Point → Option Fd
  | .closing _ _ fd _ => some fd
  | _ => none

/-- The step has nothing to do with the connection. -/
structure Spares (c : ChannelId) (m m' : Mem) : Prop where
  accepted : c < m.accepted → c < m'.accepted
  descriptor : (m'.channel c).clientDescriptor = (m.channel c).clientDescriptor
  tally : (m'.channel c).tally = (m.channel c).tally
  owner : ∀ fd, m.owner fd = some (.connection c) → m'.owner fd = some (.connection c)

structure SameCustody (m m' : Mem) : Prop where
  clients : m'.clients = m.clients
  spares : ∀ c, Spares c m m'

/-- The steps of a thread, by what they change in the custody of the channels. -/
inductive Moves (registered : Bool) (m : Mem) (p : Point) : Mem → Point → Prop
  | carriesOn {m' : Mem} {p' : Point} (hm : SameCustody m m') (hc : p'.carries = p.carries)
      (ht : p'.tally registered = p.tally registered) (hn : p'.number = p.number)
      (ha : p.afterClose → p'.afterClose) : Moves registered m p m' p'
  | drops {m' : Mem} {p' : Point} (hm : SameCustody m m') (hc : p'.carries = none)
      (ht : p.tally registered = .untouched ∨ p.tally registered = .closed registered) :
      Moves registered m p m' p'
  | accepts (fd : Fd) (hfd : m.owner fd = none) (hp : p.carries = none) :
      Moves registered m p (m.accept fd) (.acceptTest (some m.accepted))
  | registers (c : ChannelId) (clients : List Entry) (p' : Point) (hp : p = .connectEmplace c)
      (hfind : m.find (m.channel c).clientDescriptor = none)
      (hperm : clients.Perm (((m.channel c).clientDescriptor, c) :: m.clients))
      (hc : p'.carries = none) : Moves registered m p { m with clients := clients } p'
  | removes (fd : Fd) (caller : Caller) (e : Entry) (hp : p = .closeFind fd caller)
      (hfind : m.find fd = some e) :
      Moves registered m p (m.erase e) (.closing .unlock e.2 fd caller)
  | invokes (c : ChannelId) (fd : Fd) (caller : Caller) (hp : p = .closing .invoke c fd caller)
      (hr : registered) :
      Moves registered m p (m.start c (.connect false)) (.closing .callback c fd caller)
  | shuts (c : ChannelId) (fd : Fd) (caller : Caller) (hp : p = .closing .shutdown c fd caller) :
      Moves registered m p (m.shutdown fd) (.closing .close c fd caller)
  | closes (c : ChannelId) (fd : Fd) (caller : Caller) (hp : p = .closing .close c fd caller) :
      Moves registered m p (m.close fd) (.closing .destroy c fd caller)

theorem Spares.refl (c : ChannelId) (m : Mem) : Spares c m m := ⟨id, rfl, rfl, fun _ => id⟩

theorem SameCustody.refl (m : Mem) : SameCustody m m := ⟨rfl, fun c => .refl c m⟩

theorem spares_modify (m : Mem) {c d : ChannelId} (f : Channel → Channel) (h : d ≠ c) :
    Spares d m (m.modify c f) := by
  refine ⟨id, ?_, ?_, fun _ => id⟩ <;> simp only [Mem.modify, Function.update_of_ne h]

theorem sameCustody_modify (m : Mem) (c : ChannelId) (f : Channel → Channel)
    (hd : (f (m.channel c)).clientDescriptor = (m.channel c).clientDescriptor)
    (ht : (f (m.channel c)).tally = (m.channel c).tally) : SameCustody m (m.modify c f) := by
  refine ⟨rfl, fun d => ?_⟩
  by_cases h : d = c
  · subst d
    refine ⟨id, ?_, ?_, fun _ => id⟩ <;> simpa only [Mem.modify, Function.update_self]
  · exact spares_modify m f h

theorem sameCustody_queueShutdown (m : Mem) (c : ChannelId) :
    SameCustody m (m.queueShutdown c) := sameCustody_modify m c _ rfl rfl

theorem sameCustody_start (m : Mem) (c : ChannelId) {event : Event}
    (h : event ≠ .connect false) : SameCustody m (m.start c event) := by
  apply sameCustody_modify
  · rfl
  · have hcount : [event].count (.connect false) = 0 :=
      List.count_eq_zero.mpr (by simpa using h.symm)
    simp [Channel.tally, hcount]

theorem sameCustody_destroyMembers (m : Mem) : SameCustody m m.destroyMembers := by
  refine ⟨rfl, fun c => ⟨id, ?_, ?_, fun _ => id⟩⟩
  all_goals
    simp only [Mem.destroyMembers]
    split <;> rfl

/-- Each step of a thread leaves the custody of the channels as it is, or is one of those that
change it. -/
theorem act_moves {registered : Bool} {m m' : Mem} {p p' : Point} {ch : Choice} :
    act registered m p ch = some (m', p') → Moves registered m p m' p' := by
  fun_cases act registered m p ch
  all_goals
    simp only [Option.some.injEq, Prod.mk.injEq, reduceCtorEq, false_implies, and_imp]
    try rintro rfl rfl
  case case18 =>
    by_cases hactive : m.active
    · rw [if_pos hactive]
      exact .carriesOn (.refl m) rfl rfl rfl (fun h => nomatch h)
    · rw [if_neg hactive]
      exact .drops (.refl m) rfl (Or.inl rfl)
  -- the steps of a thread that is responsible for no channel
  all_goals try exact .drops (.refl _) (by first | rfl | split <;> rfl) (Or.inl rfl)
  · exact .drops ⟨rfl, fun _ => ⟨id, rfl, rfl, fun _ => id⟩⟩ rfl (Or.inl rfl)
  · exact .accepts _ ‹_› rfl
  · exact .carriesOn (.refl m) rfl rfl rfl (fun h => nomatch h)
  · exact .drops (sameCustody_modify m _ _ rfl rfl) rfl (Or.inl rfl)
  · exact .registers _ _ _ rfl ‹_› ‹_› rfl
  · exact .drops (sameCustody_modify m _ _ rfl rfl) rfl (Or.inl rfl)
  · exact .removes _ _ _ rfl ‹_›
  · exact .carriesOn (.refl m) rfl rfl rfl (fun h => nomatch h)
  · exact .invokes _ _ _ rfl ‹_›
  · rename_i hnot
    exact .carriesOn (.refl m) rfl (by simp [Point.tally, hnot]) rfl (fun h => nomatch h)
  · exact .carriesOn (.refl m) rfl rfl rfl (fun h => nomatch h)
  · exact .shuts _ _ _ rfl
  · exact .closes _ _ _ rfl
  · rename_i caller _
    exact .drops (sameCustody_modify m _ _ rfl rfl) (by cases caller <;> rfl) (Or.inr rfl)
  · exact .drops ⟨rfl, fun _ => ⟨id, rfl, rfl, fun _ => id⟩⟩ rfl (Or.inl rfl)
  · exact .drops (sameCustody_destroyMembers m) rfl (Or.inl rfl)
  · exact .drops (sameCustody_modify m _ _ rfl rfl) rfl (Or.inl rfl)
  · exact .drops (sameCustody_modify m _ _ rfl rfl) rfl (Or.inl rfl)
  · exact .drops (sameCustody_start m _ (by simp)) rfl (Or.inl rfl)
  · exact .drops (sameCustody_modify m _ _ rfl rfl) rfl (Or.inl rfl)
  · rename_i failed
    cases failed
    · exact .drops (.refl m) rfl (Or.inl rfl)
    · exact .drops (sameCustody_queueShutdown m _) rfl (Or.inl rfl)

/-! ### The invariant -/

/-- What holds of a registered channel. -/
structure Listed (m : Mem) (e : Entry) : Prop where
  accepted : e.2 < m.accepted
  descriptor : (m.channel e.2).clientDescriptor = e.1
  tally : (m.channel e.2).tally = .untouched
  owner : m.owner e.1 = some (.connection e.2)

/-- What holds of a channel that a thread at this point is responsible for. -/
structure Answers (registered : Bool) (m : Mem) (p : Point) (c : ChannelId) : Prop where
  accepted : c < m.accepted
  tally : (m.channel c).tally = p.tally registered
  number : ∀ fd, p.number = some fd → (m.channel c).clientDescriptor = fd
  owner : p.afterClose = false → m.owner (m.channel c).clientDescriptor = some (.connection c)

/-- Nothing or everything has been done to the channel. -/
def Settled (registered : Bool) (m : Mem) (c : ChannelId) : Prop :=
  (m.channel c).tally = .untouched ∨ (m.channel c).tally = .closed registered

/-- Every channel is in the map, or one thread is responsible for it, or nobody has anything to do
with it any more. -/
structure Custody {T : Type*} (registered : Bool) (m : Mem) (points : T → Point) : Prop where
  keys : (m.clients.map Prod.fst).Nodup
  listed : ∀ e ∈ m.clients, Listed m e
  answers : ∀ t c, (points t).carries = some c → Answers registered m (points t) c
  apart : ∀ t c, (points t).carries = some c → ∀ e ∈ m.clients, e.2 ≠ c
  unique : ∀ t u c, (points t).carries = some c → (points u).carries = some c → t = u
  settled : ∀ c, (∀ e ∈ m.clients, e.2 ≠ c) → (∀ t, (points t).carries ≠ some c) →
    Settled registered m c

section Preservation

variable {registered : Bool} {m m' : Mem}

theorem Listed.spares {e : Entry} (h : Listed m e) (hs : Spares e.2 m m') : Listed m' e :=
  ⟨hs.accepted h.accepted, hs.descriptor.trans h.descriptor, hs.tally.trans h.tally,
    hs.owner _ h.owner⟩

theorem Answers.spares {p : Point} {c : ChannelId} (h : Answers registered m p c)
    (hs : Spares c m m') : Answers registered m' p c := by
  refine ⟨hs.accepted h.accepted, hs.tally.trans h.tally, ?_, ?_⟩
  · intro fd hfd
    exact hs.descriptor.trans (h.number fd hfd)
  · intro hclose
    rw [hs.descriptor]
    exact hs.owner _ (h.owner hclose)

variable {T : Type*} {points : T → Point}

/-- The map has one entry for a channel. -/
theorem Custody.entry_unique (h : Custody registered m points) {e e' : Entry} (he : e ∈ m.clients)
    (he' : e' ∈ m.clients) (hid : e'.2 = e.2) : e' = e := by
  refine Prod.ext ?_ hid
  rw [← (h.listed e he).descriptor, ← (h.listed e' he').descriptor, hid]

theorem Custody.nodup (h : Custody registered m points) : m.clients.Nodup := h.keys.of_map _

theorem Custody.same (h : Custody registered m points) (hs : SameCustody m m') :
    Custody registered m' points := by
  refine ⟨?_, ?_, ?_, ?_, h.unique, ?_⟩
  · rw [hs.clients]
    exact h.keys
  · intro e he
    rw [hs.clients] at he
    exact (h.listed e he).spares (hs.spares _)
  · exact fun t c hc => (h.answers t c hc).spares (hs.spares c)
  · rw [hs.clients]
    exact h.apart
  · intro c hlist hcarry
    rw [hs.clients] at hlist
    simpa only [Settled, (hs.spares c).tally] using h.settled c hlist hcarry

variable [DecidableEq T]

/-- A step of one thread that spares every connection but one, for which that thread answers before
and after or which goes into or out of the map. -/
theorem Custody.update {t : T} {p' : Point} {c : ChannelId} (h : Custody registered m points)
    (hm : ∀ d, d ≠ c → Spares d m m')
    (hp : ∀ d, (points t).carries = some d → d = c)
    (hothers : ∀ u, u ≠ t → (points u).carries ≠ some c)
    (hp' : ∀ d, p'.carries = some d →
      d = c ∧ Answers registered m' p' c ∧ ∀ e ∈ m'.clients, e.2 ≠ c)
    (hkeys : (m'.clients.map Prod.fst).Nodup)
    (hfrom : ∀ e ∈ m'.clients, (e ∈ m.clients ∧ e.2 ≠ c) ∨ (e.2 = c ∧ Listed m' e))
    (hto : ∀ e ∈ m.clients, e.2 ≠ c → e ∈ m'.clients)
    (hsettled : (∀ e ∈ m'.clients, e.2 ≠ c) → p'.carries ≠ some c → Settled registered m' c) :
    Custody registered m' (Function.update points t p') := by
  have hold : ∀ u d, u ≠ t → (Function.update points t p' u).carries = some d →
      (points u).carries = some d ∧ d ≠ c := by
    intro u d hu hd
    rw [Function.update_of_ne hu] at hd
    refine ⟨hd, ?_⟩
    rintro rfl
    exact hothers u hu hd
  have hnew : ∀ d, (Function.update points t p' t).carries = some d →
      d = c ∧ Answers registered m' p' c ∧ ∀ e ∈ m'.clients, e.2 ≠ c := by
    intro d hd
    rw [Function.update_self] at hd
    exact hp' d hd
  refine ⟨hkeys, ?_, ?_, ?_, ?_, ?_⟩
  · intro e he
    rcases hfrom e he with ⟨hold, hne⟩ | ⟨-, hl⟩
    · exact (h.listed e hold).spares (hm _ hne)
    · exact hl
  · intro u d hd
    by_cases hu : u = t
    · subst u
      obtain ⟨rfl, ha, -⟩ := hnew d hd
      rwa [Function.update_self]
    · obtain ⟨hud, hne⟩ := hold u d hu hd
      rw [Function.update_of_ne hu]
      exact (h.answers u d hud).spares (hm d hne)
  · intro u d hd e he
    by_cases hu : u = t
    · subst u
      obtain ⟨rfl, -, hap⟩ := hnew d hd
      exact hap e he
    · obtain ⟨hud, hne⟩ := hold u d hu hd
      rcases hfrom e he with ⟨hold, -⟩ | ⟨heq, -⟩
      · exact h.apart u d hud e hold
      · rw [heq]
        exact hne.symm
  · intro u v d hu hv
    by_cases hut : u = t
    · subst u
      by_cases hvt : v = t
      · exact hvt.symm
      · obtain ⟨rfl, -⟩ := hnew d hu
        exact absurd rfl (hold v d hvt hv).2
    · by_cases hvt : v = t
      · subst v
        obtain ⟨rfl, -⟩ := hnew d hv
        exact absurd rfl (hold u d hut hu).2
      · exact h.unique u v d (hold u d hut hu).1 (hold v d hvt hv).1
  · intro d hlist hcarry
    by_cases hd : d = c
    · subst d
      apply hsettled hlist
      simpa only [Function.update_self] using hcarry t
    · have hsettled' : Settled registered m d := by
        apply h.settled d
        · intro e he hed
          exact hlist e (hto e he (by rwa [hed])) hed
        · intro u hu
          by_cases hut : u = t
          · subst u
            exact hd (hp d hu)
          · exact hcarry u (by rwa [Function.update_of_ne hut])
      simpa only [Settled, (hm d hd).tally] using hsettled'

/-- The thread answers for the channel before and after. -/
theorem Custody.stays {t : T} {p' : Point} {c : ChannelId} (h : Custody registered m points)
    (hm : ∀ d, d ≠ c → Spares d m m') (hclients : m'.clients = m.clients)
    (hp : (points t).carries = some c) (hp' : p'.carries = some c)
    (ha : Answers registered m' p' c) : Custody registered m' (Function.update points t p') := by
  apply h.update hm
  · intro d hd
    exact Option.some.inj (hd.symm.trans hp)
  · intro u hu hc
    exact hu (h.unique u t c hc hp)
  · intro d hd
    rw [hclients]
    exact ⟨Option.some.inj (hd.symm.trans hp'), ha, h.apart t c hp⟩
  · rw [hclients]
    exact h.keys
  · intro e he
    rw [hclients] at he
    exact Or.inl ⟨he, h.apart t c hp e he⟩
  · intro e he _
    rwa [hclients]
  · intro _ hnot
    exact absurd hp' hnot

/-- The thread answers for no channel afterwards. -/
theorem Custody.leaves {t : T} {p' : Point} (h : Custody registered m points)
    (hs : SameCustody m m') (hp' : p'.carries = none)
    (hsettled : ∀ c, (points t).carries = some c → Settled registered m c) :
    Custody registered m' (Function.update points t p') := by
  have hbelow : ∀ e ∈ m.clients, e.2 ≠ m.accepted := fun e he => (h.listed e he).accepted.ne
  have hfresh : ∀ u, (points u).carries ≠ some m.accepted :=
    fun u hu => (h.answers u _ hu).accepted.ne rfl
  cases hp : (points t).carries with
  | none =>
      apply h.update (c := m.accepted) (fun d _ => hs.spares d)
      · intro d hd
        rw [hp] at hd
        cases hd
      · exact fun u _ => hfresh u
      · intro d hd
        rw [hp'] at hd
        cases hd
      · rw [hs.clients]
        exact h.keys
      · intro e he
        rw [hs.clients] at he
        exact Or.inl ⟨he, hbelow e he⟩
      · intro e he _
        rwa [hs.clients]
      · intro _ _
        simpa only [Settled, (hs.spares _).tally] using h.settled _ hbelow hfresh
  | some c =>
      apply h.update (c := c) (fun d _ => hs.spares d)
      · intro d hd
        exact Option.some.inj (hd.symm.trans hp)
      · intro u hu hc
        exact hu (h.unique u t c hc hp)
      · intro d hd
        rw [hp'] at hd
        cases hd
      · rw [hs.clients]
        exact h.keys
      · intro e he
        rw [hs.clients] at he
        exact Or.inl ⟨he, h.apart t c hp e he⟩
      · intro e he _
        rwa [hs.clients]
      · intro _ _
        simpa only [Settled, (hs.spares _).tally] using hsettled c hp

theorem spares_accept {fd : Fd} (hfd : m.owner fd = none) {d : ChannelId} (hd : d ≠ m.accepted) :
    Spares d m (m.accept fd) := by
  refine ⟨fun h => Nat.lt_succ_of_lt h, ?_, ?_, ?_⟩
  · simp only [Mem.accept, Function.update_of_ne hd]
  · simp only [Mem.accept, Function.update_of_ne hd]
  · intro fd' hfd'
    have hne : fd' ≠ fd := by
      rintro rfl
      rw [hfd] at hfd'
      cases hfd'
    simpa only [Mem.accept, Function.update_of_ne hne] using hfd'

theorem shutdown_eq {fd : Fd} {c : ChannelId} (h : m.owner fd = some (.connection c)) :
    m.shutdown fd = m.modify c fun ch => { ch with shutdowns := ch.shutdowns + 1 } := by
  simp only [Mem.shutdown, h]

theorem close_eq {fd : Fd} {c : ChannelId} (h : m.owner fd = some (.connection c)) :
    m.close fd = { m with owner := Function.update m.owner fd none }.modify c
      fun ch => { ch with closes := ch.closes + 1 } := by
  simp only [Mem.close, h]

theorem shutdown_clients (m : Mem) (fd : Fd) : (m.shutdown fd).clients = m.clients := by
  unfold Mem.shutdown
  split <;> rfl

theorem close_clients (m : Mem) (fd : Fd) : (m.close fd).clients = m.clients := by
  unfold Mem.close
  split <;> rfl

theorem spares_close {fd : Fd} {c d : ChannelId} (h : m.owner fd = some (.connection c))
    (hd : d ≠ c) : Spares d m (m.close fd) := by
  rw [close_eq h]
  have hmodify := spares_modify { m with owner := Function.update m.owner fd none }
    (fun ch => { ch with closes := ch.closes + 1 }) hd
  refine ⟨hmodify.accepted, hmodify.descriptor, hmodify.tally, ?_⟩
  intro fd' hfd'
  have hne : fd' ≠ fd := by
    rintro rfl
    rw [h] at hfd'
    exact hd (Holder.connection.inj (Option.some.inj hfd')).symm
  simpa only [Mem.modify, Function.update_of_ne hne] using hfd'

theorem find_some {fd : Fd} {e : Entry} (h : m.find fd = some e) : e ∈ m.clients ∧ e.1 = fd := by
  exact ⟨List.mem_of_find?_eq_some h, by simpa using List.find?_some h⟩

theorem find_none {fd : Fd} (h : m.find fd = none) : fd ∉ m.clients.map Prod.fst := by
  intro hmem
  obtain ⟨e, he, rfl⟩ := List.mem_map.mp hmem
  have hne := List.find?_eq_none.mp h e he
  simp at hne

theorem Custody.removes {t : T} {fd : Fd} {caller : Caller} {e : Entry}
    (h : Custody registered m points) (hp : points t = .closeFind fd caller)
    (hfind : m.find fd = some e) :
    Custody registered (m.erase e)
      (Function.update points t (.closing .unlock e.2 fd caller)) := by
  obtain ⟨he, rfl⟩ := find_some hfind
  have hl := h.listed e he
  have hclients : (m.erase e).clients = m.clients.erase e := rfl
  have hne : ∀ e' ∈ m.clients.erase e, e'.2 ≠ e.2 := by
    intro e' he' hid
    obtain rfl := h.entry_unique he (List.mem_of_mem_erase he') hid
    exact h.nodup.not_mem_erase he'
  apply h.update (c := e.2)
  · intro d hd
    have hs := spares_modify { m with clients := m.clients.erase e }
      (fun ch => { ch with removals := ch.removals + 1 }) hd
    exact ⟨hs.accepted, hs.descriptor, hs.tally, hs.owner⟩
  · intro d hd
    rw [hp] at hd
    cases hd
  · intro u _ hc
    exact h.apart u _ hc e he rfl
  · intro d hd
    refine ⟨(Option.some.inj hd).symm, ⟨hl.accepted, ?_, ?_, ?_⟩, hne⟩
    · have htally := hl.tally
      simp only [Channel.tally, Tally.untouched, Tally.mk.injEq] at htally
      simp [Mem.erase, Mem.modify, Channel.tally, Point.tally, htally]
    · intro fd hfd
      obtain rfl := Option.some.inj hfd
      simpa [Mem.erase, Mem.modify] using hl.descriptor
    · intro _
      simpa [Mem.erase, Mem.modify, hl.descriptor] using hl.owner
  · exact h.keys.sublist ((List.erase_sublist).map _)
  · intro e' he'
    exact Or.inl ⟨List.mem_of_mem_erase he', hne e' he'⟩
  · intro e' he' hid
    exact (List.mem_erase_of_ne (fun heq => hid (by rw [heq]))).mpr he'
  · intro _ hnot
    exact absurd rfl hnot

theorem Custody.registers {t : T} {p' : Point} {c : ChannelId} {clients : List Entry}
    (h : Custody registered m points) (hp : points t = .connectEmplace c)
    (hfind : m.find (m.channel c).clientDescriptor = none)
    (hperm : clients.Perm (((m.channel c).clientDescriptor, c) :: m.clients))
    (hp' : p'.carries = none) :
    Custody registered { m with clients := clients } (Function.update points t p') := by
  have hcarry : (points t).carries = some c := by rw [hp]; rfl
  have ha := h.answers t c hcarry
  apply h.update (c := c)
  · exact fun d _ => ⟨id, rfl, rfl, fun _ => id⟩
  · intro d hd
    exact Option.some.inj (hd.symm.trans hcarry)
  · intro u hu hc
    exact hu (h.unique u t c hc hcarry)
  · intro d hd
    rw [hp'] at hd
    cases hd
  · rw [(hperm.map Prod.fst).nodup_iff]
    exact List.nodup_cons.mpr ⟨find_none hfind, h.keys⟩
  · intro e he
    rcases List.mem_cons.mp (hperm.mem_iff.mp he) with rfl | hold
    · refine Or.inr ⟨rfl, ha.accepted, rfl, ?_, ha.owner (by rw [hp]; rfl)⟩
      rw [ha.tally, hp]
      rfl
    · exact Or.inl ⟨hold, h.apart t c hcarry e hold⟩
  · intro e he _
    exact hperm.mem_iff.mpr (List.mem_cons_of_mem _ he)
  · intro hnot _
    exact absurd rfl (hnot _ (hperm.mem_iff.mpr List.mem_cons_self))

theorem Custody.accepts {t : T} {fd : Fd} (h : Custody registered m points)
    (hp : (points t).carries = none) (hfd : m.owner fd = none) :
    Custody registered (m.accept fd)
      (Function.update points t (.acceptTest (some m.accepted))) := by
  have hbelow : ∀ e ∈ m.clients, e.2 ≠ m.accepted := fun e he => (h.listed e he).accepted.ne
  apply h.update (c := m.accepted)
  · exact fun d hd => spares_accept hfd hd
  · intro d hd
    rw [hp] at hd
    cases hd
  · exact fun u _ hu => (h.answers u _ hu).accepted.ne rfl
  · intro d hd
    refine ⟨(Option.some.inj hd).symm, ⟨Nat.lt_succ_self _, ?_, ?_, ?_⟩, hbelow⟩
    · simp [Mem.accept, Channel.tally, Channel.initial, Point.tally, Tally.untouched]
    · exact fun fd hnumber => nomatch hnumber
    · intro _
      simp [Mem.accept, Channel.initial]
  · exact h.keys
  · exact fun e he => Or.inl ⟨he, hbelow e he⟩
  · exact fun e he _ => he
  · intro _ hnot
    exact absurd rfl hnot

theorem Custody.moves {t : T} {p' : Point} (h : Custody registered m points)
    (hm : Moves registered m (points t) m' p') :
    Custody registered m' (Function.update points t p') := by
  cases hm with
  | carriesOn hs hc ht hn ha =>
      cases hp : (points t).carries with
      | none =>
          apply h.leaves hs (hc.trans hp)
          intro c hcarry
          rw [hp] at hcarry
          cases hcarry
      | some c =>
          apply h.stays (fun d _ => hs.spares d) hs.clients hp (hc.trans hp)
          have hanswers := (h.answers t c hp).spares (hs.spares c)
          refine ⟨hanswers.accepted, hanswers.tally.trans ht.symm, ?_, ?_⟩
          · intro fd hfd
            exact hanswers.number fd (hn.symm.trans hfd)
          · intro hclose
            apply hanswers.owner
            by_contra hafter
            rw [ha (by simpa using hafter)] at hclose
            cases hclose
  | drops hs hc ht =>
      apply h.leaves hs hc
      intro c hcarry
      rw [Settled, (h.answers t c hcarry).tally]
      exact ht
  | accepts fd hfd hp => exact h.accepts hp hfd
  | registers c clients p' hp hfind hperm hc => exact h.registers hp hfind hperm hc
  | removes fd caller e hp hfind => exact h.removes hp hfind
  | invokes c fd caller hp hr =>
      have hcarry : (points t).carries = some c := by rw [hp]; rfl
      have ha := h.answers t c hcarry
      rw [hp] at ha
      apply h.stays (fun d hd => spares_modify m _ hd) rfl hcarry rfl
      refine ⟨ha.accepted, ?_, ?_, ?_⟩
      · have htally := ha.tally
        simp only [Channel.tally, Point.tally, Tally.mk.injEq] at htally
        simp [Mem.modify, Channel.tally, Point.tally, htally, hr]
      · intro fd' hfd
        simpa [Mem.start, Mem.modify] using ha.number fd' hfd
      · intro _
        simpa [Mem.start, Mem.modify] using ha.owner rfl
  | shuts c fd caller hp =>
      have hcarry : (points t).carries = some c := by rw [hp]; rfl
      have ha := h.answers t c hcarry
      rw [hp] at ha
      have howner := ha.owner rfl
      rw [ha.number fd rfl] at howner
      rw [shutdown_eq howner]
      apply h.stays (fun d hd => spares_modify m _ hd) rfl hcarry rfl
      refine ⟨ha.accepted, ?_, ?_, ?_⟩
      · have htally := ha.tally
        simp only [Channel.tally, Point.tally, Tally.mk.injEq] at htally
        simp [Mem.modify, Channel.tally, Point.tally, htally]
      · intro fd' hfd
        simpa [Mem.modify] using ha.number fd' hfd
      · intro _
        simpa [Mem.modify] using ha.owner rfl
  | closes c fd caller hp =>
      have hcarry : (points t).carries = some c := by rw [hp]; rfl
      have ha := h.answers t c hcarry
      rw [hp] at ha
      have howner := ha.owner rfl
      rw [ha.number fd rfl] at howner
      apply h.stays (fun d hd => spares_close howner hd) (close_clients m fd) hcarry rfl
      rw [close_eq howner]
      refine ⟨ha.accepted, ?_, ?_, ?_⟩
      · have htally := ha.tally
        simp only [Channel.tally, Point.tally, Tally.mk.injEq] at htally
        simp [Mem.modify, Channel.tally, Point.tally, Tally.closed, htally]
      · intro fd' hfd
        simpa [Mem.modify] using ha.number fd' hfd
      · exact fun hclose => nomatch hclose

end Preservation

section Runs

variable {registered : Bool} {T : Type*}

theorem custody_initial (role : T → Role) :
    Custody registered Mem.initial (fun t => (role t).point) := by
  have hcarry : ∀ t, ((role t).point).carries = none := fun t => by cases role t <;> rfl
  refine ⟨List.nodup_nil, fun e he => (nomatch he), ?_, ?_, ?_, fun _ _ _ => Or.inl rfl⟩
  · intro t c hc
    rw [hcarry t] at hc
    cases hc
  · intro t c hc
    rw [hcarry t] at hc
    cases hc
  · intro t u c hc
    rw [hcarry t] at hc
    cases hc

theorem sameCustody_outside {m m' : Mem} (h : Outside m m') : SameCustody m m' := by
  cases h with
  | connectStart c h =>
      have hstart : SameCustody m (m.start c (.connect true)) := sameCustody_start m c (by simp)
      have hset : SameCustody _ ((m.start c (.connect true)).setConnectThread c .running) :=
        sameCustody_modify _ c _ rfl rfl
      refine ⟨rfl, fun d => ⟨id, ?_, ?_, fun _ => id⟩⟩
      · exact (hset.spares d).descriptor.trans (hstart.spares d).descriptor
      · exact (hset.spares d).tally.trans (hstart.spares d).tally
  | connectReturn c h => exact sameCustody_modify m c _ rfl rfl
  | notifyStop => exact ⟨rfl, fun _ => ⟨id, rfl, rfl, fun _ => id⟩⟩
  | foreignOpen fd h =>
      refine ⟨rfl, fun d => ⟨id, rfl, rfl, fun fd' hfd' => ?_⟩⟩
      have hne : fd' ≠ fd := by
        rintro rfl
        rw [h] at hfd'
        cases hfd'
      simpa only [Function.update_of_ne hne] using hfd'
  | foreignClose fd h =>
      refine ⟨rfl, fun d => ⟨id, rfl, rfl, fun fd' hfd' => ?_⟩⟩
      have hne : fd' ≠ fd := by
        rintro rfl
        rw [h] at hfd'
        cases hfd'
      simpa only [Function.update_of_ne hne] using hfd'

variable [DecidableEq T] [Fintype T] {role : T → Role} {s s' : State T}

theorem Custody.next {a : Label T} (h : Custody registered s.mem s.points)
    (hs : next registered s a = some s') : Custody registered s'.mem s'.points := by
  rcases next_cases hs with ⟨t, choice, m', p', -, -, hact, rfl⟩ | ⟨-, hout, hpoints⟩
  · exact h.moves (act_moves hact)
  · rw [hpoints]
    exact h.same (sameCustody_outside hout)

theorem custody_of_reachable (h : (system role registered).Reachable s) :
    Custody registered s.mem s.points :=
  h.invariant (I := fun s => Custody registered s.mem s.points) (custody_initial role)
    (fun _ _ _ _ hI _ hs => hI.next hs)

end Runs

/-! ### The discipline of the descriptors -/

/-- In this state `emplace` meets no existing key, `shutdown` and `close` are about to be applied to
a number of the closed connection only, no channel was taken out of the map twice, nothing was done
to a channel that is still in it, and a channel taken out is in the hands of one call of
`closeClient` or has been told, shut down and closed once. -/
structure DescriptorDiscipline {T : Type*} (registered : Bool) (s : State T) : Prop where
  emplace : ∀ t c, s.points t = .connectEmplace c →
    s.mem.find (s.mem.channel c).clientDescriptor = none
  ownNumber : ∀ t c fd caller, s.points t = .closing .shutdown c fd caller ∨
    s.points t = .closing .close c fd caller → s.mem.owner fd = some (.connection c)
  registeredUntouched : ∀ e ∈ s.mem.clients, (s.mem.channel e.2).tally = .untouched
  removedOnce : ∀ c, (s.mem.channel c).tally = .untouched ∨
    (s.mem.channel c).tally = .closed registered ∨
    ∃ t phase fd caller, s.points t = .closing phase c fd caller ∧
      (s.mem.channel c).tally = (s.points t).tally registered ∧
      ∀ u phase' fd' caller', s.points u = .closing phase' c fd' caller' → u = t

section Discipline

variable {registered : Bool} {m m' : Mem}

theorem removals_modify (m : Mem) (c d : ChannelId) (f : Channel → Channel)
    (h : (m.channel c).removals ≤ (f (m.channel c)).removals) :
    (m.channel d).removals ≤ ((m.modify c f).channel d).removals := by
  by_cases hd : d = c
  · subst d
    simpa [Mem.modify] using h
  · simp [Mem.modify, Function.update_of_ne hd]

/-- A removal is never undone. -/
theorem Moves.removals_le {p p' : Point} (h : Moves registered m p m' p') {c : ChannelId}
    (hc : c < m.accepted) :
    c < m'.accepted ∧ (m.channel c).removals ≤ (m'.channel c).removals := by
  have hsame : ∀ m'', SameCustody m m'' →
      c < m''.accepted ∧ (m.channel c).removals ≤ (m''.channel c).removals := by
    intro m'' hs
    exact ⟨(hs.spares c).accepted hc, (congrArg Tally.removals (hs.spares c).tally).ge⟩
  cases h with
  | carriesOn hs => exact hsame _ hs
  | drops hs => exact hsame _ hs
  | accepts fd hfd =>
      have hs := spares_accept hfd hc.ne
      exact ⟨hs.accepted hc, (congrArg Tally.removals hs.tally).ge⟩
  | registers => exact ⟨hc, le_rfl⟩
  | removes fd caller e =>
      exact ⟨hc, removals_modify { m with clients := m.clients.erase e } e.2 c _ (Nat.le_succ _)⟩
  | invokes d => exact ⟨hc, removals_modify m d c _ le_rfl⟩
  | shuts d fd =>
      unfold Mem.shutdown
      split
      · exact ⟨hc, removals_modify m _ c _ le_rfl⟩
      · exact ⟨hc, le_rfl⟩
  | closes d fd =>
      unfold Mem.close
      split
      · exact ⟨hc, removals_modify { m with owner := Function.update m.owner fd none } _ c _ le_rfl⟩
      · exact ⟨hc, le_rfl⟩

/-- An entry leaves the map only when `closeClient` removes its channel. -/
theorem Moves.entry {p p' : Point} (h : Moves registered m p m' p') {e : Entry}
    (he : e ∈ m.clients) : e ∈ m'.clients ∨ 0 < (m'.channel e.2).removals := by
  cases h with
  | carriesOn hs => exact Or.inl (hs.clients ▸ he)
  | drops hs => exact Or.inl (hs.clients ▸ he)
  | accepts => exact Or.inl he
  | registers c clients p' hp hfind hperm =>
      exact Or.inl (hperm.mem_iff.mpr (List.mem_cons_of_mem _ he))
  | removes fd caller e' =>
      by_cases heq : e = e'
      · subst e'
        right
        simp [Mem.erase, Mem.modify]
      · exact Or.inl ((List.mem_erase_of_ne heq).mpr he)
  | invokes => exact Or.inl he
  | shuts => exact Or.inl (by rwa [shutdown_clients])
  | closes => exact Or.inl (by rwa [close_clients])

end Discipline

section Runs

variable {registered : Bool} {T : Type*}

theorem descriptorDiscipline_of_custody {s : State T}
    (h : Custody registered s.mem s.points) : DescriptorDiscipline registered s := by
  refine ⟨?_, ?_, ?_, ?_⟩
  · intro t c hp
    have ha := h.answers t c (by rw [hp]; rfl)
    rw [hp] at ha
    cases hfind : s.mem.find (s.mem.channel c).clientDescriptor with
    | none => rfl
    | some e =>
        -- the entry would be of the connection that owns the number, which is not in the map yet
        obtain ⟨he, hkey⟩ := find_some hfind
        have howner := (h.listed e he).owner
        rw [hkey, ha.owner rfl] at howner
        exact absurd (Holder.connection.inj (Option.some.inj howner)).symm
          (h.apart t c (by rw [hp]; rfl) e he)
  · intro t c fd caller hp
    have hcarry : (s.points t).carries = some c := by rcases hp with hp | hp <;> rw [hp] <;> rfl
    have ha := h.answers t c hcarry
    rw [← ha.number fd (by rcases hp with hp | hp <;> rw [hp] <;> rfl)]
    exact ha.owner (by rcases hp with hp | hp <;> rw [hp] <;> rfl)
  · exact fun e he => (h.listed e he).tally
  · intro c
    by_cases hlist : ∃ e ∈ s.mem.clients, e.2 = c
    · obtain ⟨e, he, rfl⟩ := hlist
      exact Or.inl (h.listed e he).tally
    · by_cases hcarry : ∃ t, (s.points t).carries = some c
      · obtain ⟨t, ht⟩ := hcarry
        have ha := h.answers t c ht
        cases hp : s.points t with
        | closing phase d fd caller =>
            rw [hp] at ht
            obtain rfl : d = c := Option.some.inj ht
            refine Or.inr (Or.inr ⟨t, phase, fd, caller, hp, ?_, ?_⟩)
            · exact ha.tally
            · intro u phase' fd' caller' hu
              exact h.unique u t d (by rw [hu]; rfl) (by rw [hp]; rfl)
        | _ =>
            left
            rw [ha.tally, hp]
            rfl
      · push Not at hlist hcarry
        exact (h.settled c hlist hcarry).imp id Or.inl

theorem DescriptorDiscipline.removals_le_one {s : State T} (h : DescriptorDiscipline registered s)
    (c : ChannelId) : (s.mem.channel c).removals ≤ 1 := by
  have hremovals : (s.mem.channel c).removals = (s.mem.channel c).tally.removals := rfl
  rcases h.removedOnce c with htally | htally | ⟨t, phase, fd, caller, hp, htally, -⟩
  · simp [hremovals, htally, Tally.untouched]
  · simp [hremovals, htally, Tally.closed]
  · cases phase <;> simp [hremovals, htally, hp, Point.tally, Tally.closed]

variable [DecidableEq T] [Fintype T] {role : T → Role} {s s' : State T}

/-- A registered channel stays in the map until one call of `closeClient` removes it. -/
theorem entry_until_removed (hr : (system role registered).Reachable s)
    (hs : (system role registered).LeadsTo s s') {e : Entry} (he : e ∈ s.mem.clients) :
    e ∈ s'.mem.clients ∨ (s'.mem.channel e.2).removals = 1 := by
  have haccepted := ((custody_of_reachable hr).listed e he).accepted
  have hkeep : e.2 < s'.mem.accepted ∧
      (e ∈ s'.mem.clients ∨ 0 < (s'.mem.channel e.2).removals) := by
    refine hs.preserves (I := fun s => e.2 < s.mem.accepted ∧
      (e ∈ s.mem.clients ∨ 0 < (s.mem.channel e.2).removals)) hr ⟨haccepted, Or.inl he⟩ ?_
    rintro r a r' - ⟨hlt, hin⟩ - hstep
    rcases next_cases hstep with ⟨t, choice, m', p', -, -, hact, rfl⟩ | ⟨-, hout, -⟩
    · have hmoves := act_moves hact
      obtain ⟨hlt', hle⟩ := hmoves.removals_le hlt
      refine ⟨hlt', ?_⟩
      rcases hin with hin | hpos
      · exact hmoves.entry hin
      · exact Or.inr (hpos.trans_le hle)
    · have hsame := sameCustody_outside hout
      refine ⟨(hsame.spares e.2).accepted hlt, ?_⟩
      rw [hsame.clients]
      exact hin.imp id (fun hpos =>
        hpos.trans_le (congrArg Tally.removals (hsame.spares e.2).tally).ge)
  refine hkeep.2.imp id (fun hpos => ?_)
  have hle := (descriptorDiscipline_of_custody
    (custody_of_reachable (hr.leadsBy hs))).removals_le_one e.2
  omega

/-- Whatever the order of accepts, sweeps and calls of `closeClient`. -/
theorem descriptorDiscipline (h : (system role registered).Reachable s) :
    DescriptorDiscipline registered s ∧ ∀ s', (system role registered).LeadsTo s s' →
      ∀ e ∈ s.mem.clients, e ∈ s'.mem.clients ∨ (s'.mem.channel e.2).removals = 1 :=
  ⟨descriptorDiscipline_of_custody (custody_of_reachable h),
    fun _ hs _ he => entry_until_removed h hs he⟩

end Runs

/-! ### A number that is used twice -/

def smallServer : Fin 3 → Role
  | 0 => .listenThread
  | 1 => .user
  | 2 => .worker .read

def go {T : Type*} (t : T) (n : ℕ) : List (Label T) := List.replicate n (.thread t .go)

/-- The listen thread, with nothing to sweep, accepts a client and registers it. -/
def acceptClient {T : Type*} (t : T) (fd : Fd) (clients : List Entry) : List (Label T) :=
  go t 3 ++ .thread t (.accept (some fd)) :: go t 2 ++ .thread t (.emplace clients) :: go t 2

/-- A user closes the client. -/
def closeByUser {T : Type*} (t : T) (fd : Fd) : List (Label T) :=
  .thread t (.callCloseClient fd) :: go t 8

/-- A client is closed and the kernel gives its number to the next one. -/
theorem descriptorDiscipline_number_reused :
    ∃ s, (system smallServer true).Reachable s ∧ s.mem.clients = [(5, 1)] ∧
      (s.mem.channel 0).tally = .closed true ∧ s.mem.owner 5 = some (.connection 1) ∧
      DescriptorDiscipline true s ∧ ∀ s', (system smallServer true).LeadsTo s s' →
        ∀ e ∈ s.mem.clients, e ∈ s'.mem.clients ∨ (s'.mem.channel e.2).removals = 1 := by
  have hrun : ((system smallServer true).exec (system smallServer true).start
      (acceptClient 0 5 [(5, 0)] ++ closeByUser 1 5 ++ acceptClient 0 5 [(5, 1)])).any (fun s =>
      s.mem.clients = [(5, 1)] ∧ (s.mem.channel 0).tally = .closed true ∧
      s.mem.owner 5 = some (.connection 1)) = true := by decide
  obtain ⟨s, hs, hstate⟩ := TransitionSystem.exists_reachedBy_of_execWhile hrun
  rw [decide_eq_true_eq] at hstate
  exact ⟨s, hs, hstate.1, hstate.2.1, hstate.2.2, descriptorDiscipline hs⟩

end SocketLib.ServerSocket
