import SocketLib.ServerSocketEvents
import SocketLib.ServerSocketSweep

/-!
# Connections that nobody closes

From `accept4` on a connection is in the hands of one thread or in the map until it is closed
(`Custody`). Two steps drop it on the way. The listen thread leaves `connectionListenLoop` when the
server has been stopped between `accept4` and the test that follows it. The destructor gives up the
map with whatever it still holds after its sweep. Nobody closes what has been dropped (`Stranded`),
so up to the end of the destructor every connection is closed exactly when no step of the run is of
these kinds (`disposed_iff_noneDropped`).

The sweep of the destructor leaves nothing in the map unless the listen thread registers a client
behind its iterator, or another thread closes the client that the iterator points to
(`swept_of_withinReach`). So everything is closed in a run whose steps do neither and in which the
listen thread stays to register what it has accepted (`disposed_at_end`).
-/

namespace SocketLib.ServerSocket

/-- The descriptor of the connection was registered and closed afterwards, or was closed without
having been registered. -/
def Channel.Disposed (ch : Channel) : Prop :=
  (ch.removals = 1 ∧ ch.closes = 1) ∨ (ch.removals = 0 ∧ ch.closes = 1)

/-- Nothing is behind the destructor's iterator but the client it is about to close. -/
def SweptBehind (clients : List Entry) : Point → Prop
  | .destroyNext it | .closing _ _ _ (.destructor it) => it = clients.head?
  | .closeAcquire fd (.destructor it) | .closeFind fd (.destructor it) =>
      it = clients.find? (fun e => e.1 ≠ fd)
  | .destroyJoin => clients = []
  | _ => True

def Point.destroyIterator : Point → Option Entry
  | .destroyNext it | .closeAcquire _ (.destructor it) | .closeFind _ (.destructor it)
  | .closing _ _ _ (.destructor it) => it
  | _ => none

/-- The listen thread does not leave with a connection, it registers no client behind the sweep of
the destructor, and no other thread closes the client that the destructor's iterator points to. -/
def WithinReach {T : Type*} (s : State T) : Label T → Prop
  | .thread t choice =>
      match s.points t, choice with
      | .acceptTest (some _), _ => s.mem.active = true
      | .connectEmplace _, .emplace clients => ∀ u, SweptBehind clients (s.points u)
      | .closeFind fd _, _ =>
          ∀ u, u ≠ t → ∀ e ∈ s.mem.find fd, (s.points u).destroyIterator ≠ some e
      | _, _ => True
  | _ => True

/-- The listen thread does not leave with a connection, and the map is empty when the destructor
gives it up. -/
def NoneDropped {T : Type*} (s : State T) : Label T → Prop
  | .thread t _ =>
      match s.points t with
      | .acceptTest (some _) => s.mem.active = true
      | .destroyJoin => s.mem.clients = []
      | _ => True
  | _ => True

/-- The connection is in no hands and not in the map. -/
structure Forgotten {T : Type*} (m : Mem) (points : T → Point) (c : ChannelId) : Prop where
  accepted : c < m.accepted
  uncarried : ∀ t, (points t).carries ≠ some c
  unlisted : ∀ e ∈ m.clients, e.2 ≠ c

/-- Nothing has been done to the connection, and nobody can do anything to it: no thread answers for
it, and a map that has it is one of a destroyed server. -/
structure Stranded {T : Type*} (m : Mem) (points : T → Point) (c : ChannelId) : Prop where
  accepted : c < m.accepted
  tally : (m.channel c).tally = .untouched
  uncarried : ∀ t, (points t).carries ≠ some c
  unlisted : m.lifetime ≠ .destroyed → ∀ e ∈ m.clients, e.2 ≠ c

section Steps

variable {registered : Bool} {m m' : Mem} {p p' : Point} {choice : Choice} {c : ChannelId}

/-- Where the thread that answers for a channel can stop to do so. -/
theorem act_carries : act registered m p choice = some (m', p') → p.carries = some c →
    p'.carries = some c ∨ (p = .acceptTest (some c) ∧ m.active = false) ∨
      (p = .connectEmplace c ∧ (m.find (m.channel c).clientDescriptor ≠ none ∨
        ∃ e ∈ m'.clients, e.2 = c)) ∨
      ∃ fd caller, p = .closing .destroy c fd caller := by
  fun_cases act registered m p choice
  case case18 =>
    simp only [Option.some.injEq, Prod.mk.injEq, and_imp]
    rintro rfl rfl hc
    obtain rfl := Option.some.inj hc
    cases hactive : m.active with
    | true => exact Or.inl rfl
    | false => exact Or.inr (Or.inl ⟨rfl, rfl⟩)
  case case20 d e hfind =>
    simp only [Option.some.injEq, Prod.mk.injEq, and_imp]
    rintro rfl rfl hc
    obtain rfl := Option.some.inj hc
    exact Or.inr (Or.inr (Or.inl ⟨rfl, Or.inl (by rw [hfind]; exact Option.some_ne_none e)⟩))
  case case22 hfind hperm =>
    simp only [Option.some.injEq, Prod.mk.injEq, and_imp]
    rintro rfl rfl hc
    obtain rfl := Option.some.inj hc
    exact Or.inr (Or.inr (Or.inl ⟨rfl, Or.inr ⟨_, hperm.mem_iff.mpr List.mem_cons_self, rfl⟩⟩))
  case case37 =>
    simp only [Option.some.injEq, Prod.mk.injEq, and_imp]
    rintro rfl rfl hc
    obtain rfl := Option.some.inj hc
    exact Or.inr (Or.inr (Or.inr ⟨_, _, rfl⟩))
  all_goals
    simp only [Option.some.injEq, Prod.mk.injEq, reduceCtorEq, false_implies, and_imp]
    try rintro rfl rfl
  all_goals first
    | exact Or.inl
    | exact fun hc => absurd hc (by simp [Point.carries])

/-- A connection becomes one of the server's in the hands of the listen thread. -/
theorem LifeMoves.accepted_or (h : LifeMoves m p m' p') (hc : c < m'.accepted) :
    c < m.accepted ∨ p'.carries = some c := by
  cases h with
  | same hs => exact Or.inl (hs.accepted ▸ hc)
  | accepts fd =>
      rcases Nat.lt_succ_iff_lt_or_eq.mp hc with hold | rfl
      · exact Or.inl hold
      · exact Or.inr rfl
  | _ => exact Or.inl hc

/-- The server ceases to exist in the step that ends the destructor. -/
theorem LifeMoves.ends_of_destroyed (h : LifeMoves m p m' p') (hm : m.lifetime ≠ .destroyed)
    (hm' : m'.lifetime = .destroyed) : p = .destroyJoin := by
  cases h with
  | same hs => exact absurd (hs.lifetime.mp hm') hm
  | ends hp => exact hp
  | _ => exact absurd hm' hm

/-- A client is taken out of the map by a thread that answers for it then. -/
theorem Moves.listed_or (h : Moves registered m p m' p') {e : Entry} (he : e ∈ m.clients) :
    e ∈ m'.clients ∨ p'.carries = some e.2 := by
  cases h with
  | carriesOn hs => exact Or.inl (hs.clients ▸ he)
  | drops hs => exact Or.inl (hs.clients ▸ he)
  | registers d clients p' hp hfind hperm =>
      exact Or.inl (hperm.mem_iff.mpr (List.mem_cons_of_mem _ he))
  | removes fd caller e' =>
      by_cases heq : e = e'
      · subst e'
        exact Or.inr rfl
      · exact Or.inl ((List.mem_erase_of_ne heq).mpr he)
  | shuts => exact Or.inl (by rwa [shutdown_clients])
  | closes => exact Or.inl (by rwa [close_clients])
  | accepts | invokes => exact Or.inl he

variable {T : Type*} {points : T → Point} {t : T}

/-- A thread does nothing to a connection that it does not answer for and that is not in the map. -/
theorem Moves.passes (h : Moves registered m (points t) m' p')
    (hcustody : Custody registered m points) (hc : c < m.accepted)
    (hcarry : (points t).carries ≠ some c) (hlist : ∀ e ∈ m.clients, e.2 ≠ c) :
    Spares c m m' ∧ p'.carries ≠ some c ∧ ∀ e ∈ m'.clients, e.2 ≠ c := by
  have hother : ∀ {d}, (points t).carries = some d → c ≠ d := by
    rintro d hd rfl
    exact hcarry hd
  cases h with
  | carriesOn hs hp' => exact ⟨hs.spares c, hp' ▸ hcarry, hs.clients ▸ hlist⟩
  | drops hs hp' =>
      refine ⟨hs.spares c, ?_, hs.clients ▸ hlist⟩
      rw [hp']
      exact Option.some_ne_none c ∘ Eq.symm
  | accepts fd hfd hp =>
      refine ⟨spares_accept hfd hc.ne, ?_, hlist⟩
      rintro ⟨⟩
      exact lt_irrefl _ hc
  | registers d clients p' hp hfind hperm hp' =>
      have hne : c ≠ d := hother (by rw [hp]; rfl)
      refine ⟨⟨id, rfl, rfl, fun _ => id⟩, ?_, ?_⟩
      · rw [hp']
        exact Option.some_ne_none c ∘ Eq.symm
      · intro e he
        rcases List.mem_cons.mp (hperm.mem_iff.mp he) with rfl | hold
        · exact hne.symm
        · exact hlist e hold
  | removes fd caller e hp hfind =>
      have hne : c ≠ e.2 := (hlist e (find_some hfind).1).symm
      have hs := spares_modify { m with clients := m.clients.erase e }
        (fun ch => { ch with removals := ch.removals + 1 }) hne
      refine ⟨⟨hs.accepted, hs.descriptor, hs.tally, hs.owner⟩, ?_, ?_⟩
      · exact fun hd => hne (Option.some.inj hd).symm
      · exact fun e' he' => hlist e' (List.mem_of_mem_erase he')
  | invokes d fd caller hp hr =>
      have hne : c ≠ d := hother (by rw [hp]; rfl)
      exact ⟨spares_modify m _ hne, fun hd => hne (Option.some.inj hd).symm, hlist⟩
  | shuts d fd caller hp =>
      have hd : (points t).carries = some d := by rw [hp]; rfl
      have ha := hcustody.answers t d hd
      rw [hp] at ha
      have howner := ha.owner rfl
      rw [ha.number fd rfl] at howner
      rw [shutdown_eq howner]
      exact ⟨spares_modify m _ (hother hd), fun hd' => hother hd (Option.some.inj hd').symm, hlist⟩
  | closes d fd caller hp =>
      have hd : (points t).carries = some d := by rw [hp]; rfl
      have ha := hcustody.answers t d hd
      rw [hp] at ha
      have howner := ha.owner rfl
      rw [ha.number fd rfl] at howner
      refine ⟨spares_close howner (hother hd), ?_, ?_⟩
      · exact fun hd' => hother hd (Option.some.inj hd').symm
      · rwa [close_clients]

theorem Outside.accepted (h : Outside m m') : m'.accepted = m.accepted := by
  cases h <;> rfl

/-- What happens outside the server's threads strands no connection and saves none. -/
theorem stranded_outside (h : Outside m m') : Stranded m' points c ↔ Stranded m points c := by
  have hs := sameCustody_outside h
  constructor
  · intro ⟨haccepted, htally, hcarry, hlist⟩
    rw [h.accepted] at haccepted
    rw [(hs.spares c).tally] at htally
    rw [h.lifetime, hs.clients] at hlist
    exact ⟨haccepted, htally, hcarry, hlist⟩
  · intro ⟨haccepted, htally, hcarry, hlist⟩
    rw [← h.accepted] at haccepted
    rw [← (hs.spares c).tally] at htally
    rw [← h.lifetime, ← hs.clients] at hlist
    exact ⟨haccepted, htally, hcarry, hlist⟩

end Steps

section Runs

variable {registered : Bool} {T : Type*} [DecidableEq T] [Fintype T] {role : T → Role}
  {s s' : State T} {a : Label T} {c : ChannelId}

/-- The destructor waits for every other thread. -/
theorem gone_of_reachable (h : (system role registered).Reachable s)
    (hgone : s.mem.lifetime = .destroyed) (t : T) :
    s.points t = .idle ∨ s.points t = .finished := by
  have hI : s.mem.lifetime = .destroyed → ∀ t, s.points t = .idle ∨ s.points t = .finished := by
    apply h.invariant (I := fun s => s.mem.lifetime = .destroyed →
      ∀ t, s.points t = .idle ∨ s.points t = .finished)
    · exact fun h => nomatch h
    · intro s a s' _ hI _ hs
      rcases next_cases hs with ⟨t, choice, m', p', rfl, hadmits, hact, rfl⟩ | ⟨-, hout, hpoints⟩
      · intro hgone' u
        have hinside : s.mem.lifetime ≠ .destroyed := fun hgone => act_gone hgone (hI hgone t) hact
        have hjoin := (act_lifeMoves hact).ends_of_destroyed hinside hgone'
        by_cases hu : u = t
        · subst u
          rw [hjoin] at hact
          cases choice <;> simp only [act, Option.some.injEq, Prod.mk.injEq, reduceCtorEq] at hact
          simp only [Function.update_self, ← hact.2, or_true]
        · simp only [State.admits, hjoin] at hadmits
          simpa only [Function.update_of_ne hu] using hadmits u hu
      · rw [hpoints, hout.lifetime]
        exact hI
  exact hI hgone t

/-- Nobody comes back to a connection. -/
theorem Forgotten.next (h : Forgotten s.mem s.points c) (hr : (system role registered).Reachable s)
    (hs : next registered s a = some s') :
    Forgotten s'.mem s'.points c ∧ (s'.mem.channel c).tally = (s.mem.channel c).tally := by
  rcases next_cases hs with ⟨t, choice, m', p', rfl, -, hact, rfl⟩ | ⟨-, hout, hpoints⟩
  · obtain ⟨hspares, hcarry, hlist⟩ := (act_moves hact).passes (custody_of_reachable hr) h.accepted
      (h.uncarried t) h.unlisted
    refine ⟨⟨hspares.accepted h.accepted, fun u => ?_, hlist⟩, hspares.tally⟩
    by_cases hu : u = t
    · subst u
      simpa only [Function.update_self] using hcarry
    · simpa only [Function.update_of_ne hu] using h.uncarried u
  · have hsame := sameCustody_outside hout
    refine ⟨⟨(hsame.spares c).accepted h.accepted, ?_, ?_⟩, (hsame.spares c).tally⟩
    · rw [hpoints]
      exact h.uncarried
    · rw [hsame.clients]
      exact h.unlisted

theorem Stranded.next (h : Stranded s.mem s.points c) (hr : (system role registered).Reachable s)
    (hs : next registered s a = some s') : Stranded s'.mem s'.points c := by
  rcases next_cases hs with ⟨t, choice, m', p', rfl, -, hact, -⟩ | ⟨-, hout, hpoints⟩
  · have hinside : s.mem.lifetime ≠ .destroyed :=
      fun hgone => act_gone hgone (gone_of_reachable hr hgone t) hact
    obtain ⟨hforgotten, htally⟩ :=
      Forgotten.next ⟨h.accepted, h.uncarried, h.unlisted hinside⟩ hr hs
    exact ⟨hforgotten.accepted, htally.trans h.tally, hforgotten.uncarried,
      fun _ => hforgotten.unlisted⟩
  · rw [hpoints]
    exact (stranded_outside hout).mpr h

/-- A step that drops nothing strands nothing. -/
theorem not_stranded_next (hr : (system role registered).Reachable s)
    (hnone : ∀ c, ¬ Stranded s.mem s.points c) (hdrop : NoneDropped s a)
    (hs : next registered s a = some s') (c : ChannelId) : ¬ Stranded s'.mem s'.points c := by
  have hcustody := custody_of_reachable hr
  rcases next_cases hs with ⟨t, choice, m', p', rfl, -, hact, rfl⟩ | ⟨-, hout, hpoints⟩
  · have hmoves := act_moves hact
    have hlife := act_lifeMoves hact
    have hinside : s.mem.lifetime ≠ .destroyed :=
      fun hgone => act_gone hgone (gone_of_reachable hr hgone t) hact
    intro hstranded
    have hp' : p'.carries ≠ some c := by
      simpa only [Function.update_self] using hstranded.uncarried t
    have hc : c < s.mem.accepted := (hlife.accepted_or hstranded.accepted).resolve_right hp'
    -- a client that is still in the map is stranded by the end of the destructor only
    have hlist : ∀ e ∈ s.mem.clients, e.2 ≠ c := by
      rintro e he rfl
      by_cases hgone : m'.lifetime = .destroyed
      · have hjoin := hlife.ends_of_destroyed hinside hgone
        simp only [NoneDropped, hjoin] at hdrop
        rw [hdrop] at he
        cases he
      · exact hstranded.unlisted hgone e ((hmoves.listed_or he).resolve_right hp') rfl
    have hcarry : (s.points t).carries ≠ some c := by
      intro hcarry
      rcases act_carries hact hcarry with h | ⟨hp, hstopped⟩ | ⟨hp, hfind | ⟨e, he, rfl⟩⟩ |
        ⟨fd, caller, hp⟩
      · exact hp' h
      · simp only [NoneDropped, hp] at hdrop
        rw [hdrop] at hstopped
        cases hstopped
      · exact hfind ((descriptorDiscipline_of_custody hcustody).emplace t c hp)
      · by_cases hgone : m'.lifetime = .destroyed
        · have hjoin := hlife.ends_of_destroyed hinside hgone
          rw [hp] at hjoin
          cases hjoin
        · exact hstranded.unlisted hgone e he rfl
      · have htally := (hcustody.answers t c hcarry).tally
        rw [hp] at hact htally
        cases choice <;> simp only [act, reduceCtorEq] at hact
        split_ifs at hact
        obtain ⟨rfl, -⟩ := Prod.mk.inj (Option.some.inj hact)
        have huntouched := hstranded.tally
        rw [show ((s.mem.destroy c).channel c).tally = (s.mem.channel c).tally from
          ((sameCustody_modify s.mem c _ rfl rfl).spares c).tally, htally] at huntouched
        cases congrArg Tally.closes huntouched
    obtain ⟨hspares, -⟩ := hmoves.passes hcustody hc hcarry hlist
    refine hnone c ⟨hc, hspares.tally.symm.trans hstranded.tally, fun u => ?_, fun _ => hlist⟩
    by_cases hu : u = t
    · subst u
      exact hcarry
    · simpa only [Function.update_of_ne hu] using hstranded.uncarried u
  · rw [hpoints, stranded_outside hout]
    exact hnone c

/-- A step that drops a connection strands it. -/
theorem exists_stranded_next (hr : (system role registered).Reachable s) (hdrop : ¬ NoneDropped s a)
    (hs : next registered s a = some s') : ∃ c, Stranded s'.mem s'.points c := by
  have hcustody := custody_of_reachable hr
  cases a with
  | thread t choice =>
      obtain ⟨-, m', p', hact, rfl⟩ := next_thread hs
      simp only [NoneDropped] at hdrop
      split at hdrop
      next c hp =>
        have hcarry : (s.points t).carries = some c := by rw [hp]; rfl
        have ha := hcustody.answers t c hcarry
        rw [hp] at hact ha
        cases choice <;> simp only [act, reduceCtorEq] at hact
        obtain ⟨rfl, rfl⟩ := Prod.mk.inj (Option.some.inj hact)
        refine ⟨c, ha.accepted, ha.tally, fun u => ?_, fun _ => hcustody.apart t c hcarry⟩
        by_cases hu : u = t
        · subst u
          simp [Function.update_self, hdrop, Point.carries]
        · simp only [Function.update_of_ne hu]
          exact fun hu' => hu (hcustody.unique u t c hu' hcarry)
      next hp =>
        obtain ⟨e, he⟩ := List.exists_mem_of_ne_nil _ hdrop
        have hl := hcustody.listed e he
        rw [hp] at hact
        cases choice <;> simp only [act, reduceCtorEq] at hact
        obtain ⟨rfl, rfl⟩ := Prod.mk.inj (Option.some.inj hact)
        have hspares := (sameCustody_destroyMembers s.mem).spares e.2
        refine ⟨e.2, hl.accepted, hspares.tally.trans hl.tally, fun u => ?_, fun h => (h rfl).elim⟩
        by_cases hu : u = t
        · subst u
          simp only [Function.update_self]
          exact Option.some_ne_none _ ∘ Eq.symm
        · simp only [Function.update_of_ne hu]
          exact fun hcarry => hcustody.apart u e.2 hcarry e he rfl
      next => exact absurd trivial hdrop
  | _ => exact absurd trivial hdrop

/-- When the destructor has ended, what is not stranded has been disposed of. -/
theorem disposed_iff_not_stranded (hr : (system role registered).Reachable s)
    (hend : s.mem.lifetime = .destroyed) :
    (∀ c < s.mem.accepted, (s.mem.channel c).Disposed) ↔ ∀ c, ¬ Stranded s.mem s.points c := by
  have hcustody := custody_of_reachable hr
  have hcarry : ∀ c t, (s.points t).carries ≠ some c := by
    intro c t
    rcases gone_of_reachable hr hend t with hp | hp <;> rw [hp] <;>
      exact Option.some_ne_none c ∘ Eq.symm
  constructor
  · intro hall c hstranded
    have hdisposed := hall c hstranded.accepted
    have hcloses : (s.mem.channel c).closes = 0 := congrArg Tally.closes hstranded.tally
    simp only [Channel.Disposed, hcloses, Nat.zero_ne_one, and_false, or_self] at hdisposed
  · intro hnone c hc
    have hnot : (s.mem.channel c).tally ≠ .untouched :=
      fun htally => hnone c ⟨hc, htally, hcarry c, fun h => (h hend).elim⟩
    have hlist : ∀ e ∈ s.mem.clients, e.2 ≠ c := by
      rintro e he rfl
      exact hnot (hcustody.listed e he).tally
    have hclosed := (hcustody.settled c hlist (hcarry c)).resolve_left hnot
    exact Or.inl ⟨congrArg Tally.removals hclosed, congrArg Tally.closes hclosed⟩

/-- Every descriptor that `accept4` has returned up to the end of the destructor has been closed
exactly when none was dropped. -/
theorem disposed_iff_noneDropped {as : List (Label T)}
    (hs : (system role registered).exec (system role registered).start as = some s)
    (hend : s.mem.lifetime = .destroyed) :
    (∀ c < s.mem.accepted, (s.mem.channel c).Disposed) ↔
      (system role registered).Along NoneDropped (system role registered).start as := by
  have hreach : (system role registered).Reachable s :=
    TransitionSystem.execWhile_reachedBy .start hs
  rw [disposed_iff_not_stranded hreach hend]
  apply TransitionSystem.last_iff_along (I := fun s => ∀ c, ¬ Stranded s.mem s.points c) ?_ ?_
    .start ?_ hs
  · intro s a s' hr hnone hs
    refine ⟨fun hdrop => not_stranded_next hr hnone hdrop hs, fun hnone' => ?_⟩
    by_contra hdrop
    obtain ⟨c, hc⟩ := exists_stranded_next hr hdrop hs
    exact hnone' c hc
  · exact fun s a s' hr hs hnone c hc => hnone c (hc.next hr hs)
  · exact fun c hc => absurd hc.accepted (Nat.not_lt_zero c)

end Runs

/-! ### The sweep of the destructor -/

section Sweep

variable {registered : Bool} {m m' : Mem} {p p' : Point} {choice : Choice}

/-- The search does not miss what it finds when something else is taken out of the list. -/
theorem find?_erase_of_ne {α : Type*} [BEq α] [LawfulBEq α] {l : List α} {f : α → Bool} {a : α}
    (h : l.find? f ≠ some a) : (l.erase a).find? f = l.find? f := by
  induction l with
  | nil => rfl
  | cons x l ih =>
      by_cases hx : x = a
      · subst x
        rw [List.erase_cons_head]
        cases hf : f a with
        | true => exact absurd (List.find?_cons_of_pos hf) h
        | false => rw [List.find?_cons_of_neg (by simp [hf])]
      · rw [List.erase_cons_tail (by simpa using hx)]
        cases hf : f x with
        | true => rw [List.find?_cons_of_pos hf, List.find?_cons_of_pos hf]
        | false =>
            rw [List.find?_cons_of_neg (by simp [hf])] at h
            rw [List.find?_cons_of_neg (by simp [hf]), List.find?_cons_of_neg (by simp [hf]), ih h]

theorem head?_erase_of_ne {α : Type*} [BEq α] [LawfulBEq α] {l : List α} {a : α}
    (h : l.head? ≠ some a) : (l.erase a).head? = l.head? := by
  cases l with
  | nil => rfl
  | cons x l =>
      have hx : x ≠ a := fun hx => h (congrArg some hx)
      rw [List.erase_cons_tail (by simpa using hx), List.head?_cons, List.head?_cons]

/-- In a map the first of the other clients is the first that is left when this one goes. -/
theorem head?_erase_eq_find? {clients : List Entry} (hkeys : (clients.map Prod.fst).Nodup)
    {e : Entry} (he : e ∈ clients) :
    (clients.erase e).head? = clients.find? (fun e' => e'.1 ≠ e.1) := by
  cases clients with
  | nil => cases he
  | cons x rest =>
      obtain ⟨hx, -⟩ := List.nodup_cons.mp hkeys
      by_cases heq : x = e
      · subst x
        rw [List.erase_cons_head, List.find?_cons_of_neg (by simp)]
        cases rest with
        | nil => rfl
        | cons y rest =>
            have hy : y.1 ≠ e.1 := fun hy => hx (hy ▸ List.mem_map_of_mem List.mem_cons_self)
            rw [List.head?_cons, List.find?_cons_of_pos (by simpa using hy)]
      · have hkey : x.1 ≠ e.1 := fun hkey =>
          hx (hkey ▸ List.mem_map_of_mem ((List.mem_cons.mp he).resolve_left (Ne.symm heq)))
        rw [List.erase_cons_tail (by simpa using heq), List.head?_cons,
          List.find?_cons_of_pos (by simpa using hkey)]

theorem successor_head? {clients : List Entry} (hkeys : (clients.map Prod.fst).Nodup) {e : Entry}
    (he : clients.head? = some e) :
    Mem.successor e clients = clients.find? (fun e' => e'.1 ≠ e.1) := by
  cases clients with
  | nil => cases he
  | cons x rest =>
      obtain rfl := Option.some.inj he
      have herase := head?_erase_eq_find? hkeys (e := x) List.mem_cons_self
      rw [List.erase_cons_head] at herase
      rw [Mem.successor, if_pos rfl, herase]

theorem SweptBehind.erase {clients : List Entry} {e : Entry} (h : SweptBehind clients p)
    (hne : p.destroyIterator ≠ some e) : SweptBehind (clients.erase e) p := by
  cases p with
  | destroyNext it =>
      obtain rfl : it = clients.head? := h
      exact (head?_erase_of_ne hne).symm
  | destroyJoin =>
      obtain rfl : clients = [] := h
      rfl
  | closeAcquire fd caller =>
      cases caller with
      | destructor it =>
          obtain rfl : it = clients.find? (fun e => e.1 ≠ fd) := h
          exact (find?_erase_of_ne hne).symm
      | _ => trivial
  | closeFind fd caller =>
      cases caller with
      | destructor it =>
          obtain rfl : it = clients.find? (fun e => e.1 ≠ fd) := h
          exact (find?_erase_of_ne hne).symm
      | _ => trivial
  | closing phase c fd caller =>
      cases caller with
      | destructor it =>
          obtain rfl : it = clients.head? := h
          exact (head?_erase_of_ne hne).symm
      | _ => trivial
  | _ => trivial

/-- The map changes in `emplace` and in `erase` only. -/
theorem act_clients : act registered m p choice = some (m', p') →
    m'.clients = m.clients ∨
      (∃ c, p = .connectEmplace c ∧ choice = .emplace m'.clients) ∨
      ∃ fd caller, p = .closeFind fd caller ∧ ∃ e ∈ m.find fd, m'.clients = m.clients.erase e := by
  fun_cases act registered m p choice
  case case22 c clients hfind hperm =>
    simp only [Option.some.injEq, Prod.mk.injEq, and_imp]
    rintro rfl rfl
    exact Or.inr (Or.inl ⟨c, rfl, rfl⟩)
  case case27 fd caller e hfind =>
    simp only [Option.some.injEq, Prod.mk.injEq, and_imp]
    rintro rfl rfl
    exact Or.inr (Or.inr ⟨fd, caller, rfl, e, hfind, rfl⟩)
  all_goals
    simp only [Option.some.injEq, Prod.mk.injEq, reduceCtorEq, false_implies, and_imp]
    try rintro rfl rfl
  all_goals first
    | exact Or.inl rfl
    | exact Or.inl (shutdown_clients ..)
    | exact Or.inl (close_clients ..)
    | exact Or.inl (by split <;> rfl)

/-- The destructor goes from the first client to the one that is the first without it. -/
theorem act_sweptBehind (hkeys : (m.clients.map Prod.fst).Nodup) (h : SweptBehind m.clients p) :
    act registered m p choice = some (m', p') → SweptBehind m'.clients p' := by
  fun_cases act registered m p choice
  all_goals
    simp only [Option.some.injEq, Prod.mk.injEq, reduceCtorEq, false_implies, and_imp]
    try rintro rfl rfl
  -- the steps outside the sweep, and those inside closeClient that leave the map alone
  all_goals try trivial
  all_goals try (split <;> trivial)
  all_goals try (cases ‹Caller› <;> first | trivial | exact h)
  case case27 fd caller e hfind =>
    obtain ⟨he, rfl⟩ := find_some hfind
    cases caller with
    | destructor it =>
        obtain rfl : it = m.clients.find? (fun e' => e'.1 ≠ e.1) := h
        exact (head?_erase_eq_find? hkeys he).symm
    | _ => trivial
  case case34 c fd caller =>
    rw [shutdown_clients]
    cases caller <;> exact h
  case case35 c fd caller =>
    rw [close_clients]
    cases caller <;> exact h
  case case40 => exact List.head?_eq_none_iff.mp (Eq.symm h)
  case case41 e entry it hchoice =>
    have hhead : m.clients.head? = some e := Eq.symm h
    obtain ⟨rfl, rfl⟩ := hchoice (List.mem_of_mem_head? hhead)
    exact successor_head? hkeys hhead

variable {T : Type*} [DecidableEq T] [Fintype T] {role : T → Role} {s : State T}

/-- What is behind the sweep of the destructor has been closed. -/
theorem swept_of_withinReach (h : (system role registered).ReachedBy WithinReach s) (t : T) :
    SweptBehind s.mem.clients (s.points t) := by
  have hall : ∀ t, SweptBehind s.mem.clients (s.points t) := by
    apply h.invariant (I := fun s => ∀ t, SweptBehind s.mem.clients (s.points t))
    · intro t
      change SweptBehind _ (role t).point
      cases role t <;> trivial
    · intro s a s' hr hI hclear hs
      have hkeys := (custody_of_reachable hr.reachable).keys
      rcases next_cases hs with ⟨t, choice, m', p', rfl, -, hact, rfl⟩ | ⟨-, hout, hpoints⟩
      · intro u
        by_cases hu : u = t
        · subst u
          simpa only [Function.update_self] using act_sweptBehind hkeys (hI t) hact
        · simp only [Function.update_of_ne hu]
          rcases act_clients hact with hclients | ⟨c, hp, rfl⟩ |
            ⟨fd, caller, hp, e, hfind, hclients⟩
          · rw [hclients]
            exact hI u
          · simp only [WithinReach, hp] at hclear
            exact hclear u
          · simp only [WithinReach, hp] at hclear
            rw [hclients]
            exact (hI u).erase (hclear u hu e hfind)
      · rw [hpoints, (sameCustody_outside hout).clients]
        exact hI
  exact hall t

/-- A step within reach drops nothing. -/
theorem WithinReach.noneDropped (h : (system role registered).ReachedBy WithinReach s)
    {a : Label T} (hclear : WithinReach s a) : NoneDropped s a := by
  cases a with
  | thread t choice =>
      have hswept := swept_of_withinReach h t
      cases hp : s.points t with
      | acceptTest result =>
          cases result with
          | none => simp only [NoneDropped, hp]
          | some c =>
              simp only [WithinReach, hp] at hclear
              simpa only [NoneDropped, hp] using hclear
      | destroyJoin =>
          rw [hp] at hswept
          simp only [NoneDropped, hp]
          exact hswept
      | _ => simp only [NoneDropped, hp]
  | _ => trivial

/-- Every descriptor that `accept4` has returned is closed by the end of the destructor, in a run in
which the listen thread registers what it has accepted and the sweep of the destructor is left
alone. -/
theorem disposed_at_end (h : (system role registered).ReachedBy WithinReach s)
    (hend : s.mem.lifetime = .destroyed) : ∀ c < s.mem.accepted, (s.mem.channel c).Disposed := by
  have hnone : ∀ c, ¬ Stranded s.mem s.points c := by
    apply h.invariant (I := fun s => ∀ c, ¬ Stranded s.mem s.points c)
    · exact fun c hc => absurd hc.accepted (Nat.not_lt_zero c)
    · exact fun s a s' hr hnone hclear hs =>
        not_stranded_next hr.reachable hnone (hclear.noneDropped hr) hs
  exact (disposed_iff_not_stranded h.reachable hend).mpr hnone

end Sweep

/-! ### The condition is decidable -/

def isSweptBehind (clients : List Entry) : Point → Bool
  | .destroyNext it | .closing _ _ _ (.destructor it) => it = clients.head?
  | .closeAcquire fd (.destructor it) | .closeFind fd (.destructor it) =>
      it = clients.find? (fun e => e.1 ≠ fd)
  | .destroyJoin => clients.isEmpty
  | _ => true

theorem isSweptBehind_iff (clients : List Entry) (p : Point) :
    isSweptBehind clients p = true ↔ SweptBehind clients p := by
  unfold isSweptBehind SweptBehind
  split <;> simp only [decide_eq_true_eq, List.isEmpty_iff]

section Decide

variable {T : Type*} [DecidableEq T] [Fintype T]

def isWithinReach (s : State T) : Label T → Bool
  | .thread t choice =>
      match s.points t, choice with
      | .acceptTest (some _), _ => s.mem.active
      | .connectEmplace _, .emplace clients => decide (∀ u, isSweptBehind clients (s.points u))
      | .closeFind fd _, _ =>
          (s.mem.find fd).all
            (fun e => decide (∀ u, u ≠ t → (s.points u).destroyIterator ≠ some e))
      | _, _ => true
  | _ => true

theorem isWithinReach_iff (s : State T) (a : Label T) :
    isWithinReach s a = true ↔ WithinReach s a := by
  cases a with
  | thread t choice =>
      simp only [isWithinReach, WithinReach]
      split
      case h_2 => simp only [decide_eq_true_eq, isSweptBehind_iff]
      case h_3 _ fd _ _ =>
        cases s.mem.find fd with
        | none => exact iff_of_true rfl nofun
        | some e => simp
      case h_1 => exact Iff.rfl
      case h_4 => exact iff_of_true rfl trivial
  | _ => exact iff_of_true rfl trivial

instance (s : State T) (a : Label T) : Decidable (WithinReach s a) :=
  decidable_of_iff (isWithinReach s a = true) (isWithinReach_iff s a)

end Decide
end SocketLib.ServerSocket
