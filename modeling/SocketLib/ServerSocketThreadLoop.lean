import SocketLib.ServerSocketAccept
import SocketLib.ServerSocketLock

/-!
# One pass of `threadLoop`

A pass goes from the begin of the map to its end and calls `closeClient` for every entry whose
channel is inactive, by the descriptor of the channel. Other threads may run in between as long as
they leave the map and the flags of its channels alone (`SameMap`). Then key and descriptor agree
and the iterator never dangles, so at any moment of the pass the map consists of the active entries
that it has been past and of all the others (`Visited`), each removed client is closed, and `Pass`
bounds the steps that are left.
-/

namespace SocketLib.ServerSocket

/-- The channel whose read lock a worker holds. -/
def Point.reads : Point → Option ChannelId
  | .readRecv c _ | .readRecheck _ c _ | .readInvoke c _ | .readCallback c _ | .readUnlock c _ =>
      some c
  | _ => none

/-- The thread is in `threadLoop`, or in a `closeClient` that was called there. -/
def Point.inThreadLoop : Point → Bool
  | .sweepBegin | .sweepNext _ | .sweepTest _ _ | .sweepSelect _ _ => true
  | .closeAcquire _ (.threadLoop _) | .closeFind _ (.threadLoop _) | .closeThrow (.threadLoop _)
  | .closing _ _ _ (.threadLoop _) => true
  | _ => false

/-- The map is the same, and each of its channels is active as before. -/
structure SameMap (m m' : Mem) : Prop where
  clients : m'.clients = m.clients
  flags : ∀ e ∈ m.clients, m'.isActive e.2 = m.isActive e.2

section Steps

variable {registered : Bool} {m m' : Mem} {p p' : Point} {choice : Choice} {c d : ChannelId}

theorem not_holds_of_asks (h : p.asksExclusive) :
    p.holdsExclusive = false ∧ p.holdsShared = false := by
  cases p <;> first | exact ⟨rfl, rfl⟩ | cases h

theorem shutdown_readLock (m : Mem) (fd : Fd) (c : ChannelId) :
    ((m.shutdown fd).channel c).readLock = (m.channel c).readLock := by
  unfold Mem.shutdown
  split
  · exact modify_field Channel.readLock m _ c _ rfl
  · rfl

theorem close_readLock (m : Mem) (fd : Fd) (c : ChannelId) :
    ((m.close fd).channel c).readLock = (m.channel c).readLock := by
  unfold Mem.close
  split
  · exact modify_field Channel.readLock { m with owner := _ } _ c _ rfl
  · rfl

theorem destroyMembers_readLock (m : Mem) (c : ChannelId) :
    (m.destroyMembers.channel c).readLock = (m.channel c).readLock := by
  simp only [Mem.destroyMembers]
  split <;> rfl

/-- A channel whose read lock is taken after a step is the one that the thread reads, or it was
taken before and the thread has not given it back. -/
theorem act_readLock : act registered m p choice = some (m', p') →
    (m'.channel c).readLock → p'.reads = some c ∨ ((m.channel c).readLock ∧ p.reads ≠ some c) := by
  -- the steps that neither take nor give back a read lock
  have hstay : ∀ {q q' : Point} {m' : Mem}, q'.reads = q.reads →
      (m'.channel c).readLock = (m.channel c).readLock → (m'.channel c).readLock →
      q'.reads = some c ∨ ((m.channel c).readLock ∧ q.reads ≠ some c) := by
    intro q q' m' hreads hsame hlock
    by_cases hq : q.reads = some c
    · exact Or.inl (hreads.trans hq)
    · exact Or.inr ⟨hsame ▸ hlock, hq⟩
  fun_cases act registered m p choice
  case case15 fd _ =>
    simp only [Option.some.injEq, Prod.mk.injEq, and_imp]
    rintro rfl rfl hlock
    by_cases hc : c = m.accepted
    · simp [Mem.accept, hc, Channel.initial] at hlock
    · refine Or.inr ⟨?_, Option.some_ne_none c ∘ Eq.symm⟩
      simpa only [Mem.accept, Function.update_of_ne hc] using hlock
  case case51 d rest _ =>
    simp only [Option.some.injEq, Prod.mk.injEq, and_imp]
    rintro rfl rfl hlock
    by_cases hc : c = d
    · exact Or.inl (congrArg some hc.symm)
    · refine Or.inr ⟨?_, Option.some_ne_none c ∘ Eq.symm⟩
      simpa only [Mem.setReadLock, Mem.modify, Function.update_of_ne hc] using hlock
  case case59 d rest =>
    simp only [Option.some.injEq, Prod.mk.injEq, and_imp]
    rintro rfl rfl hlock
    by_cases hc : c = d
    · simp [Mem.setReadLock, Mem.modify, hc] at hlock
    · refine Or.inr ⟨?_, fun hd => hc (Option.some.inj hd).symm⟩
      simpa only [Mem.setReadLock, Mem.modify, Function.update_of_ne hc] using hlock
  case case37 caller _ =>
    simp only [Option.some.injEq, Prod.mk.injEq, and_imp]
    rintro rfl rfl
    exact hstay (by cases caller <;> rfl) (modify_field Channel.readLock m _ c _ rfl)
  all_goals
    simp only [Option.some.injEq, Prod.mk.injEq, reduceCtorEq, false_implies, and_imp]
    try rintro rfl rfl
  case case34 => exact hstay rfl (shutdown_readLock m _ c)
  case case35 => exact hstay rfl (close_readLock m _ c)
  case case43 => exact hstay rfl (destroyMembers_readLock m c)
  case case60 =>
    refine hstay rfl ?_
    split
    · exact modify_field Channel.readLock m _ c _ rfl
    · rfl
  all_goals first
    | exact hstay rfl rfl
    | exact hstay rfl (modify_field Channel.readLock m _ c _ rfl)
    | exact hstay rfl (modify_field Channel.readLock { m with clients := _ } _ c _ rfl)
    | exact hstay (by split <;> rfl) rfl

theorem Outside.readLock (h : Outside m m') (c : ChannelId) :
    (m'.channel c).readLock = (m.channel c).readLock := by
  cases h with
  | connectStart d =>
      rw [connectStart_eq]
      exact modify_field Channel.readLock m d c _ rfl
  | connectReturn d => exact modify_field Channel.readLock m d c _ rfl
  | _ => rfl

end Steps

section Locks

variable {registered : Bool} {T : Type*} [DecidableEq T] [Fintype T] {role : T → Role}
  {s s' : State T} {c : ChannelId}

/-- Who has taken a read lock is about to give it back. -/
theorem exists_reads (hr : (system role registered).Reachable s)
    (hlock : (s.mem.channel c).readLock) : ∃ u, (s.points u).reads = some c := by
  have hI : (s.mem.channel c).readLock → ∃ u, (s.points u).reads = some c := by
    apply hr.invariant (I := fun s => (s.mem.channel c).readLock → ∃ u, (s.points u).reads = some c)
    · exact fun h => nomatch h
    · intro s a s' _ hI _ hs hlock
      rcases next_cases hs with ⟨t, choice, m', p', -, -, hact, rfl⟩ | ⟨-, hout, hpoints⟩
      · rcases act_readLock hact hlock with hreads | ⟨hold, hnot⟩
        · exact ⟨t, by simpa only [Function.update_self] using hreads⟩
        · obtain ⟨u, hu⟩ := hI hold
          have hne : u ≠ t := by
            rintro rfl
            exact hnot hu
          exact ⟨u, by simpa only [Function.update_of_ne hne] using hu⟩
      · rw [hpoints]
        exact hI (hout.readLock c ▸ hlock)
  exact hI hlock

/-- Nobody reads from a channel that a thread has taken out of the map. -/
theorem not_readLock (hr : (system role registered).Reachable s) {t : T}
    (hcarry : (s.points t).carries = some c) : (s.mem.channel c).readLock = false := by
  by_contra hlock
  obtain ⟨u, hu⟩ := exists_reads hr (Bool.not_eq_false _ ▸ hlock)
  have hvisits : (s.points u).visits = some c := by
    cases hp : s.points u <;> rw [hp] at hu <;> first | exact hu | cases hu
  obtain ⟨e, he, hec⟩ := (scanning_of_reachable hr u).visits c hvisits
  exact (custody_of_reachable hr).apart t c hcarry e he hec

end Locks

/-! ### The steps of the pass -/

/-- How many steps `closeClient` and the return to the sweep take from here. -/
def Closing.rank : Closing → ℕ
  | .unlock => 7
  | .invoke => 6
  | .callback => 5
  | .shutdown => 4
  | .close => 3
  | .destroy => 2

/-- Nothing changes but the one channel and the descriptors. -/
structure OnlyChannel (c : ChannelId) (m m' : Mem) : Prop where
  clients : m'.clients = m.clients
  active : m'.active = m.active
  channel : ∀ d, d ≠ c → m'.channel d = m.channel d

section Closing

variable {registered : Bool} {m m' : Mem} {p' : Point} {choice : Choice} {c : ChannelId} {fd : Fd}
  {caller : Caller} {phase : Closing}

theorem onlyChannel_modify (m : Mem) (c : ChannelId) (f : Channel → Channel) :
    OnlyChannel c m (m.modify c f) :=
  ⟨rfl, rfl, fun _ hd => Function.update_of_ne hd ..⟩

theorem SameMap.refl (m : Mem) : SameMap m m := ⟨rfl, fun _ _ => rfl⟩

theorem OnlyChannel.sameMap (h : OnlyChannel c m m') (hc : ∀ e ∈ m.clients, e.2 ≠ c) :
    SameMap m m' := by
  refine ⟨h.clients, fun e he => ?_⟩
  rw [Mem.isActive, Mem.isActive, h.channel e.2 (hc e he), h.active]

/-- Once the channel is out of the map, `closeClient` goes on to its end. -/
theorem act_closing (howner : phase.rank ∈ [3, 4] → m.owner fd = some (.connection c))
    (hact : act registered m (.closing phase c fd caller) choice = some (m', p')) :
    OnlyChannel c m m' ∧
      ((∃ phase', p' = .closing phase' c fd caller ∧ phase'.rank < phase.rank) ∨
        phase = .destroy ∧ m' = m.destroy c ∧ p' = caller.resume) := by
  have hsame : OnlyChannel c m m := ⟨rfl, rfl, fun _ _ => rfl⟩
  cases phase with
  | unlock =>
      cases choice <;> simp only [act, Option.some.injEq, Prod.mk.injEq, reduceCtorEq] at hact
      obtain ⟨rfl, rfl⟩ := hact
      exact ⟨hsame, Or.inl ⟨.invoke, rfl, by decide⟩⟩
  | invoke =>
      cases choice <;> simp only [act, reduceCtorEq] at hact
      split_ifs at hact
      · obtain ⟨rfl, rfl⟩ := Prod.mk.inj (Option.some.inj hact)
        exact ⟨onlyChannel_modify m c _, Or.inl ⟨.callback, rfl, by decide⟩⟩
      · obtain ⟨rfl, rfl⟩ := Prod.mk.inj (Option.some.inj hact)
        exact ⟨hsame, Or.inl ⟨.shutdown, rfl, by decide⟩⟩
  | callback =>
      cases choice <;> simp only [act, Option.some.injEq, Prod.mk.injEq, reduceCtorEq] at hact
      obtain ⟨rfl, rfl⟩ := hact
      exact ⟨hsame, Or.inl ⟨.shutdown, rfl, by decide⟩⟩
  | shutdown =>
      cases choice <;> simp only [act, Option.some.injEq, Prod.mk.injEq, reduceCtorEq] at hact
      obtain ⟨rfl, rfl⟩ := hact
      rw [shutdown_eq (howner (by decide))]
      exact ⟨onlyChannel_modify m c _, Or.inl ⟨.close, rfl, by decide⟩⟩
  | close =>
      cases choice <;> simp only [act, Option.some.injEq, Prod.mk.injEq, reduceCtorEq] at hact
      obtain ⟨rfl, rfl⟩ := hact
      rw [close_eq (howner (by decide))]
      have hmodify := onlyChannel_modify { m with owner := Function.update m.owner fd none } c
        fun ch => { ch with closes := ch.closes + 1 }
      exact ⟨⟨hmodify.clients, hmodify.active, hmodify.channel⟩, Or.inl ⟨.destroy, rfl, by decide⟩⟩
  | destroy =>
      cases choice <;> simp only [act, reduceCtorEq] at hact
      split_ifs at hact
      obtain ⟨rfl, rfl⟩ := Prod.mk.inj (Option.some.inj hact)
      exact ⟨onlyChannel_modify m c _, Or.inr ⟨rfl, rfl, rfl⟩⟩

theorem successor_append {e : Entry} {before after : List Entry} (h : e ∉ before) :
    Mem.successor e (before ++ e :: after) = after.head? := by
  induction before with
  | nil => simp only [List.nil_append, Mem.successor, if_pos]
  | cons x before ih =>
      obtain ⟨hx, hbefore⟩ := List.ne_and_not_mem_of_not_mem_cons h
      rw [List.cons_append, Mem.successor, if_neg hx.symm, ih hbefore]

end Closing

/-- The iterator is past the entries `done`, and has yet to come to `todo`. The channels of the
inactive entries of `closed` are closed for good. -/
structure Visited {T : Type*} (registered : Bool) (active : Entry → Bool)
    (all done closed todo : List Entry) (s : State T) : Prop where
  all : all = done ++ todo
  clients : s.mem.clients = done.filter active ++ todo
  flags : ∀ e ∈ s.mem.clients, s.mem.isActive e.2 = active e
  closed : ∀ e ∈ closed, active e = false →
    Forgotten s.mem s.points e.2 ∧ (s.mem.channel e.2).tally = .closed registered

/-- Where the thread is in the pass, and how many steps it will take at most. -/
def PassPoint (active : Entry → Bool) (done closed todo : List Entry) (n : ℕ) : Point → Prop
  | .sweepBegin => done = [] ∧ closed = [] ∧ n = 11 * todo.length + 2
  | .sweepNext it => done = closed ∧ it = todo.head? ∧ n = 11 * todo.length + 1
  | .sweepTest e it =>
      done = closed ∧ ∃ rest, todo = e :: rest ∧ it = rest.head? ∧ n = 11 * rest.length + 11
  | .sweepSelect e it =>
      done = closed ∧ ∃ rest, todo = e :: rest ∧ it = rest.head? ∧ active e = false ∧
        n = 11 * rest.length + 10
  | .closeAcquire fd (.threadLoop it) =>
      done = closed ∧ ∃ e rest, todo = e :: rest ∧ fd = e.1 ∧ it = rest.head? ∧ active e = false ∧
        n = 11 * rest.length + 9
  | .closeFind fd (.threadLoop it) =>
      done = closed ∧ ∃ e rest, todo = e :: rest ∧ fd = e.1 ∧ it = rest.head? ∧ active e = false ∧
        n = 11 * rest.length + 8
  | .closing phase c fd (.threadLoop it) =>
      ∃ e, done = closed ++ [e] ∧ c = e.2 ∧ fd = e.1 ∧ it = todo.head? ∧ active e = false ∧
        n = 11 * todo.length + phase.rank
  | .accept => done = closed ∧ todo = [] ∧ n = 0
  | _ => False

/-- The thread has begun its pass with the entries `all`, and takes at most `n` more steps. -/
def Pass {T : Type*} (registered : Bool) (active : Entry → Bool) (all : List Entry) (t : T) (n : ℕ)
    (s : State T) : Prop :=
  ∃ done closed todo, Visited registered active all done closed todo s ∧
    PassPoint active done closed todo n (s.points t)

section Pass

variable {registered : Bool} {T : Type*} {active : Entry → Bool}
  {all done closed todo : List Entry} {s s' : State T} {t : T} {n : ℕ} {e : Entry}

/-- The iterator moves past an active entry. -/
theorem Visited.keep (h : Visited registered active all done done (e :: todo) s)
    (hactive : active e = true) :
    Visited registered active all (done ++ [e]) (done ++ [e]) todo s := by
  refine ⟨?_, ?_, h.flags, fun e' he' hinactive => ?_⟩
  · rw [h.all, List.append_cons]
  · rw [h.clients, List.filter_append, List.filter_singleton, hactive, List.append_cons]
    rfl
  · rcases List.mem_append.mp he' with hold | hnew
    · exact h.closed e' hold hinactive
    · obtain rfl := List.mem_singleton.mp hnew
      rw [hactive] at hinactive
      cases hinactive

/-- A key is looked up by its only entry. -/
theorem Custody.find_eq {m : Mem} {points : T → Point} (h : Custody registered m points)
    (he : e ∈ m.clients) : m.find e.1 = some e := by
  cases hfind : m.find e.1 with
  | none => exact absurd (List.mem_map_of_mem he) (find_none hfind)
  | some e' =>
      obtain ⟨he', hkey⟩ := find_some hfind
      exact congrArg some (List.inj_on_of_nodup_map h.keys he' he hkey)

/-- The client of an inactive entry is taken out of the map. -/
theorem Visited.erase (h : Visited registered active all done done (e :: todo) s)
    (hcustody : Custody registered s.mem s.points) (hinactive : active e = false)
    (hmem : s'.mem = s.mem.erase e)
    (hclosed : ∀ e' ∈ done, active e' = false → Forgotten s'.mem s'.points e'.2 ∧
      (s'.mem.channel e'.2).tally = .closed registered) :
    Visited registered active all (done ++ [e]) done todo s' := by
  have hnodup := hcustody.nodup
  rw [h.clients] at hnodup
  have hdone : e ∉ done.filter active :=
    fun hmem => (List.disjoint_of_nodup_append hnodup) hmem List.mem_cons_self
  refine ⟨?_, ?_, fun e' he' => ?_, hclosed⟩
  · rw [h.all, List.append_cons]
  · have hclients : (s.mem.erase e).clients = s.mem.clients.erase e := rfl
    rw [hmem, hclients, h.clients, List.erase_append_right _ hdone, List.erase_cons_head,
      List.filter_append]
    simp [hinactive]
  · rw [hmem] at he' ⊢
    have hold : e' ∈ s.mem.clients := List.mem_of_mem_erase he'
    rw [← h.flags e' hold, Mem.isActive, Mem.isActive]
    exact congrArg (· && s.mem.active)
      (modify_field Channel.active { s.mem with clients := s.mem.clients.erase e } e.2 e'.2 _ rfl)

/-- The client of an inactive entry is closed. -/
theorem Visited.close (h : Visited registered active all (closed ++ [e]) closed todo s)
    (hforgotten : Forgotten s.mem s.points e.2)
    (htally : (s.mem.channel e.2).tally = .closed registered) :
    Visited registered active all (closed ++ [e]) (closed ++ [e]) todo s := by
  refine ⟨h.all, h.clients, h.flags, fun e' he' hinactive => ?_⟩
  rcases List.mem_append.mp he' with hold | hnew
  · exact h.closed e' hold hinactive
  · obtain rfl := List.mem_singleton.mp hnew
    exact ⟨hforgotten, htally⟩

/-- The active entries stay in the map. -/
theorem Visited.mem (h : Visited registered active all done closed todo s) (he : e ∈ all)
    (hactive : active e = true) : e ∈ s.mem.clients := by
  rw [h.all] at he
  rw [h.clients]
  rcases List.mem_append.mp he with hdone | htodo
  · exact List.mem_append_left todo (List.mem_filter.mpr ⟨hdone, hactive⟩)
  · exact List.mem_append_right _ htodo

theorem pass_begin (hp : s.points t = .sweepBegin) :
    Pass registered (fun e => s.mem.isActive e.2) s.mem.clients t
      (11 * s.mem.clients.length + 2) s := by
  refine ⟨[], [], s.mem.clients, ⟨rfl, rfl, fun _ _ => rfl, nofun⟩, ?_⟩
  rw [hp]
  exact ⟨rfl, rfl, rfl⟩

variable [DecidableEq T] [Fintype T] {role : T → Role} {a : Label T} {choice : Choice}

theorem Visited.closed_next (h : Visited registered active all done closed todo s)
    (hr : (system role registered).Reachable s) (hs : next registered s a = some s') :
    ∀ e ∈ closed, active e = false → Forgotten s'.mem s'.points e.2 ∧
      (s'.mem.channel e.2).tally = .closed registered := by
  intro e he hinactive
  obtain ⟨hforgotten, htally⟩ := h.closed e he hinactive
  obtain ⟨hforgotten', htally'⟩ := hforgotten.next hr hs
  exact ⟨hforgotten', htally'.trans htally⟩

theorem Visited.next (h : Visited registered active all done closed todo s)
    (hr : (system role registered).Reachable s) (hs : next registered s a = some s')
    (hmap : SameMap s.mem s'.mem) : Visited registered active all done closed todo s' := by
  refine ⟨h.all, hmap.clients.trans h.clients, fun e he => ?_, h.closed_next hr hs⟩
  rw [hmap.clients] at he
  exact (hmap.flags e he).trans (h.flags e he)

/-- A step of another thread that leaves the map alone is none of the pass's business. -/
theorem Pass.other (h : Pass registered active all t n s)
    (hr : (system role registered).Reachable s) (hs : next registered s a = some s')
    (hmap : SameMap s.mem s'.mem) (hpoint : s'.points t = s.points t) :
    Pass registered active all t n s' := by
  obtain ⟨done, closed, todo, hvisited, hp⟩ := h
  exact ⟨done, closed, todo, hvisited.next hr hs hmap, hpoint ▸ hp⟩

/-- A step of the pass within `closeClient`, past the lock, goes on there or ends it. It changes the
channel of an inactive entry. -/
theorem Pass.closes (h : Pass registered active all t n s)
    (hr : (system role registered).Reachable s) {phase : Closing} {c : ChannelId} {fd : Fd}
    {it : Option Entry} (hpt : s.points t = .closing phase c fd (.threadLoop it))
    (hs : next registered s (.thread t choice) = some s') :
    (∃ n', Pass registered active all t n' s' ∧ n' < n) ∧
      (∀ e ∈ all, active e = true → s'.mem.channel e.2 = s.mem.channel e.2) ∧
      ∃ e ∈ all, active e = false := by
  have hcustody := custody_of_reachable hr
  obtain ⟨-, m', p', hact, rfl⟩ := next_thread hs
  obtain ⟨done, closed, todo, hv, hp⟩ := h
  have hself : Function.update s.points t p' t = p' := Function.update_self ..
  rw [hpt] at hp
  obtain ⟨e, rfl, rfl, rfl, rfl, hactive, rfl⟩ := hp
  have hcarry : (s.points t).carries = some e.2 := by rw [hpt]; rfl
  have hanswers := hcustody.answers t e.2 hcarry
  have hapart := hcustody.apart t e.2 hcarry
  rw [hpt] at hact hanswers
  have howner : phase.rank ∈ [3, 4] → s.mem.owner e.1 = some (.connection e.2) := by
    intro hphase
    rw [← hanswers.number e.1 rfl]
    apply hanswers.owner
    cases phase <;> first | rfl | exact absurd hphase (by decide)
  obtain ⟨honly, hgo⟩ := act_closing howner hact
  have hnext := hv.next hr hs (honly.sameMap hapart)
  refine ⟨?_, fun e' he' hactive' => ?_, e, ?_, hactive⟩
  · rcases hgo with ⟨phase', rfl, hrank⟩ | ⟨rfl, rfl, rfl⟩
    · refine ⟨11 * todo.length + phase'.rank, ⟨closed ++ [e], closed, todo, hnext, ?_⟩, ?_⟩
      · simp only [hself]
        exact ⟨e, rfl, rfl, rfl, rfl, hactive, rfl⟩
      · omega
    · refine ⟨11 * todo.length + 1, ⟨closed ++ [e], closed ++ [e], todo, ?_, ?_⟩, ?_⟩
      · apply hnext.close
        · refine ⟨hanswers.accepted, fun u => ?_, hapart⟩
          by_cases hu : u = t
          · subst u
            simp only [hself]
            exact Option.some_ne_none _ ∘ Eq.symm
          · simp only [Function.update_of_ne hu]
            exact fun hu' => hu (hcustody.unique u t e.2 hu' hcarry)
        · have hdestroy : SameCustody s.mem (s.mem.destroy e.2) :=
            sameCustody_modify s.mem e.2 _ rfl rfl
          exact (hdestroy.spares e.2).tally.trans hanswers.tally
      · simp only [hself]
        exact ⟨rfl, rfl, rfl⟩
      · simp only [Closing.rank]
        omega
  · exact honly.channel e'.2 (hapart e' (hv.mem he' hactive'))
  · rw [hv.all]
    simp

/-- A step of the pass brings it on. It changes the channel of an inactive entry, if any. -/
theorem Pass.step (h : Pass registered active all t n s)
    (hr : (system role registered).Reachable s) (hin : (s.points t).inThreadLoop)
    (hs : next registered s (.thread t choice) = some s') :
    (∃ n', Pass registered active all t n' s' ∧ n' < n) ∧
      (∀ e ∈ all, active e = true → s'.mem.channel e.2 = s.mem.channel e.2) ∧
      (s'.mem = s.mem ∨ ∃ e ∈ all, active e = false) := by
  have hcustody := custody_of_reachable hr
  obtain ⟨-, m', p', hact, rfl⟩ := next_thread hs
  obtain ⟨done, closed, todo, hv, hp⟩ := h
  have hself : Function.update s.points t p' t = p' := Function.update_self ..
  -- the steps that only move the thread
  have hmove : m' = s.mem → ∀ done closed todo n',
      Visited registered active all done closed todo s →
      PassPoint active done closed todo n' p' → n' < n →
      (∃ n', Pass registered active all t n' ⟨m', Function.update s.points t p'⟩ ∧ n' < n) ∧
        (∀ e ∈ all, active e = true → m'.channel e.2 = s.mem.channel e.2) ∧
        (m' = s.mem ∨ ∃ e ∈ all, active e = false) := by
    rintro rfl done closed todo n' hv' hp' hn
    refine ⟨⟨n', ⟨done, closed, todo, hv'.next hr hs (SameMap.refl _), ?_⟩, hn⟩,
      fun _ _ _ => rfl, Or.inl rfl⟩
    simpa only [hself] using hp'
  cases hpt : s.points t with
  | sweepBegin =>
      rw [hpt] at hp hact
      obtain ⟨rfl, rfl, rfl⟩ := hp
      cases choice <;> simp only [act, Option.some.injEq, Prod.mk.injEq, reduceCtorEq] at hact
      obtain ⟨rfl, rfl⟩ := hact
      refine hmove rfl [] [] todo _ hv ⟨rfl, ?_, rfl⟩ (by omega)
      rw [hv.clients]
      rfl
  | sweepNext it =>
      rw [hpt] at hp hact
      obtain ⟨rfl, rfl, rfl⟩ := hp
      cases todo with
      | nil =>
          cases choice <;> simp only [List.head?_nil, act, Option.some.injEq, Prod.mk.injEq,
            reduceCtorEq] at hact
          obtain ⟨rfl, rfl⟩ := hact
          exact hmove rfl done done [] 0 hv ⟨rfl, rfl, rfl⟩ (by simp)
      | cons e rest =>
          cases choice <;> simp only [List.head?_cons, act, reduceCtorEq] at hact
          split_ifs at hact with hread
          have he : e ∈ s.mem.clients := hv.clients ▸ List.mem_append_right _ List.mem_cons_self
          obtain ⟨rfl, rfl⟩ := hread he
          obtain ⟨rfl, rfl⟩ := Prod.mk.inj (Option.some.inj hact)
          refine hmove rfl done done (_ :: rest) (11 * rest.length + 11) hv
            ⟨rfl, rest, rfl, ?_, rfl⟩ (by simp; omega)
          rw [hv.clients]
          apply successor_append
          have hnodup := hcustody.nodup
          rw [hv.clients] at hnodup
          exact fun hmem => (List.disjoint_of_nodup_append hnodup) hmem List.mem_cons_self
  | sweepTest e it =>
      rw [hpt] at hp hact
      obtain ⟨rfl, rest, rfl, rfl, rfl⟩ := hp
      cases choice <;> simp only [act, reduceCtorEq] at hact
      obtain ⟨htest, hact⟩ := Option.ite_none_right_eq_some.mp hact
      have he : e ∈ s.mem.clients := hv.clients ▸ List.mem_append_right _ List.mem_cons_self
      obtain rfl := htest he
      obtain ⟨rfl, rfl⟩ := Prod.mk.inj (Option.some.inj hact)
      cases hactive : active e with
      | true =>
          refine hmove rfl _ _ rest (11 * rest.length + 1) (hv.keep hactive) ?_ (by omega)
          rw [hv.flags e he, hactive]
          exact ⟨rfl, rfl, rfl⟩
      | false =>
          refine hmove rfl done done (e :: rest) (11 * rest.length + 10) hv ?_ (by omega)
          rw [hv.flags e he, hactive]
          exact ⟨rfl, rest, rfl, rfl, hactive, rfl⟩
  | sweepSelect e it =>
      rw [hpt] at hp hact
      obtain ⟨rfl, rest, rfl, rfl, hactive, rfl⟩ := hp
      cases choice <;> simp only [act, reduceCtorEq] at hact
      split_ifs at hact with hselect
      have he : e ∈ s.mem.clients := hv.clients ▸ List.mem_append_right _ List.mem_cons_self
      obtain ⟨rfl, rfl⟩ := Prod.mk.inj (Option.some.inj hact)
      refine hmove rfl done done (e :: rest) (11 * rest.length + 9) hv
        ⟨rfl, e, rest, rfl, ?_, rfl, hactive, rfl⟩ (by omega)
      exact (hselect he).trans (hcustody.listed e he).descriptor
  | closeAcquire fd caller =>
      rw [hpt] at hp hact
      cases caller with
      | threadLoop it =>
          obtain ⟨rfl, e, rest, rfl, rfl, rfl, hactive, rfl⟩ := hp
          cases choice <;> simp only [act, Option.some.injEq, Prod.mk.injEq, reduceCtorEq] at hact
          obtain ⟨rfl, rfl⟩ := hact
          exact hmove rfl done done (e :: rest) (11 * rest.length + 8) hv
            ⟨rfl, e, rest, rfl, rfl, rfl, hactive, rfl⟩ (by omega)
      | _ => cases hp
  | closeFind fd caller =>
      rw [hpt] at hp hact
      cases caller with
      | threadLoop it =>
          obtain ⟨rfl, e, rest, rfl, rfl, rfl, hactive, rfl⟩ := hp
          have he : e ∈ s.mem.clients := hv.clients ▸ List.mem_append_right _ List.mem_cons_self
          have hfind := hcustody.find_eq he
          cases choice <;> simp only [act, hfind, Option.some.injEq, Prod.mk.injEq,
            reduceCtorEq] at hact
          obtain ⟨rfl, rfl⟩ := hact
          have hchannel : ∀ d, d ≠ e.2 → (s.mem.erase e).channel d = s.mem.channel d :=
            fun d hd => Function.update_of_ne hd ..
          refine ⟨⟨11 * rest.length + 7, ⟨done ++ [e], done, rest, ?_, ?_⟩, by omega⟩, ?_, ?_⟩
          · exact hv.erase hcustody hactive rfl (hv.closed_next hr hs)
          · simp only [hself]
            exact ⟨e, rfl, rfl, rfl, rfl, hactive, rfl⟩
          · intro e' he' hactive'
            apply hchannel
            intro hid
            obtain rfl := hcustody.entry_unique he (hv.mem he' hactive') hid
            rw [hactive] at hactive'
            cases hactive'
          · exact Or.inr ⟨e, hv.all ▸ List.mem_append_right _ List.mem_cons_self, hactive⟩
      | _ => cases hp
  | closing phase c fd caller =>
      cases caller with
      | threadLoop it =>
          have hpass : Pass registered active all t n s := ⟨done, closed, todo, hv, hp⟩
          obtain ⟨hstep, hspared, hinactive⟩ := hpass.closes hr hpt hs
          exact ⟨hstep, hspared, Or.inr hinactive⟩
      | _ =>
          rw [hpt] at hp
          cases hp
  | accept =>
      rw [hpt] at hin
      cases hin
  | _ =>
      rw [hpt] at hp
      cases hp

/-- In its pass the thread can take a step, unless it waits for the lock. -/
theorem Pass.proceeds (h : Pass registered active all t n s)
    (hr : (system role registered).Reachable s) (hne : s.points t ≠ .accept) :
    (∃ choice s', next registered s (.thread t choice) = some s') ∨
      ((s.points t).asksExclusive ∧
        ∃ u, (s.points u).holdsExclusive ∨ (s.points u).holdsShared) := by
  have hgo : ∀ choice r, s.admits t → act registered s.mem (s.points t) choice = some r →
      ∃ choice s', next registered s (.thread t choice) = some s' := by
    intro choice r hadmits hact
    refine ⟨choice, ⟨r.1, Function.update s.points t r.2⟩, ?_⟩
    rw [next, if_pos hadmits, hact]
    rfl
  have hadmits : (s.points t).asksExclusive = false → (s.points t).inThreadLoop → s.admits t := by
    intro hasks hin
    unfold State.admits
    cases hpt : s.points t <;> simp_all [Point.asksExclusive, Point.inThreadLoop]
  obtain ⟨done, closed, todo, hv, hp⟩ := h
  cases hpt : s.points t with
  | sweepBegin =>
      rw [hpt] at hgo hadmits
      exact Or.inl (hgo .go _ (hadmits rfl rfl) rfl)
  | sweepNext it =>
      rw [hpt] at hgo hadmits
      cases it with
      | none => exact Or.inl (hgo .go _ (hadmits rfl rfl) rfl)
      | some e =>
          exact Or.inl (hgo (.read e (Mem.successor e s.mem.clients)) _ (hadmits rfl rfl)
            (if_pos (fun _ => ⟨rfl, rfl⟩)))
  | sweepTest e it =>
      rw [hpt] at hgo hadmits
      exact Or.inl (hgo (.test (s.mem.isActive e.2)) _ (hadmits rfl rfl) (if_pos (fun _ => rfl)))
  | sweepSelect e it =>
      rw [hpt] at hgo hadmits
      exact Or.inl (hgo (.select (s.mem.channel e.2).clientDescriptor) _ (hadmits rfl rfl)
        (if_pos (fun _ => rfl)))
  | closeAcquire fd caller =>
      by_cases hfree : s.admits t
      · rw [hpt] at hgo
        exact Or.inl (hgo .go _ hfree rfl)
      · refine Or.inr ⟨rfl, ?_⟩
        simp only [State.admits, hpt, not_forall, not_and_or, Bool.not_eq_false] at hfree
        exact hfree
  | closeFind fd caller =>
      rw [hpt] at hp hgo hadmits
      cases caller with
      | threadLoop it =>
          obtain ⟨rfl, e, rest, rfl, rfl, rfl, hactive, rfl⟩ := hp
          have he : e ∈ s.mem.clients := hv.clients ▸ List.mem_append_right _ List.mem_cons_self
          refine Or.inl (hgo .go (s.mem.erase e, .closing .unlock e.2 e.1 (.threadLoop rest.head?))
            (hadmits rfl rfl) ?_)
          simp only [act, (custody_of_reachable hr).find_eq he]
      | _ => cases hp
  | closing phase c fd caller =>
      have hlock := not_readLock hr (c := c) (t := t) (by rw [hpt]; rfl)
      rw [hpt] at hp hgo hadmits
      cases caller with
      | threadLoop it =>
          cases phase with
          | invoke =>
              by_cases hregistered : registered
              · exact Or.inl (hgo .go _ (hadmits rfl rfl) (if_pos hregistered))
              · exact Or.inl (hgo .go _ (hadmits rfl rfl) (if_neg hregistered))
          | destroy =>
              exact Or.inl (hgo .go _ (hadmits rfl rfl) (if_neg (by simp [hlock])))
          | _ => exact Or.inl (hgo .go _ (hadmits rfl rfl) rfl)
      | _ => cases hp
  | accept => exact absurd hpt hne
  | _ =>
      rw [hpt] at hp
      cases hp

theorem PassPoint.inThreadLoop {p : Point} (h : PassPoint active done closed todo n p)
    (hne : p ≠ .accept) : p.inThreadLoop := by
  cases p with
  | accept => exact absurd rfl hne
  | closeAcquire fd caller => cases caller <;> first | rfl | cases h
  | closeFind fd caller => cases caller <;> first | rfl | cases h
  | closing phase c fd caller => cases caller <;> first | rfl | cases h
  | _ => first | rfl | cases h

/-! ### A whole pass -/

/-- What a whole pass has done to the map and to the channels. -/
structure Swept (registered : Bool) (m m' : Mem) : Prop where
  clients : m'.clients = m.clients.filter fun e => m.isActive e.2
  kept : ∀ e ∈ m'.clients, m'.isActive e.2 = true ∧ (m'.channel e.2).clientDescriptor = e.1 ∧
    m'.owner e.1 = some (.connection e.2)
  removed : ∀ e ∈ m.clients, m.isActive e.2 = false →
    (m.channel e.2).tally = .untouched ∧ (m'.channel e.2).tally = .closed registered

/-- At its end the pass has swept the map. -/
theorem Pass.swept {m : Mem} (h : Pass registered (fun e => m.isActive e.2) m.clients t n s)
    (hr : (system role registered).Reachable s) (hend : s.points t = .accept)
    (huntouched : ∀ e ∈ m.clients, (m.channel e.2).tally = .untouched) :
    Swept registered m s.mem := by
  obtain ⟨done, closed, todo, hv, hp⟩ := h
  rw [hend] at hp
  obtain ⟨rfl, rfl, -⟩ := hp
  have hall : m.clients = done := hv.all.trans (List.append_nil done)
  have hclients : s.mem.clients = m.clients.filter fun e => m.isActive e.2 := by
    rw [hv.clients, hall, List.append_nil]
  refine ⟨hclients, fun e he => ?_, fun e he hinactive => ⟨huntouched e he, ?_⟩⟩
  · have hl := (custody_of_reachable hr).listed e he
    refine ⟨?_, hl.descriptor, hl.owner⟩
    have hkept := hclients ▸ he
    exact (hv.flags e he).trans (List.mem_filter.mp hkept).2
  · exact (hv.closed e (hall ▸ he) hinactive).2

end Pass

end SocketLib.ServerSocket
