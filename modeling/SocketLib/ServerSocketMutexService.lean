import SocketLib.ServerSocketMutex
import SocketLib.ServerSocketService

/-!
# The workers of a server reach every channel

In a run in which no `lock` has to wait (`LocksAtOnce`), the threads that have access or are inside
the mutex can always be brought to rest: readers first, then the owner of `mutex_`, then writers,
then the readers that a notify has woken (`leads_to_rest`). At rest nobody sleeps, so a worker takes
the fast path of `lock_shared` and walks over the map to any given channel (`worker_reaches`).
-/

namespace SocketLib.ServerSocketMutex

open ExclusivePrioritySharedMutex (Access FastAddClear Handover FoundFree Own Pc Thread
  WriterFindsFree WriterPasses advance next_run next_notify notifies_cases setThread_ne
  setThread_self sharedWeight exclusiveWeight wake_cases)
open ServerCallbacks (acquiring callMutex)
open ServerSocket (Calm Entry Loop Point Role act)
open ThreadFamily (total total_update)

section Rules

variable {T : Type*}

/-- No fast-path increment is made beside a writer, and no `lock` has to wait. -/
abbrev LocksAtOnce (s : State T) (a : Label T) : Prop :=
  OnMutex (fun m b => WriterFindsFree m b ∧ FastAddClear m b) s a

theorem LocksAtOnce.apart {s : State T} {a : Label T} (h : LocksAtOnce s a) : Apart s a := by
  cases a with
  | mutex b => exact h.2
  | _ => trivial

/-- The thread takes a step, or one that has access or is inside the mutex does. No stream is found
ended and no send fails, and nobody wakes up without having been notified. -/
def Towards (t : T) (s : State T) : Label T → Prop
  | .server (.thread u choice) => (u = t ∨ s.lock.threads u ≠ ⟨[], .outside⟩) ∧ Calm choice
  | .enter u => u = t
  | .mutex (.run _) | .mutex (.notify _ _) => True
  | _ => False

end Rules

/-! ### How much is left to do -/

/-- The steps of a writer up to the end of its `unlock`. -/
def writing (x : Point × Thread) : ℕ :=
  if x.2.held = [.exclusive] then x.1.critical + 6
  else match x.2.pc with
    | .lockAddRequest => 17
    | .lockAcquire => 16
    | .lockLoadShared => 15
    | .lockLoadCount => 14
    | .lockSubRequest => 13
    | .lockAddCount => 12
    | .lockRelease => 11
    | .unlockAcquire => 5
    | .unlockSub => 4
    | .unlockLoadWaiting => 3
    | .unlockNotify _ => 2
    | .unlockRelease => 1
    | _ => 0

/-- The steps of a worker with shared access up to the end of its pass over so many entries. -/
def passing (entries : ℕ) : Point → ℕ
  | .loopAcquire _ => 8 * entries + 3
  | p => p.rank

/-- The steps of a reader up to the end of its `unlock_shared`. A sleeper that is woken has more to
do; the notify that wakes it pays for that. -/
def reading (entries : ℕ) (x : Point × Thread) : ℕ :=
  if x.2.held = [.shared] then passing entries x.1 + 16
  else match x.2.pc with
    | .fastLoadRequests => 8 * entries + 42
    | .fastAdd => 8 * entries + 41
    | .slowAcquire | .slowWoken => 8 * entries + 40
    | .slowLoadRequests => 8 * entries + 39
    | .slowLoadCount => 8 * entries + 38
    | .slowAdd => 8 * entries + 37
    | .slowRelease => 8 * entries + 36
    | .slowWait => 8 * entries + 31
    | .slowAsleep => 8 * entries + 30
    | .unsharedSub => 15
    | .unsharedAcquire => 14
    | .unsharedLoadWaiting => 13
    | .unsharedNotify _ => 12
    | .unsharedRelease => 1
    | _ => 0

section Weights

variable {T : Type*} {t : T} {p p' : Point} {th th' : Thread} {n : ℕ}

theorem asks_of_acquiring {a : Access} (h : Linked p th) (ha : acquiring th.pc = some a) :
    asks p = some a := by
  have hpc : th.pc ≠ .outside := by
    intro hpc
    rw [hpc] at ha
    cases ha
  unfold Linked at h
  split at h
  · exact absurd (by rw [h]) hpc
  · rename_i b haccess hasks
    rcases h with hth | hth | ⟨-, hb⟩
    · exact absurd (by rw [hth]) hpc
    · exact absurd (by rw [hth]) hpc
    · rw [hasks, ← hb, ha]
  · rw [h.2] at ha
    cases ha

theorem passing_of_asks (h : asks p = some .shared) : passing n p = 8 * n + 3 := by
  cases p with
  | loopAcquire loop => rfl
  | _ => cases h

theorem loopAcquire_of_asks (h : asks p = some .shared) : ∃ loop, p = .loopAcquire loop := by
  cases p with
  | loopAcquire loop => exact ⟨loop, rfl⟩
  | _ => cases h

theorem holdsShared_of_access (h : access p = some .shared) : p.holdsShared := by
  unfold access at h
  split at h
  · cases h
  · split at h
    · assumption
    · cases h

theorem access_of_holdsShared (h : p.holdsShared) : access p = some .shared := by
  cases p <;> first
    | rfl
    | cases h

theorem holdsShared_of_scans {e : Entry} (h : e ∈ p.scans) : p.holdsShared := by
  cases p <;> first
    | rfl
    | cases h

theorem holdsShared_of_visits {c : ServerSocket.ChannelId} (h : p.visits = some c) :
    p.holdsShared := by
  cases p <;> first
    | rfl
    | cases h

theorem exclusive_cases
    (h : access p = some .exclusive ∨ access p = none ∧ asks p = some .exclusive) :
    p.asksExclusive ∨ p.holdsExclusive := by
  rcases h with h | ⟨-, h⟩
  · unfold access at h
    split at h
    · exact Or.inr ‹_›
    · split at h <;> cases h
  · unfold asks at h
    split at h
    · exact Or.inl ‹_›
    · split at h <;> cases h

theorem passing_of_holdsShared (h : p.holdsShared) : passing n p = p.rank := by
  cases p <;> first
    | rfl
    | cases h

theorem loop_of_holdsShared (h : p.holdsShared) :
    ∃ loop, p.loop = some loop ∧ p ≠ .loopAcquire loop ∧ p ≠ .loopTest loop := by
  cases p <;> first
    | exact ⟨_, rfl, Point.noConfusion, Point.noConfusion⟩
    | cases h

theorem critical_le (p : Point) : p.critical ≤ 3 := by
  cases p with
  | closing phase => cases phase <;> simp [Point.critical]
  | _ => simp [Point.critical]

/-- An atomic step inside the mutex leaves less to do, unless it makes a writer wait. -/
theorem advance_left {m m' : ExclusivePrioritySharedMutex.Mem T}
    (h : advance t m th = some (m', th')) (hl : Linked p th)
    (hwriter : th.pc ≠ .lockWait ∧ th.pc ≠ .lockAsleep ∧ th.pc ≠ .lockWoken)
    (hshared : th.pc = .lockLoadShared → m.sharedCount = 0)
    (hcount : th.pc = .lockLoadCount → m.exclusiveCount = 0) :
    writing (p, th') < writing (p, th) ∨
      writing (p, th') = writing (p, th) ∧ reading n (p, th') < reading n (p, th) := by
  have hpc : th.pc ≠ .outside := by
    intro hpc
    simp only [advance, hpc, reduceCtorEq] at h
  have hpass : acquiring th.pc = some .shared → passing n p = 8 * n + 3 :=
    fun ha => passing_of_asks (asks_of_acquiring hl ha)
  have hcritical := critical_le p
  have hheld := hl.held_eq_nil hpc
  obtain ⟨held, pc⟩ := th
  obtain rfl : held = [] := hheld
  cases pc <;>
    simp only [advance, Thread.goto, Thread.obtain, Option.map_eq_some_iff, Option.some.injEq,
      Prod.mk.injEq, reduceCtorEq] at h
  all_goals first
    | obtain ⟨-, rfl⟩ := h
    | obtain ⟨_, -, -, rfl⟩ := h
  -- what is left at the old point and at the new one are two numbers now
  all_goals try split_ifs
  all_goals simp_all [writing, reading, acquiring]
  all_goals omega

/-- Giving back what a thread has is the only call it makes from the server. -/
theorem gives_cases (p p' : Point) :
    gives p p' = none ∨
      ∃ a, access p = some a ∧ gives p p' = some (ServerCallbacks.unlockOp a) := by
  unfold gives
  split
  · rename_i a haccess _
    exact Or.inr ⟨a, haccess, rfl⟩
  · exact Or.inl rfl

end Weights

section Parts

variable {T : Type*}

/-- Where a thread is in the server and in the mutex. -/
def State.parts (s : State T) (t : T) : Point × Thread := (s.server.points t, s.lock.threads t)

variable [DecidableEq T] {t : T}

theorem parts_setThread (server : ServerSocket.State T) (m : ExclusivePrioritySharedMutex.State T)
    (t : T) (th : Thread) :
    State.parts ⟨server, m.setThread t th⟩ =
      Function.update (State.parts ⟨server, m⟩) t (server.points t, th) := by
  funext u
  by_cases hu : u = t
  · subst u
    simp [State.parts]
  · simp [State.parts, setThread_ne m th hu, Function.update_of_ne hu]

theorem parts_serve {points : T → Point} {m m' : ServerSocket.Mem} {p' : Point}
    {lock lock' : ExclusivePrioritySharedMutex.State T}
    (h : ∀ u, u ≠ t → lock'.threads u = lock.threads u) :
    State.parts ⟨⟨m', Function.update points t p'⟩, lock'⟩ =
      Function.update (State.parts ⟨⟨m, points⟩, lock⟩) t (p', lock'.threads t) := by
  funext u
  by_cases hu : u = t
  · subst u
    simp [State.parts]
  · simp [State.parts, h u hu, Function.update_of_ne hu]

end Parts

section Left

variable {T : Type*} [Fintype T]

/-- What is left to do, for the writers first. -/
def left (s : State T) : ℕ ×ₗ ℕ :=
  toLex (total writing s.parts, total (reading s.server.mem.clients.length) s.parts)

/-- The new part of a thread has less left to do than the old one. -/
def Lowers (n n' : ℕ) (x x' : Point × Thread) : Prop :=
  writing x' < writing x ∨ writing x' = writing x ∧ n' = n ∧ reading n x' < reading n x

variable [DecidableEq T] {s s' : State T} {t u : T}

theorem left_lt {x : Point × Thread} (hparts : s'.parts = Function.update s.parts t x)
    (h : Lowers s.server.mem.clients.length s'.server.mem.clients.length (s.parts t) x) :
    left s' < left s := by
  have hwriting := total_update writing s.parts t x
  have hreading := total_update (reading s.server.mem.clients.length) s.parts t x
  rw [left, left, Prod.Lex.toLex_lt_toLex, hparts]
  rcases h with hlt | ⟨heq, hn, hlt⟩
  · left
    dsimp only
    omega
  · right
    dsimp only
    rw [hn]
    omega

/-- The same where a thread is woken as well. -/
theorem left_lt_of_wake {x y : Point × Thread} (hne : u ≠ t)
    (hparts : s'.parts = Function.update (Function.update s.parts t x) u y)
    (hclients : s'.server.mem.clients = s.server.mem.clients)
    (hy : writing y = writing (s.parts u))
    (h : writing x < writing (s.parts t) ∨ writing x = writing (s.parts t) ∧
      reading s.server.mem.clients.length x + reading s.server.mem.clients.length y <
        reading s.server.mem.clients.length (s.parts t) +
          reading s.server.mem.clients.length (s.parts u)) : left s' < left s := by
  have hwriting := total_update writing s.parts t x
  have hreading := total_update (reading s.server.mem.clients.length) s.parts t x
  have hwriting' := total_update writing (Function.update s.parts t x) u y
  have hreading' := total_update (reading s.server.mem.clients.length)
    (Function.update s.parts t x) u y
  rw [Function.update_of_ne hne] at hwriting' hreading'
  rw [left, left, Prod.Lex.toLex_lt_toLex, hparts, hclients]
  rcases h with hlt | ⟨heq, hlt⟩
  · left
    dsimp only
    omega
  · right
    dsimp only
    omega

end Left

/-! ### Bringing the threads to rest -/

section Rest

variable {T : Type*} [DecidableEq T] [Fintype T] {role : T → Role} {registered : Bool}
  {s s' : State T} {t u : T}

theorem reachedBy_apart (hr : (system role registered).ReachedBy LocksAtOnce s) :
    (system role registered).ReachedBy Apart s :=
  hr.mono fun _ _ h => h.apart

/-- No writer waits, and where a reader sleeps somebody will wake it. -/
theorem handover_of_reachedBy (hr : (system role registered).ReachedBy LocksAtOnce s) :
    FoundFree s.lock ∧ Handover s.lock := by
  have hempty : (system role registered).ReachedBy (OnMutex fun m b => WriterFindsFree m b ∧
      ExclusivePrioritySharedMutex.SleepsEmptyHanded m b) s := by
    refine hr.imp fun s a hr hg => ?_
    cases a with
    | mutex b =>
        refine ⟨hg.1, ?_⟩
        cases b with
        | run u =>
            intro hpc
            exact (linked_of_reachable hr.reachable u).held_eq_nil (by simp [hpc])
        | _ => trivial
    | _ => trivial
  obtain ⟨hfound, hpasses⟩ := ExclusivePrioritySharedMutex.reachedBy_writerPasses
    (lock_reachedBy (fun _ _ _ => ⟨trivial, trivial⟩) hempty)
  exact ⟨hfound, ExclusivePrioritySharedMutex.handover_of_reachedBy hpasses⟩

/-- A step towards rest: one that leaves less to do. -/
def Settles (registered : Bool) (t : T) (s : State T) : Prop :=
  ∃ a s', (Towards t s a ∧ LocksAtOnce s a) ∧ next registered s a = some s' ∧ left s' < left s

/-- An atomic step of a thread inside the mutex. -/
theorem settles_run (hr : (system role registered).ReachedBy LocksAtOnce s)
    {m' : ExclusivePrioritySharedMutex.Mem T} {th' : Thread}
    (hadv : advance u s.lock.mem (s.lock.threads u) = some (m', th'))
    (hfree : WriterFindsFree s.lock (.run u)) (hclear : FastAddClear s.lock (.run u)) :
    Settles registered t s := by
  obtain ⟨hfound, hhandover⟩ := handover_of_reachedBy hr
  refine ⟨.mutex (.run u), _, ⟨trivial, hfree, hclear⟩,
    next_mutex (by simp) (ExclusivePrioritySharedMutex.next_of_advance hadv), ?_⟩
  refine left_lt (t := u) (parts_setThread s.server s.lock u th') ?_
  rcases advance_left (n := s.server.mem.clients.length) hadv (linked_of_reachable hr.reachable u)
    (hhandover.noWriter u) hfree.2 (fun hpc => hfound u (Or.inr hpc)) with hlt | ⟨heq, hlt⟩
  · exact Or.inl hlt
  · exact Or.inr ⟨heq, rfl, hlt⟩

/-- A notify, which only wakes readers. -/
theorem settles_notify (hr : (system role registered).ReachedBy LocksAtOnce s) {cv : Access}
    {pc : Pc} (hn : (s.lock.threads u).pc.notifies = some (cv, pc)) : Settles registered t s := by
  have ha := ExclusivePrioritySharedMutex.accounted_of_reachable (lock_reachable hr.reachable)
  obtain rfl := ha.notifies_shared hn
  have hheld : (s.lock.threads u).held = [] := by
    refine (linked_of_reachable hr.reachable u).held_eq_nil ?_
    rcases notifies_cases hn with ⟨hpc, -⟩ | ⟨hpc, -⟩ <;> simp [hpc]
  obtain ⟨woken, lock', hs⟩ := ExclusivePrioritySharedMutex.exists_notify hn
  refine ⟨.mutex (.notify u woken), _, ⟨trivial, trivial, trivial⟩, next_mutex (by simp) hs, ?_⟩
  obtain ⟨cv, pc', hn', hw⟩ := next_notify hs
  obtain ⟨rfl, rfl⟩ := Prod.mk.inj (Option.some.inj (hn.symm.trans hn'))
  have hweights : writing (s.server.points u, (s.lock.threads u).goto pc) <
      writing (s.server.points u, s.lock.threads u) ∨
      writing (s.server.points u, (s.lock.threads u).goto pc) =
        writing (s.server.points u, s.lock.threads u) ∧
      reading s.server.mem.clients.length (s.server.points u, (s.lock.threads u).goto pc) + 11 =
        reading s.server.mem.clients.length (s.server.points u, s.lock.threads u) := by
    rcases notifies_cases hn with ⟨hpc, rfl⟩ | ⟨hpc, rfl⟩
    · right
      simp [writing, reading, Thread.goto, hheld, hpc]
    · left
      simp [writing, Thread.goto, hheld, hpc]
  have hmid := parts_setThread s.server s.lock u ((s.lock.threads u).goto pc)
  rcases wake_cases hw with ⟨v, -, hv, rfl⟩ | ⟨-, -, rfl⟩
  · have hne : v ≠ u := by
      rintro rfl
      rw [setThread_self] at hv
      rcases notifies_cases hn with ⟨-, rfl⟩ | ⟨-, rfl⟩ <;> cases hv
    rw [setThread_ne s.lock _ hne] at hv ⊢
    have hheldv : (s.lock.threads v).held = [] :=
      (linked_of_reachable hr.reachable v).held_eq_nil (by simp [hv, Pc.asleep])
    refine left_lt_of_wake hne ((parts_setThread ..).trans (by rw [hmid])) rfl ?_ ?_
    · simp [State.parts, writing, Thread.goto, Pc.woken, Pc.asleep, hheldv, hv]
    · refine hweights.imp_right fun hpays => ⟨hpays.1, ?_⟩
      have hpaid := hpays.2
      have hsleeper : reading s.server.mem.clients.length
          (s.server.points v, (s.lock.threads v).goto (.woken .shared)) =
          reading s.server.mem.clients.length (s.parts v) + 10 := by
        simp [State.parts, reading, Thread.goto, Pc.woken, Pc.asleep, hheldv, hv]
      rw [hsleeper]
      change _ + (_ + 10) < reading _ (s.server.points u, s.lock.threads u) + _
      omega
  · refine left_lt hmid (hweights.imp_right fun hpays => ⟨hpays.1, rfl, ?_⟩)
    have hpaid := hpays.2
    change _ < reading _ (s.server.points u, s.lock.threads u)
    omega

/-- A step of a thread that has access, in the server. -/
theorem settles_serve (hr : (system role registered).ReachedBy LocksAtOnce s) {a : Access}
    (hth : s.lock.threads u = ⟨[a], .outside⟩) {choice : ServerSocket.Choice}
    {m' : ServerSocket.Mem} {p' : Point} (hcalm : Calm choice)
    (hneeds : ∀ b ∈ asks (s.server.points u), b = a) (hjoin : s.server.points u ≠ .destroyJoin)
    (hact : act registered s.server.mem (s.server.points u) choice = some (m', p'))
    (hgives : gives (s.server.points u) p' = none → Lowers s.server.mem.clients.length
      m'.clients.length (s.server.points u, ⟨[a], .outside⟩) (p', ⟨[a], .outside⟩))
    (hleaves : Lowers s.server.mem.clients.length m'.clients.length
      (s.server.points u, ⟨[a], .outside⟩)
      (p', ⟨[], if a = .shared then .unsharedSub else .unlockAcquire⟩)) :
    Settles registered t s := by
  have hl := linked_of_reachable hr.reachable u
  have hgoes : s.goes u := by
    refine ⟨by rw [hth], fun b hb => ?_, fun hp => absurd hp hjoin⟩
    rw [hth, hneeds b hb]
    exact List.mem_singleton_self a
  obtain ⟨lock', hcall, hs⟩ := exists_serve hl hgoes hact
  have htowards : Towards t s (.server (.thread u choice)) := by
    refine ⟨Or.inr ?_, hcalm⟩
    rw [hth]
    simp
  refine ⟨_, _, ⟨htowards, trivial⟩, hs, ?_⟩
  · refine left_lt (parts_serve fun v hv => ServerCallbacks.callMutex_threads_ne hcall hv) ?_
    change Lowers _ m'.clients.length (s.server.points u, s.lock.threads u) _
    rw [hth]
    rcases gives_cases (s.server.points u) p' with hnone | ⟨b, haccess, hsome⟩
    · rw [hnone] at hcall
      rw [(ServerCallbacks.callMutex_none hcall).2, hth]
      exact hgives hnone
    · have hab : b = a := by
        have hb := hl.of_access haccess
        rw [hth] at hb
        simpa using hb.symm
      subst b
      rw [hsome] at hcall
      obtain ⟨th', hbegin, rfl⟩ := ServerCallbacks.callMutex_some hcall
      rw [hth] at hbegin
      rw [setThread_self]
      cases a <;> obtain rfl := Option.some.inj hbegin <;> exact hleaves

/-- A worker with shared access goes on in its pass. -/
theorem settles_reader (hr : (system role registered).ReachedBy LocksAtOnce s)
    (hheld : .shared ∈ (s.lock.threads u).held) : Settles registered t s := by
  obtain ⟨hth, hpoint⟩ := (linked_of_reachable hr.reachable u).held hheld
  have hlower : ∀ {m' : ServerSocket.Mem} {p' : Point},
      m'.clients.length = s.server.mem.clients.length →
      passing s.server.mem.clients.length p' <
        passing s.server.mem.clients.length (s.server.points u) →
      Lowers s.server.mem.clients.length m'.clients.length
        (s.server.points u, ⟨[.shared], .outside⟩) (p', ⟨[.shared], .outside⟩) := by
    intro m' p' hn hlt
    refine Or.inr ⟨rfl, hn, ?_⟩
    simpa [reading] using hlt
  have hleaves : ∀ {m' : ServerSocket.Mem} {p' : Point},
      m'.clients.length = s.server.mem.clients.length →
      Lowers s.server.mem.clients.length m'.clients.length
        (s.server.points u, ⟨[.shared], .outside⟩) (p', ⟨[], .unsharedSub⟩) := by
    intro m' p' hn
    refine Or.inr ⟨rfl, hn, ?_⟩
    simp [reading]
  rcases hpoint with haccess | ⟨-, hasks⟩
  · have hholds := holdsShared_of_access haccess
    obtain ⟨loop, hloop, hacquire, htest⟩ := loop_of_holdsShared hholds
    obtain ⟨choice, m', p', hcalm, hact, hadvances⟩ :=
      ServerSocket.act_advances registered s.server.mem hloop hacquire (fun hp => absurd hp htest)
    have hlength := congrArg List.length hadvances.clients
    refine settles_serve hr hth hcalm ?_ ?_ hact (fun hgives => hlower hlength ?_) (hleaves hlength)
    · rw [asks_of_access haccess]
      exact nofun
    · intro hp
      rw [hp] at haccess
      cases haccess
    · have hfollows := act_follows hact
      simp only [Follows, haccess] at hfollows
      rcases hfollows with haccess' | ⟨haccess', -⟩
      · rw [passing_of_holdsShared hholds, passing_of_holdsShared (holdsShared_of_access haccess')]
        exact hadvances.rank
      · rw [gives, haccess, haccess'] at hgives
        cases hgives
  · obtain ⟨loop, hp⟩ := loopAcquire_of_asks hasks
    have hact : act registered s.server.mem (s.server.points u) .go =
        some (s.server.mem, .loopScan loop s.server.mem.clients) := by
      rw [hp]
      rfl
    have hcalm : Calm .go := trivial
    refine settles_serve hr hth hcalm ?_ ?_ hact (fun _ => hlower rfl ?_) (hleaves rfl)
    · rw [hasks]
      rintro b ⟨⟩
      rfl
    · rw [hp]
      exact Point.noConfusion
    · rw [hp]
      simp [passing, Point.rank]

/-- A thread with exclusive access goes on to give it back. -/
theorem settles_writer (hr : (system role registered).ReachedBy LocksAtOnce s)
    (hheld : .exclusive ∈ (s.lock.threads u).held) : Settles registered t s := by
  obtain ⟨hth, hpoint⟩ := (linked_of_reachable hr.reachable u).held hheld
  have hexclusive := exclusive_cases hpoint
  have hcustody := ServerSocket.custody_of_reachable (server_reachable (reachedBy_apart hr))
  obtain ⟨choice, m', p', hcalm, hact, hlt⟩ :=
    ServerSocket.act_releases registered s.server.mem hexclusive
      (fun c hp => (ServerSocket.descriptorDiscipline_of_custody hcustody).emplace u c hp)
  refine settles_serve hr hth hcalm ?_ ?_ hact (fun _ => Or.inl ?_) (Or.inl ?_)
  · intro b hb
    rcases hpoint with haccess | ⟨-, hasks⟩
    · rw [asks_of_access haccess] at hb
      cases hb
    · exact Option.some.inj (hb.symm.trans hasks)
  · intro hp
    rw [hp] at hexclusive
    rcases hexclusive with h | h <;> cases h
  · simpa [writing] using hlt
  · simp [writing]

/-- A reader that is in, or is just coming in or leaving. -/
theorem settles_counted (hr : (system role registered).ReachedBy LocksAtOnce s)
    (hu : 0 < sharedWeight (s.lock.threads u)) : Settles registered t s := by
  by_cases hheld : .shared ∈ (s.lock.threads u).held
  · exact settles_reader hr hheld
  · have hpc : (s.lock.threads u).pc = .slowRelease ∨ (s.lock.threads u).pc = .unsharedSub := by
      by_contra hpc
      simp [sharedWeight, List.count_eq_zero.mpr hheld, hpc] at hu
    have hadv : ∃ m' th', advance u s.lock.mem (s.lock.threads u) = some (m', th') := by
      rcases hpc with hpc | hpc <;> exact ⟨_, _, by rw [advance, hpc]⟩
    obtain ⟨m', th', hadv⟩ := hadv
    refine settles_run hr hadv ⟨fun h => ?_, fun h => ?_⟩ (fun h => ?_) <;>
      rcases hpc with hpc | hpc <;> simp [hpc] at h

/-- The owner of `mutex_`, when no reader is in. -/
theorem settles_owner (hr : (system role registered).ReachedBy LocksAtOnce s)
    (hshared : s.lock.mem.sharedCount = 0) (hu : (s.lock.threads u).pc.owns) :
    Settles registered t s := by
  cases hn : (s.lock.threads u).pc.notifies with
  | some r => exact settles_notify hr hn
  | none =>
      obtain ⟨m', th', hadv⟩ := ExclusivePrioritySharedMutex.advance_of_owns u s.lock.mem hu hn
      refine settles_run hr hadv ⟨fun hpc => ?_, fun _ => hshared⟩ (fun hpc => ?_)
      · rcases hpc with hpc | hpc <;> rw [hpc] at hu <;> cases hu
      · rw [hpc] at hu
        cases hu

/-- Anybody who is awake inside the mutex, when nobody owns `mutex_` or is in. -/
theorem settles_awake (hr : (system role registered).ReachedBy LocksAtOnce s)
    (hshared : s.lock.mem.sharedCount = 0) (hmutex : s.lock.mem.mutex = none)
    (hwriter : ∀ v, .exclusive ∉ (s.lock.threads v).held)
    (hpc : (s.lock.threads u).pc ≠ .outside) (hsleeps : (s.lock.threads u).pc.sleeps = false)
    (hcount : (s.lock.threads u).pc = .lockAcquire → s.lock.mem.exclusiveCount = 0) :
    Settles registered t s := by
  obtain ⟨-, hhandover⟩ := handover_of_reachedBy hr
  have ha := ExclusivePrioritySharedMutex.accounted_of_reachable (lock_reachable hr.reachable)
  cases hn : (s.lock.threads u).pc.notifies with
  | some r => exact settles_notify hr hn
  | none =>
      obtain ⟨m', th', hadv⟩ :=
        ExclusivePrioritySharedMutex.advance_of_free u hmutex hpc hsleeps hn
      refine settles_run hr hadv ⟨?_, fun _ => hshared⟩ (fun _ v _ hwindow => ?_)
      · rintro (hpc | hpc)
        · exact hcount hpc
        · exact absurd hpc (hhandover.noWriter u).2.2
      · rcases hwindow with hmem | hpc | hpc | hpc | ⟨hpc, -⟩
        · exact hwriter v hmem
        all_goals exact (ha.not_owns hmutex hpc rfl).elim

/-- Unless all threads are at rest, one of them can settle: a reader that is in, else the owner of
`mutex_`, else a writer that is in or leaves, else anybody who is awake. -/
theorem settles_of_not_rest (hr : (system role registered).ReachedBy LocksAtOnce s)
    (hrest : ¬ ∀ u, s.lock.threads u = ⟨[], .outside⟩) : Settles registered t s := by
  obtain ⟨-, hhandover⟩ := handover_of_reachedBy hr
  have ha := ExclusivePrioritySharedMutex.accounted_of_reachable (lock_reachable hr.reachable)
  by_cases hreader : ∃ u, 0 < sharedWeight (s.lock.threads u)
  · obtain ⟨u, hu⟩ := hreader
    exact settles_counted hr hu
  have hshared : s.lock.mem.sharedCount = 0 := by
    by_contra hne
    rw [ha.shared] at hne
    exact hreader (ThreadFamily.exists_pos_of_total_pos _ _ (by omega))
  cases hmutex : s.lock.mem.mutex with
  | some u => exact settles_owner hr hshared ((ha.owner u).mpr hmutex)
  | none =>
      by_cases hwriter : ∃ u, .exclusive ∈ (s.lock.threads u).held
      · obtain ⟨u, hu⟩ := hwriter
        exact settles_writer hr hu
      have hheld : ∀ u, (s.lock.threads u).held = [] := by
        intro u
        rw [List.eq_nil_iff_forall_not_mem]
        rintro (_ | _) hmem
        · exact hreader ⟨u, ExclusivePrioritySharedMutex.sharedWeight_pos hmem⟩
        · exact hwriter ⟨u, hmem⟩
      by_cases hleaver : ∃ u, (s.lock.threads u).pc = .unlockAcquire
      · obtain ⟨u, hu⟩ := hleaver
        exact settles_awake (u := u) hr hshared hmutex (not_exists.mp hwriter) (by simp [hu])
          (by simp [hu, Pc.sleeps]) (by simp [hu])
      have hcount : s.lock.mem.exclusiveCount = 0 := by
        by_contra hne
        rw [ha.exclusive] at hne
        obtain ⟨u, hu⟩ := ThreadFamily.exists_pos_of_total_pos exclusiveWeight s.lock.threads
          (by omega)
        simp only [exclusiveWeight, hheld u, List.count_nil, Nat.zero_add] at hu
        split_ifs at hu with hpc
        · rcases hpc with hpc | hpc | hpc
          · exact ha.not_owns hmutex hpc rfl
          · exact hleaver ⟨u, hpc⟩
          · exact ha.not_owns hmutex hpc rfl
        · exact absurd hu (lt_irrefl 0)
      obtain ⟨u, hpc, hsleeps⟩ := hhandover.exists_awake hheld hrest
      exact settles_awake hr hshared hmutex (not_exists.mp hwriter) hpc hsleeps (fun _ => hcount)

/-- The threads that have access or are inside the mutex can be brought to rest. -/
theorem leads_to_rest (t : T) (hr : (system role registered).ReachedBy LocksAtOnce s) :
    ∃ s', (system role registered).LeadsBy (fun s a => Towards t s a ∧ LocksAtOnce s a) s s' ∧
      (system role registered).ReachedBy LocksAtOnce s' ∧
      ∀ u, s'.lock.threads u = ⟨[], .outside⟩ := by
  refine TransitionSystem.exists_leadsBy_of_measure
    (I := (system role registered).ReachedBy LocksAtOnce) (μ := left) ?_ hr
  intro s hr hrest
  obtain ⟨a, s', hstep, hs, hlt⟩ := settles_of_not_rest (t := t) hr hrest
  exact ⟨s', .single hstep hs, hr.step hstep.2 hs, hlt⟩

end Rest

/-! ### The way to a channel -/

section Reaches

variable {T : Type*} [DecidableEq T] [Fintype T] (role : T → Role) (registered : Bool) {s : State T}
  {t : T} {loop : Loop} {e : Entry}

/-- The worker works on the channel of the entry. -/
structure At (loop : Loop) (e : Entry) (t : T) (s : State T) : Prop where
  loop : (s.server.points t).loop = some loop
  visits : (s.server.points t).visits = some e.2

/-- The server owns the channel, and it is active. -/
structure Owns (e : Entry) (m : ServerSocket.Mem) : Prop where
  mem : e ∈ m.clients
  active : m.isActive e.2 = true

/-- With shared access a worker comes to every active channel that it still has to visit. -/
theorem leads_scan (hloop : (s.server.points t).loop = some loop)
    (hth : s.lock.threads t = ⟨[.shared], .outside⟩) (he : e ∈ (s.server.points t).scans)
    (howns : Owns e s.server.mem) :
    ∃ s', (system role registered).LeadsBy (fun s a => Towards t s a ∧ LocksAtOnce s a) s s' ∧
      At loop e t s' := by
  induction hn : (s.server.points t).rank using Nat.strong_induction_on generalizing s with
  | h n ih =>
      have haccess := access_of_holdsShared (holdsShared_of_scans he)
      obtain ⟨loop', hloop', hacquire, htest⟩ := loop_of_holdsShared (holdsShared_of_scans he)
      obtain rfl : loop' = loop := Option.some.inj (hloop'.symm.trans hloop)
      by_cases hvisits : (s.server.points t).visits = some e.2
      · exact ⟨s, .refl, hloop, hvisits⟩
      · obtain ⟨choice, m', p', hcalm, hact, hadv⟩ := ServerSocket.act_advances registered
          s.server.mem hloop hacquire (fun hp => absurd hp htest)
        have hnext := hadv.scans e he howns.active
        have haccess' : access p' = some .shared := by
          apply access_of_holdsShared
          rcases hnext with hscans | hvisits'
          · exact holdsShared_of_scans hscans
          · exact holdsShared_of_visits hvisits'
        have hgoes : s.goes t := by
          refine ⟨by rw [hth], ?_, fun hp => ?_⟩
          · rw [asks_of_access haccess]
            exact nofun
          · rw [hp] at haccess
            cases haccess
        have hs := next_serve hgoes hact (by rw [gives, haccess, haccess'])
        have hstep : (system role registered).LeadsBy
            (fun s a => Towards t s a ∧ LocksAtOnce s a) s _ :=
          .single (a := .server (.thread t choice)) ⟨⟨Or.inl rfl, hcalm⟩, trivial⟩ hs
        have hself : Function.update s.server.points t p' t = p' := Function.update_self ..
        rcases hnext with hscans | hvisits'
        · have howns' : Owns e m' :=
            ⟨hadv.clients ▸ howns.mem, (hadv.active e.2 hvisits).trans howns.active⟩
          obtain ⟨s', hleads, hat⟩ := ih p'.rank (hn ▸ hadv.rank)
            (s := ⟨⟨m', Function.update s.server.points t p'⟩, s.lock⟩)
            (by simpa only [hself] using hadv.loop) hth (by simpa only [hself] using hscans) howns'
            (by simp only [hself])
          exact ⟨s', hstep.trans hleads, hat⟩
        · refine ⟨_, hstep, ?_, ?_⟩
          · simpa only [hself] using hadv.loop
          · simpa only [hself] using hvisits'

/-- At rest a thread that asks for shared access gets it. -/
theorem leads_shared (hr : (system role registered).Reachable s)
    (hrest : ∀ u, s.lock.threads u = ⟨[], .outside⟩)
    (hasks : asks (s.server.points t) = some .shared) :
    ∃ lock', (system role registered).LeadsBy (fun s a => Towards t s a ∧ LocksAtOnce s a) s
        ⟨s.server, lock'⟩ ∧ lock'.threads t = ⟨[.shared], .outside⟩ := by
  obtain ⟨m₁, m₂, m₃, hcall, hth₁, hload, hth₂, hothers, hadd, hth₃⟩ :=
    ExclusivePrioritySharedMutex.fastPath_at_rest (lock_reachable hr) hrest t
  have hclear : FastAddClear m₂ (.run t) := by
    intro _ u hu
    rw [hothers u hu]
    simp [ExclusivePrioritySharedMutex.InWindow]
  have hs₁ : next registered s (.enter t) = some ⟨s.server, m₁⟩ :=
    next_enter hasks (by rw [hrest t]) hcall
  have hs₂ : next registered ⟨s.server, m₁⟩ (.mutex (.run t)) = some ⟨s.server, m₂⟩ :=
    next_mutex (by simp) hload
  have hs₃ : next registered ⟨s.server, m₂⟩ (.mutex (.run t)) = some ⟨s.server, m₃⟩ :=
    next_mutex (by simp) hadd
  have henter : (system role registered).LeadsBy (fun s a => Towards t s a ∧ LocksAtOnce s a) s
      ⟨s.server, m₁⟩ := .single (a := .enter t) ⟨rfl, trivial⟩ hs₁
  have htest : (system role registered).LeadsBy (fun s a => Towards t s a ∧ LocksAtOnce s a)
      ⟨s.server, m₁⟩ ⟨s.server, m₂⟩ := by
    refine .single (a := .mutex (.run t)) ⟨trivial, ⟨?_, ?_⟩, ?_⟩ hs₂
    · simp [hth₁]
    · simp [hth₁]
    · simp [FastAddClear, hth₁]
  have hincrement : (system role registered).LeadsBy
      (fun s a => Towards t s a ∧ LocksAtOnce s a) ⟨s.server, m₂⟩ ⟨s.server, m₃⟩ := by
    refine .single (a := .mutex (.run t)) ⟨trivial, ⟨?_, ?_⟩, hclear⟩ hs₃
    · simp [hth₂]
    · simp [hth₂]
  exact ⟨m₃, (henter.trans htest).trans hincrement, hth₃⟩

/-- With all threads at rest a worker gets shared access on the fast path. -/
theorem leads_from_acquire (hr : (system role registered).Reachable s)
    (hrest : ∀ u, s.lock.threads u = ⟨[], .outside⟩)
    (hp : s.server.points t = .loopAcquire loop) (howns : Owns e s.server.mem) :
    ∃ s', (system role registered).LeadsBy (fun s a => Towards t s a ∧ LocksAtOnce s a) s s' ∧
      At loop e t s' := by
  have hasks : asks (s.server.points t) = some .shared := by
    rw [hp]
    rfl
  obtain ⟨lock', hshared, hth⟩ := leads_shared role registered hr hrest hasks
  have hgoes : State.goes ⟨s.server, lock'⟩ t := by
    refine ⟨by rw [hth], fun a ha => ?_, fun hjoin => ?_⟩
    · rw [hasks] at ha
      obtain rfl := Option.some.inj ha
      rw [hth]
      exact List.mem_cons_self
    · rw [hp] at hjoin
      cases hjoin
  have hact : act registered s.server.mem (s.server.points t) .go =
      some (s.server.mem, .loopScan loop s.server.mem.clients) := by
    rw [hp]
    rfl
  have hgives : gives (s.server.points t) (.loopScan loop s.server.mem.clients) = none := by
    rw [hp]
    rfl
  have hs := next_serve hgoes hact hgives
  have hself : Function.update s.server.points t (.loopScan loop s.server.mem.clients) t =
      .loopScan loop s.server.mem.clients := Function.update_self ..
  generalize Function.update s.server.points t (.loopScan loop s.server.mem.clients) = points
    at hs hself
  have hloop : (points t).loop = some loop := by
    rw [hself]
    rfl
  have hscans : e ∈ (points t).scans := by
    rw [hself]
    exact howns.mem
  obtain ⟨s', hleads, hend⟩ := leads_scan role registered
    (s := ⟨⟨s.server.mem, points⟩, lock'⟩) hloop hth hscans howns
  have hscan : (system role registered).LeadsBy (fun s a => Towards t s a ∧ LocksAtOnce s a)
      ⟨s.server, lock'⟩ ⟨⟨s.server.mem, points⟩, lock'⟩ :=
    .single (a := .server (.thread t .go)) ⟨⟨Or.inl rfl, trivial⟩, trivial⟩ hs
  exact ⟨s', (hshared.trans hscan).trans hleads, hend⟩

/-- The threads that are in the way go to rest, and then the worker comes to any active channel that
the server still owns. -/
theorem worker_reaches (hr : (system role registered).ReachedBy LocksAtOnce s)
    (hrole : role t = .worker loop) (e : Entry) :
    ∃ s', (system role registered).LeadsBy (fun s a => Towards t s a ∧ LocksAtOnce s a) s s' ∧
      (At loop e t s' ∨ ¬ (e ∈ s'.server.mem.clients ∧ s'.server.mem.isActive e.2 = true)) := by
  obtain ⟨s₁, hfirst, hr₁, hrest⟩ := leads_to_rest t hr
  by_cases howns : e ∈ s₁.server.mem.clients ∧ s₁.server.mem.isActive e.2 = true
  · have hactive : s₁.server.mem.active = true := (Bool.and_eq_true_iff.mp howns.2).2
    have hloop := ServerSocket.worker_in_loop (server_reachable (reachedBy_apart hr₁)) hrole hactive
    have hfree : (s₁.server.points t).holdsShared = false := by
      by_contra hholds
      have hth := (linked_of_reachable hr₁.reachable t).of_access
        (access_of_holdsShared (by simpa using hholds))
      rw [hrest t] at hth
      cases hth
    cases hp : s₁.server.points t with
    | loopAcquire l =>
        rw [hp] at hloop
        obtain rfl := Option.some.inj hloop
        obtain ⟨s', hleads, hat⟩ := leads_from_acquire role registered hr₁.reachable hrest hp
          ⟨howns.1, howns.2⟩
        exact ⟨s', hfirst.trans hleads, Or.inl hat⟩
    | loopTest l =>
        rw [hp] at hloop
        obtain rfl := Option.some.inj hloop
        have hgoes : s₁.goes t := by
          refine ⟨by rw [hrest t], ?_, ?_⟩ <;> rw [hp] <;> exact nofun
        have hact : act registered s₁.server.mem (s₁.server.points t) .go =
            some (s₁.server.mem, .loopAcquire l) := by
          rw [hp, act, if_pos hactive]
        have hs := next_serve hgoes hact (by rw [hp]; rfl)
        obtain ⟨s', hleads, hat⟩ := leads_from_acquire role registered
          ((hr₁.reachable).step (a := .server (.thread t .go)) trivial hs) hrest
          (Function.update_self ..) ⟨howns.1, howns.2⟩
        have htest : (system role registered).LeadsBy
            (fun s a => Towards t s a ∧ LocksAtOnce s a) s₁ _ :=
          .single (a := .server (.thread t .go)) ⟨⟨Or.inl rfl, trivial⟩, trivial⟩ hs
        exact ⟨s', (hfirst.trans htest).trans hleads, Or.inl hat⟩
    | _ =>
        rw [hp] at hloop hfree
        simp [Point.loop, Point.holdsShared] at hloop hfree
  · exact ⟨s₁, hfirst, Or.inr howns⟩

end Reaches
end SocketLib.ServerSocketMutex
