import SocketLib.ExclusiveSharedMutexProgress
import SocketLib.ExclusiveSharedMutexReaders
import SocketLib.ServerCallbacks
import SocketLib.ServerSocketLock

/-!
# A bound `ServerSocket` over its own mutex

`ServerSocket.system` lets a thread in when the lock is free for it. Here `clientDescriptorsMutex`
is the `ExclusivePrioritySharedMutex` of the source: a thread that asks for access calls `lock` or
`lock_shared` and takes the atomic steps of the call, and where it gives the access back it calls
`unlock` or `unlock_shared` and goes on in the server when the call has returned.

The lock and the program points agree on who has access (`Linked`). As long as no fast-path
increment of `lock_shared` is made beside a writer, nobody is beside a writer in the server either,
and what happens to the server in such a run is a run of `ServerSocket.system`
(`server_reachable`).
-/

namespace SocketLib.ServerSocketMutex

open ExclusivePrioritySharedMutex (Access Op Pc Thread FastAddClear setThread_self setThread_ne
  next_run next_notify next_spurious notifies_cases wake_cases)
open ServerCallbacks (acquiring callMutex lockOp unlockOp)
open ServerSocket (Choice Point Role act)

/-- The access to `clientDescriptors` a thread has. -/
def access (p : Point) : Option Access :=
  if p.holdsExclusive then some .exclusive else if p.holdsShared then some .shared else none

/-- The access a thread needs for its next step and does not have yet. -/
def asks (p : Point) : Option Access :=
  if p.asksExclusive then some .exclusive else if p.asksShared then some .shared else none

theorem asks_of_access {p : Point} {a : Access} (h : access p = some a) : asks p = none := by
  cases p <;> first
    | rfl
    | cases h

structure State (T : Type*) where
  server : ServerSocket.State T
  lock : ExclusivePrioritySharedMutex.State T

/-- One step of a run: a step of the server, the call of a thread for the access it needs, or
something that happens inside the mutex. -/
inductive Label (T : Type*)
  | server (a : ServerSocket.Label T)
  | enter (t : T)
  | mutex (a : ExclusivePrioritySharedMutex.Label T)

/-- The call with which a step gives access back. -/
def gives (p p' : Point) : Option Op :=
  match access p, access p' with
  | some a, none => some (unlockOp a)
  | _, _ => none

section System

variable {T : Type*} [DecidableEq T] [Fintype T]

/-- A thread goes on in the server when it is outside the mutex and has the access it needs. The
destructor waits for the listen thread and the workers; nobody else is to be inside the server
then. -/
def State.goes (s : State T) (t : T) : Prop :=
  (s.lock.threads t).pc = .outside ∧
    (∀ a ∈ asks (s.server.points t), a ∈ (s.lock.threads t).held) ∧
    (s.server.points t = .destroyJoin →
      ∀ u, u ≠ t → s.server.points u = .idle ∨ s.server.points u = .finished)

instance (s : State T) (t : T) : Decidable (s.goes t) :=
  inferInstanceAs (Decidable ((s.lock.threads t).pc = .outside ∧
    (∀ a ∈ asks (s.server.points t), a ∈ (s.lock.threads t).held) ∧
    (s.server.points t = .destroyJoin →
      ∀ u, u ≠ t → s.server.points u = .idle ∨ s.server.points u = .finished)))

def next (registered : Bool) (s : State T) : Label T → Option (State T)
  | .server (.thread t choice) =>
      if s.goes t then
        (act registered s.server.mem (s.server.points t) choice).bind fun r =>
          (callMutex s.lock t (gives (s.server.points t) r.2)).map
            (⟨⟨r.1, Function.update s.server.points t r.2⟩, ·⟩)
      else none
  | .server a => (ServerSocket.next registered s.server a).map (⟨·, s.lock⟩)
  | .enter t =>
      match asks (s.server.points t) with
      | some a =>
          if (s.lock.threads t).held = [] then
            (callMutex s.lock t (some (lockOp a))).map (⟨s.server, ·⟩)
          else none
      | none => none
  | .mutex (.call _ _) => none
  | .mutex a => (ExclusivePrioritySharedMutex.next s.lock a).map (⟨s.server, ·⟩)

def system (role : T → Role) (registered : Bool) : TransitionSystem (State T) (Label T) :=
  ⟨⟨(ServerSocket.system role registered).start, ExclusivePrioritySharedMutex.initial T⟩,
    next registered⟩

/-! ### What a step changes -/

/-- A thread goes on in the server, something happens outside its threads, a thread calls for
access, or something happens inside the mutex. -/
inductive Step (registered : Bool) (s : State T) : Label T → State T → Prop
  | serve (t : T) (choice : Choice) (m' : ServerSocket.Mem) (p' : Point)
      (lock' : ExclusivePrioritySharedMutex.State T) (hgoes : s.goes t)
      (hact : act registered s.server.mem (s.server.points t) choice = some (m', p'))
      (hcall : callMutex s.lock t (gives (s.server.points t) p') = some lock') :
      Step registered s (.server (.thread t choice))
        ⟨⟨m', Function.update s.server.points t p'⟩, lock'⟩
  | outside (a : ServerSocket.Label T) (server' : ServerSocket.State T)
      (ha : ∀ t choice, a ≠ .thread t choice)
      (hnext : ServerSocket.next registered s.server a = some server') :
      Step registered s (.server a) ⟨server', s.lock⟩
  | enter (t : T) (a : Access) (lock' : ExclusivePrioritySharedMutex.State T)
      (hasks : asks (s.server.points t) = some a) (hheld : (s.lock.threads t).held = [])
      (hcall : callMutex s.lock t (some (lockOp a)) = some lock') :
      Step registered s (.enter t) ⟨s.server, lock'⟩
  | mutex (a : ExclusivePrioritySharedMutex.Label T)
      (lock' : ExclusivePrioritySharedMutex.State T) (ha : ∀ t op, a ≠ .call t op)
      (hnext : ExclusivePrioritySharedMutex.next s.lock a = some lock') :
      Step registered s (.mutex a) ⟨s.server, lock'⟩

variable {registered : Bool} {s s' : State T}

theorem next_server {a : ServerSocket.Label T} (ha : ∀ t choice, a ≠ .thread t choice) :
    next registered s (.server a) =
      (ServerSocket.next registered s.server a).map (⟨·, s.lock⟩) := by
  cases a with
  | thread t choice => exact absurd rfl (ha t choice)
  | _ => rfl

theorem next_step {a : Label T} (h : next registered s a = some s') : Step registered s a s' := by
  cases a with
  | server a =>
      cases a with
      | thread t choice =>
          simp only [next] at h
          split_ifs at h with hgoes
          obtain ⟨⟨m', p'⟩, hact, hmap⟩ := Option.bind_eq_some_iff.mp h
          obtain ⟨lock', hcall, rfl⟩ := Option.map_eq_some_iff.mp hmap
          exact .serve t choice m' p' lock' hgoes hact hcall
      | _ =>
          rw [next_server (by simp)] at h
          obtain ⟨server', hnext, rfl⟩ := Option.map_eq_some_iff.mp h
          exact .outside _ server' (by simp) hnext
  | enter t =>
      simp only [next] at h
      split at h
      · rename_i a hasks
        split_ifs at h with hheld
        obtain ⟨lock', hcall, rfl⟩ := Option.map_eq_some_iff.mp h
        exact .enter t a lock' hasks hheld hcall
      · cases h
  | mutex a =>
      cases a with
      | call t op => cases h
      | _ =>
          obtain ⟨lock', hnext, rfl⟩ := Option.map_eq_some_iff.mp h
          exact .mutex _ lock' (by simp) hnext

/-- The server uses the mutex as any program does. -/
theorem Step.lock {a : Label T} (h : Step registered s a s') :
    s'.lock = s.lock ∨
      (∃ t op, ExclusivePrioritySharedMutex.next s.lock (.call t op) = some s'.lock) ∨
      ∃ b, a = .mutex b ∧ ExclusivePrioritySharedMutex.next s.lock b = some s'.lock := by
  cases h with
  | serve t choice m' p' lock' hgoes hact hcall =>
      cases hop : gives (s.server.points t) p' with
      | some op =>
          rw [hop] at hcall
          exact Or.inr (Or.inl ⟨t, op, hcall⟩)
      | none =>
          rw [hop] at hcall
          exact Or.inl (ServerCallbacks.callMutex_none hcall).2
  | outside => exact Or.inl rfl
  | enter t a lock' hasks hheld hcall => exact Or.inr (Or.inl ⟨t, lockOp a, hcall⟩)
  | mutex b lock' ha hnext => exact Or.inr (Or.inr ⟨b, rfl, hnext⟩)

/-- A condition on the steps inside the mutex. -/
def OnMutex (guard : ExclusivePrioritySharedMutex.State T →
    ExclusivePrioritySharedMutex.Label T → Prop) (s : State T) : Label T → Prop
  | .mutex b => guard s.lock b
  | _ => True

instance {guard : ExclusivePrioritySharedMutex.State T →
    ExclusivePrioritySharedMutex.Label T → Prop} [∀ m b, Decidable (guard m b)] (s : State T)
    (a : Label T) : Decidable (OnMutex guard s a) :=
  match a with
  | .mutex b => inferInstanceAs (Decidable (guard s.lock b))
  | .server _ | .enter _ => isTrue trivial

/-- A condition on the steps of the server. -/
def OnServer (rule : ServerSocket.State T → ServerSocket.Label T → Prop) (s : State T) :
    Label T → Prop
  | .server b => rule s.server b
  | _ => True

instance {rule : ServerSocket.State T → ServerSocket.Label T → Prop}
    [∀ server b, Decidable (rule server b)] (s : State T) (a : Label T) :
    Decidable (OnServer rule s a) :=
  match a with
  | .server b => inferInstanceAs (Decidable (rule s.server b))
  | .mutex _ | .enter _ => isTrue trivial

variable {role : T → Role} {guard : ExclusivePrioritySharedMutex.State T →
  ExclusivePrioritySharedMutex.Label T → Prop}

theorem lock_reachedBy (hcall : ∀ m t op, guard m (.call t op))
    (h : (system role registered).ReachedBy (OnMutex guard) s) :
    (ExclusivePrioritySharedMutex.system T).ReachedBy guard s.lock := by
  refine h.map (f := State.lock) rfl (fun s a s' _ hg hs => ?_)
  rcases (next_step hs).lock with hsame | ⟨t, op, hstep⟩ | ⟨b, rfl, hstep⟩
  · exact Or.inl hsame
  · exact Or.inr ⟨.call t op, hcall s.lock t op, hstep⟩
  · exact Or.inr ⟨b, hg, hstep⟩

theorem lock_reachable (h : (system role registered).Reachable s) :
    (ExclusivePrioritySharedMutex.system T).Reachable s.lock := by
  have hall : (system role registered).ReachedBy (OnMutex fun _ _ => True) s :=
    h.mono fun _ a _ => by cases a <;> trivial
  exact lock_reachedBy (fun _ _ _ => trivial) hall

end System

/-! ### The threads inside the mutex -/

section Mutex

variable {T : Type*}

/-- A thread outside the mutex is left alone, and one that obtains an access is outside with it. -/
def Inside (th th' : Thread) : Prop :=
  (th.pc = .outside → th' = th) ∧ (th'.held = th.held ∨ th'.pc = .outside)

theorem advance_inside {t : T} {m m' : ExclusivePrioritySharedMutex.Mem T} {th th' : Thread}
    (h : ExclusivePrioritySharedMutex.advance t m th = some (m', th')) : Inside th th' := by
  refine ⟨fun hpc => ?_, (ExclusivePrioritySharedMutex.advance_held h).imp_right And.left⟩
  simp only [ExclusivePrioritySharedMutex.advance, hpc, reduceCtorEq] at h

theorem Inside.goto {th : Thread} (pc : Pc) (h : th.pc ≠ .outside) : Inside th (th.goto pc) :=
  ⟨fun houtside => absurd houtside h, Or.inl rfl⟩

variable [DecidableEq T]

theorem inside_setThread {m : ExclusivePrioritySharedMutex.State T} {t : T} {th' : Thread}
    (h : Inside (m.threads t) th') (u : T) :
    Inside (m.threads u) ((m.setThread t th').threads u) := by
  by_cases hu : u = t
  · subst u
    rwa [setThread_self]
  · rw [setThread_ne m th' hu]
    exact ⟨fun _ => rfl, Or.inl rfl⟩

theorem next_inside [Fintype T] {m m' : ExclusivePrioritySharedMutex.State T}
    {b : ExclusivePrioritySharedMutex.Label T} (hb : ∀ t op, b ≠ .call t op)
    (h : ExclusivePrioritySharedMutex.next m b = some m') (u : T) :
    Inside (m.threads u) (m'.threads u) := by
  have hasleep : ∀ cv, Pc.asleep cv ≠ .outside := fun cv => by cases cv <;> simp [Pc.asleep]
  cases b with
  | call t op => exact absurd rfl (hb t op)
  | run t =>
      obtain ⟨mem', th', hadv, rfl⟩ := next_run h
      exact inside_setThread (advance_inside hadv) u
  | notify t woken =>
      obtain ⟨cv, pc, hn, hw⟩ := next_notify h
      have hpc : (m.threads t).pc ≠ .outside ∧ ∀ cv, pc ≠ .asleep cv := by
        rcases notifies_cases hn with ⟨hpc, rfl⟩ | ⟨hpc, rfl⟩ <;>
          exact ⟨by simp [hpc], fun cv => by cases cv <;> simp [Pc.asleep]⟩
      have hmid := inside_setThread (Inside.goto pc hpc.1) u
      rcases wake_cases hw with ⟨v, -, hv, rfl⟩ | ⟨-, -, rfl⟩
      · by_cases hut : u = t
        · subst u
          have hne : t ≠ v := by
            rintro rfl
            rw [setThread_self] at hv
            exact hpc.2 cv hv
          rwa [setThread_ne _ _ hne]
        · have hsame := setThread_ne m ((m.threads t).goto pc) hut
          rw [← hsame]
          exact inside_setThread (Inside.goto _ (hv ▸ hasleep cv)) u
      · exact hmid
  | spurious t =>
      obtain ⟨cv, hpc, rfl⟩ := next_spurious h
      exact inside_setThread (Inside.goto _ (hpc ▸ hasleep cv)) u

end Mutex

/-! ### Who has access -/

/-- From a point with access a step goes to one with the same access or gives it back, from a point
that asks for access to one with it, and from all others to one without. -/
def Follows (p p' : Point) : Prop :=
  match access p, asks p with
  | some a, _ => access p' = some a ∨ access p' = none ∧ asks p' = none
  | none, some a => access p' = some a
  | none, none => access p' = none

theorem act_follows {registered : Bool} {m m' : ServerSocket.Mem} {p p' : Point} {choice : Choice} :
    act registered m p choice = some (m', p') → Follows p p' := by
  fun_cases act registered m p choice
  all_goals
    simp only [Option.some.injEq, Prod.mk.injEq, reduceCtorEq, false_implies, and_imp]
    try rintro rfl rfl
  case case37 =>
    rename_i caller _
    cases caller <;> rfl
  all_goals
    try split
    all_goals simp [Follows, access, asks, Point.holdsExclusive, Point.holdsShared,
      Point.asksExclusive, Point.asksShared]

/-- What the mutex knows of a thread agrees with where the thread is in the server. -/
def Linked (p : Point) (th : Thread) : Prop :=
  match access p, asks p with
  | some a, _ => th = ⟨[a], .outside⟩
  | none, some a =>
      th = ⟨[a], .outside⟩ ∨ th = ⟨[], .outside⟩ ∨ th.held = [] ∧ acquiring th.pc = some a
  | none, none => th.held = [] ∧ acquiring th.pc = none

/-- An access that the mutex has given to a thread is the one the thread has or needs. -/
theorem Linked.held {p : Point} {th : Thread} {a : Access} (h : Linked p th) (ha : a ∈ th.held) :
    th = ⟨[a], .outside⟩ ∧ (access p = some a ∨ access p = none ∧ asks p = some a) := by
  unfold Linked at h
  split at h
  · rename_i b haccess
    subst h
    obtain rfl := List.mem_singleton.mp ha
    exact ⟨rfl, Or.inl haccess⟩
  · rename_i b haccess hasks
    rcases h with rfl | rfl | ⟨hheld, -⟩
    · obtain rfl := List.mem_singleton.mp ha
      exact ⟨rfl, Or.inr ⟨haccess, hasks⟩⟩
    · cases ha
    · rw [hheld] at ha
      cases ha
  · rw [h.1] at ha
    cases ha

theorem Linked.of_access {p : Point} {th : Thread} {a : Access} (h : Linked p th)
    (ha : access p = some a) : th = ⟨[a], .outside⟩ := by
  simpa only [Linked, ha] using h

/-- A thread inside the mutex has no access. -/
theorem Linked.held_eq_nil {p : Point} {th : Thread} (h : Linked p th) (hpc : th.pc ≠ .outside) :
    th.held = [] := by
  unfold Linked at h
  split at h
  · exact absurd (by rw [h]) hpc
  · rcases h with hth | hth | hth
    · exact absurd (by rw [hth]) hpc
    · exact absurd (by rw [hth]) hpc
    · exact hth.1
  · exact h.1

theorem linked_point (role : Role) : Linked role.point ⟨[], .outside⟩ := by
  cases role <;> exact ⟨rfl, rfl⟩

/-- A step inside the mutex keeps the agreement. -/
theorem Linked.mutex {p : Point} {th th' : Thread} (h : Linked p th) (hinside : Inside th th')
    (hsettles : ServerCallbacks.Settles th th') : Linked p th' := by
  obtain ⟨houtside, hheld'⟩ := hinside
  unfold Linked at h ⊢
  split at h
  · rw [houtside (by rw [h]), h]
  · rename_i a _ _
    rcases h with hth | hth | ⟨hheld, hacquiring⟩
    · rw [houtside (by rw [hth])]
      exact Or.inl hth
    · rw [houtside (by rw [hth])]
      exact Or.inr (Or.inl hth)
    · cases hsettles with
      | goesOn hp hh => exact Or.inr (Or.inr ⟨hh.trans hheld, hp.trans hacquiring⟩)
      | returns b hp hp' hh =>
          obtain rfl := Option.some.inj (hp.symm.trans hacquiring)
          rw [hheld] at hh
          have hpc : th'.pc = .outside := by
            rcases hheld' with hsame | hpc
            · simp [hh, hheld] at hsame
            · exact hpc
          left
          obtain ⟨held, pc⟩ := th'
          rw [show held = _ from hh, show pc = _ from hpc]
  · obtain ⟨hheld, hacquiring⟩ := h
    cases hsettles with
    | goesOn hp hh => exact ⟨hh.trans hheld, hp.trans hacquiring⟩
    | returns b hp hp' hh =>
        rw [hacquiring] at hp
        cases hp

/-- A thread that is outside the mutex with what it needs, at a point without access. -/
theorem Linked.goes {p : Point} {th : Thread} (h : Linked p th) (hpc : th.pc = .outside)
    (hneeds : ∀ a ∈ asks p, a ∈ th.held) : th = ⟨(access p).or (asks p) |>.toList, .outside⟩ := by
  unfold Linked at h
  split at h
  · rename_i a haccess
    rw [h, haccess]
    rfl
  · rename_i a haccess hasks
    rw [haccess, hasks]
    exact (Linked.held (p := p) (by rw [Linked, haccess, hasks]; exact h) (hneeds a hasks)).1
  · rename_i haccess hasks
    rw [haccess, hasks]
    obtain ⟨held, pc⟩ := th
    rw [show held = _ from h.1, show pc = _ from hpc]
    rfl

/-- The step of a thread in the server keeps the agreement. -/
theorem Linked.serve {T : Type*} [DecidableEq T] [Fintype T] {p p' : Point}
    {m m' : ExclusivePrioritySharedMutex.State T} {t : T} (h : Linked p (m.threads t))
    (hneeds : ∀ a ∈ asks p, a ∈ (m.threads t).held) (hfollows : Follows p p')
    (hcall : callMutex m t (gives p p') = some m') : Linked p' (m'.threads t) := by
  have hth := h.goes (ServerCallbacks.callMutex_outside hcall) hneeds
  have hkeep : gives p p' = none → m' = m := by
    intro hgives
    rw [hgives] at hcall
    exact (ServerCallbacks.callMutex_none hcall).2
  unfold Follows at hfollows
  split at hfollows
  · rename_i a haccess
    rw [haccess] at hth
    rcases hfollows with haccess' | ⟨haccess', hasks'⟩
    · rw [hkeep (by simp only [gives, haccess, haccess']), hth]
      simp only [Linked, haccess']
      rfl
    · have hgives : gives p p' = some (unlockOp a) := by simp only [gives, haccess, haccess']
      rw [hgives] at hcall
      obtain ⟨th', hbegin, rfl⟩ := ServerCallbacks.callMutex_some hcall
      rw [hth] at hbegin
      simp only [Linked, haccess', hasks', setThread_self]
      cases a <;> obtain rfl := Option.some.inj hbegin <;> exact ⟨rfl, rfl⟩
  · rename_i a haccess hasks
    rw [haccess, hasks] at hth
    rw [hkeep (by simp only [gives, haccess]), hth]
    simp only [Linked, hfollows]
    rfl
  · rename_i haccess hasks
    rw [haccess, hasks] at hth
    rw [hkeep (by simp only [gives, haccess]), hth]
    simp only [Linked, hfollows]
    cases asks p' with
    | some b => exact Or.inr (Or.inl rfl)
    | none => exact ⟨rfl, rfl⟩

/-- So does the call for access. -/
theorem Linked.enter {p : Point} {th th' : Thread} {a : Access} (h : Linked p th)
    (hasks : asks p = some a) (hheld : th.held = []) (hbegin : th.begin (lockOp a) = some th') :
    Linked p th' := by
  have haccess : access p = none := by
    cases haccess : access p with
    | none => rfl
    | some b =>
        rw [h.of_access haccess] at hheld
        cases hheld
  have hpc := (ExclusivePrioritySharedMutex.begin_cases hbegin).1
  simp only [Linked, haccess, hasks]
  refine Or.inr (Or.inr ?_)
  obtain ⟨held, pc⟩ := th
  obtain rfl : held = [] := hheld
  obtain rfl : pc = .outside := hpc
  cases a <;> obtain rfl := Option.some.inj hbegin <;> exact ⟨rfl, rfl⟩

section Runs

variable {T : Type*} [DecidableEq T] [Fintype T] {role : T → Role} {registered : Bool}
  {s s' : State T}

theorem linked_of_reachable (h : (system role registered).Reachable s) (t : T) :
    Linked (s.server.points t) (s.lock.threads t) := by
  have hall : ∀ t, Linked (s.server.points t) (s.lock.threads t) := by
    refine h.invariant (I := fun s => ∀ t, Linked (s.server.points t) (s.lock.threads t))
      (fun t => linked_point (role t)) ?_
    intro s a s' _ hI _ hs u
    cases next_step hs with
    | serve t choice m' p' lock' hgoes hact hcall =>
        by_cases hu : u = t
        · subst u
          simp only [Function.update_self]
          exact (hI t).serve hgoes.2.1 (act_follows hact) hcall
        · simp only [Function.update_of_ne hu]
          rw [ServerCallbacks.callMutex_threads_ne hcall hu]
          exact hI u
    | outside a server' ha hnext =>
        rcases ServerSocket.next_cases hnext with ⟨t, choice, -, -, rfl, -⟩ | ⟨-, -, hpoints⟩
        · exact absurd rfl (ha t choice)
        · rw [hpoints]
          exact hI u
    | enter t a lock' hasks hheld hcall =>
        by_cases hu : u = t
        · subst u
          obtain ⟨th', hbegin, rfl⟩ := ServerCallbacks.callMutex_some hcall
          simp only [setThread_self]
          exact (hI t).enter hasks hheld hbegin
        · simp only [ServerCallbacks.callMutex_threads_ne hcall hu]
          exact hI u
    | mutex b lock' hb hnext =>
        exact (hI u).mutex (next_inside hb hnext u) (ServerCallbacks.next_settles hb hnext u)
  exact hall t

/-! ### What the lock grants -/

/-- The run makes no fast-path increment beside a writer. -/
abbrev Apart (s : State T) (a : Label T) : Prop := OnMutex FastAddClear s a

/-- An access granted excludes the accesses it is to exclude. -/
theorem excludes_of_held (hr : (system role registered).ReachedBy Apart s) {t u : T} {a : Access}
    (hne : u ≠ t) (ha : a ∈ (s.lock.threads t).held) :
    (s.server.points u).holdsExclusive = false ∧
      (a = .exclusive → (s.server.points u).holdsShared = false) := by
  have hlock : (ExclusivePrioritySharedMutex.system T).ReachedBy FastAddClear s.lock :=
    lock_reachedBy (fun _ _ _ => trivial) hr
  have hexclusion := ExclusivePrioritySharedMutex.readerWriterExclusion_of_fastAddClear hlock
  obtain ⟨hwriters, -, -⟩ := ExclusivePrioritySharedMutex.writersExclude hlock.reachable
  have hlinked := linked_of_reachable hr.reachable u
  have hexclusive : (s.server.points u).holdsExclusive = false := by
    by_contra hholds
    rw [Bool.not_eq_false] at hholds
    have hu : .exclusive ∈ (s.lock.threads u).held := by
      rw [hlinked.of_access (a := .exclusive) (if_pos hholds)]
      exact List.mem_singleton_self _
    cases a with
    | shared => exact hexclusion t u hne.symm ha hu
    | exclusive => exact hne (hwriters u t (Or.inl hu) (Or.inl ha))
  refine ⟨hexclusive, ?_⟩
  rintro rfl
  by_contra hholds
  rw [Bool.not_eq_false] at hholds
  have haccess : access (s.server.points u) = some .shared := by
    rw [access, hexclusive, hholds]
    rfl
  refine hexclusion u t hne ?_ ha
  rw [hlinked.of_access haccess]
  exact List.mem_singleton_self _

theorem admits_of_goes (hr : (system role registered).ReachedBy Apart s) {t : T}
    (h : s.goes t) : s.server.admits t := by
  obtain ⟨-, hneeds, hjoin⟩ := h
  have hexclusive : asks (s.server.points t) = some .exclusive → ∀ u, u ≠ t →
      (s.server.points u).holdsExclusive = false ∧ (s.server.points u).holdsShared = false := by
    intro hasks u hu
    have hothers := excludes_of_held hr hu (hneeds _ hasks)
    exact ⟨hothers.1, hothers.2 rfl⟩
  have hshared : asks (s.server.points t) = some .shared → ∀ u, u ≠ t →
      (s.server.points u).holdsExclusive = false :=
    fun hasks u hu => (excludes_of_held hr hu (hneeds _ hasks)).1
  unfold ServerSocket.State.admits
  cases hp : s.server.points t with
  | connectAcquire c =>
      intro u
      by_cases hu : u = t
      · rw [hu, hp]
        exact ⟨rfl, rfl⟩
      · exact hexclusive (by rw [hp]; rfl) u hu
  | closeAcquire fd caller =>
      intro u
      by_cases hu : u = t
      · rw [hu, hp]
        exact ⟨rfl, rfl⟩
      · exact hexclusive (by rw [hp]; rfl) u hu
  | loopAcquire loop =>
      intro u
      by_cases hu : u = t
      · rw [hu, hp]
        rfl
      · exact hshared (by rw [hp]; rfl) u hu
  | destroyJoin => exact hjoin hp
  | _ => trivial

/-- What a thread does in the server it does there over a lock that lets it in when it is free. -/
theorem serve_next (hr : (system role registered).ReachedBy Apart s) {t : T} {choice : Choice}
    {m' : ServerSocket.Mem} {p' : Point} (hgoes : s.goes t)
    (hact : act registered s.server.mem (s.server.points t) choice = some (m', p')) :
    ServerSocket.next registered s.server (.thread t choice) =
      some ⟨m', Function.update s.server.points t p'⟩ := by
  rw [ServerSocket.next, if_pos (admits_of_goes hr hgoes), hact]
  rfl

theorem Step.server (hr : (system role registered).ReachedBy Apart s) {a : Label T}
    (h : Step registered s a s') :
    s'.server = s.server ∨
      ∃ b, a = .server b ∧ ServerSocket.next registered s.server b = some s'.server := by
  cases h with
  | serve t choice m' p' lock' hgoes hact hcall =>
      exact Or.inr ⟨.thread t choice, rfl, serve_next hr hgoes hact⟩
  | outside b server' ha hnext => exact Or.inr ⟨b, rfl, hnext⟩
  | enter => exact Or.inl rfl
  | mutex => exact Or.inl rfl

/-- The server over its mutex runs as the one whose threads are let in when the lock is free. -/
theorem server_reachedBy {rule : ServerSocket.State T → ServerSocket.Label T → Prop}
    (hr : (system role registered).ReachedBy (fun s a => Apart s a ∧ OnServer rule s a) s) :
    (ServerSocket.system role registered).ReachedBy rule s.server := by
  refine hr.map (f := State.server) rfl (fun s a s' hr hg hs => ?_)
  rcases (next_step hs).server (hr.mono fun _ _ h => h.1) with hsame | ⟨b, rfl, hstep⟩
  · exact Or.inl hsame
  · exact Or.inr ⟨b, hg.2, hstep⟩

theorem server_reachable (hr : (system role registered).ReachedBy Apart s) :
    (ServerSocket.system role registered).Reachable s.server :=
  server_reachedBy (hr.mono fun _ a h => ⟨h, by cases a <;> trivial⟩)

/-! ### What a thread can do -/

theorem next_mutex {b : ExclusivePrioritySharedMutex.Label T}
    {lock' : ExclusivePrioritySharedMutex.State T} (hb : ∀ t op, b ≠ .call t op)
    (h : ExclusivePrioritySharedMutex.next s.lock b = some lock') :
    next registered s (.mutex b) = some ⟨s.server, lock'⟩ := by
  cases b with
  | call t op => exact absurd rfl (hb t op)
  | _ => exact Option.map_eq_some_iff.mpr ⟨lock', h, rfl⟩

/-- A step that keeps the access of the thread leaves the mutex alone. -/
theorem next_serve {t : T} {choice : Choice} {m' : ServerSocket.Mem} {p' : Point} (h : s.goes t)
    (hact : act registered s.server.mem (s.server.points t) choice = some (m', p'))
    (hgives : gives (s.server.points t) p' = none) :
    next registered s (.server (.thread t choice)) =
      some ⟨⟨m', Function.update s.server.points t p'⟩, s.lock⟩ := by
  rw [next, if_pos h, hact, Option.bind_some, hgives, callMutex, if_pos h.1]
  rfl

/-- Giving access back is a call that the mutex takes. -/
theorem exists_serve {t : T} {choice : Choice} {m' : ServerSocket.Mem} {p' : Point}
    (hl : Linked (s.server.points t) (s.lock.threads t)) (h : s.goes t)
    (hact : act registered s.server.mem (s.server.points t) choice = some (m', p')) :
    ∃ lock', callMutex s.lock t (gives (s.server.points t) p') = some lock' ∧
      next registered s (.server (.thread t choice)) =
        some ⟨⟨m', Function.update s.server.points t p'⟩, lock'⟩ := by
  have hcall : ∃ lock', callMutex s.lock t (gives (s.server.points t) p') = some lock' := by
    unfold gives
    split
    · rename_i a haccess hnone
      rw [callMutex, ExclusivePrioritySharedMutex.next, hl.of_access haccess]
      cases a <;> exact ⟨_, rfl⟩
    · exact ⟨s.lock, if_pos h.1⟩
  obtain ⟨lock', hcall⟩ := hcall
  refine ⟨lock', hcall, ?_⟩
  rw [next, if_pos h, hact, Option.bind_some, hcall]
  rfl

theorem next_enter {t : T} {a : Access} {lock' : ExclusivePrioritySharedMutex.State T}
    (hasks : asks (s.server.points t) = some a) (hheld : (s.lock.threads t).held = [])
    (hcall : callMutex s.lock t (some (lockOp a)) = some lock') :
    next registered s (.enter t) = some ⟨s.server, lock'⟩ := by
  simp only [next, hasks, if_pos hheld, hcall, Option.map_some]

theorem exists_enter {t : T} {a : Access} (hasks : asks (s.server.points t) = some a)
    (h : s.lock.threads t = ⟨[], .outside⟩) :
    ∃ lock', next registered s (.enter t) = some ⟨s.server, lock'⟩ := by
  have hcall : ∃ lock', callMutex s.lock t (some (lockOp a)) = some lock' := by
    rw [callMutex, ExclusivePrioritySharedMutex.next, h]
    cases a <;> exact ⟨_, rfl⟩
  obtain ⟨lock', hcall⟩ := hcall
  exact ⟨lock', next_enter hasks (by rw [h]) hcall⟩

end Runs

/-! ### Stretches of runs -/

section Stretches

variable {T : Type*} (t : T)

/-- The thread goes on in the server. -/
def goes (n : ℕ) : List (Label T) := List.replicate n (.server (.thread t .go))

/-- It calls `lock` and does not have to wait. -/
def locks : List (Label T) := .enter t :: List.replicate 7 (.mutex (.run t))

/-- It takes the fast path of `lock_shared`. -/
def locksShared : List (Label T) := .enter t :: List.replicate 2 (.mutex (.run t))

/-- The call that gives back the only access returns, and wakes nobody. -/
def unlocks : List (Label T) :=
  List.replicate 3 (.mutex (.run t)) ++ [.mutex (.notify t none), .mutex (.run t)]

/-- The listen thread comes from `accept4` back to the begin of its loop. -/
def accepts (fd : ServerSocket.Fd) (clients : List ServerSocket.Entry) : List (Label T) :=
  .server (.thread t (.accept (some fd))) :: goes t 1 ++ locks t ++ goes t 1 ++
    .server (.thread t (.emplace clients)) :: goes t 1 ++ unlocks t ++ goes t 1

end Stretches
end SocketLib.ServerSocketMutex
