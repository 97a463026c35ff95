import SocketLib.ExclusiveSharedMutexDeadlock

/-!
# The calls of a server's threads on `clientDescriptorsMutex`

A thread of a `ServerSocket` is a stack of frames over the mutex: the two worker loops and `write`
work under shared access, `closeClient` and `onConnectedClient` under exclusive access, and the two
kinds of callbacks take none of their own but call `write` and `closeClient`. A listen callback runs
inside `readLoop`, so under the shared access of the loop. `closeClient` gives its access back
before it runs the connect callback, or ends without one (no callback registered, or the descriptor
does not exist).

The steps inside the mutex are those of `ExclusivePrioritySharedMutex`; frames come and go only
while the thread is outside it.
-/

namespace SocketLib.ServerCallbacks

open ExclusivePrioritySharedMutex

inductive Frame
  | readLoop
  | writeLoop
  | listenCallback
  | write
  | closeClient
  | onConnectedClient
  | connectCallback
  deriving DecidableEq

/-- What a thread is for. A `user` is any other thread that calls the public functions, the
destructor of the server included. -/
inductive Role
  | readWorker
  | writeWorker
  | listenThread
  | user

/-- The access to `clientDescriptors` a frame works under. -/
def Frame.access : Frame → Option Access
  | .readLoop | .writeLoop | .write => some .shared
  | .closeClient | .onConnectedClient => some .exclusive
  | .listenCallback | .connectCallback => none

def Starts : Role → Frame → Bool
  | .readWorker, .readLoop | .writeWorker, .writeLoop => true
  | .listenThread, .onConnectedClient | .listenThread, .closeClient => true
  | .user, .write | .user, .closeClient => true
  | _, _ => false

def Calls : Frame → Frame → Bool
  | .readLoop, .listenCallback => true
  | .listenCallback, .write | .listenCallback, .closeClient => true
  | .connectCallback, .write | .connectCallback, .closeClient => true
  | _, _ => false

/-- A thread with this role and these frames, the innermost first, can enter the frame. -/
def Enters (role : Role) (frames : List Frame) (f : Frame) : Bool :=
  match frames with
  | [] => Starts role f
  | caller :: _ => Calls caller f

structure State (T : Type*) where
  lock : ExclusivePrioritySharedMutex.State T
  frames : T → List Frame

/-- One step of a run: a thread enters a frame and calls for its access, gives the access back and
leaves the frame, goes from `closeClient` on to the connect callback, or something happens inside
the mutex. -/
inductive Label (T : Type*)
  | enter (t : T) (f : Frame)
  | leave (t : T)
  | disconnect (t : T)
  | mutex (a : ExclusivePrioritySharedMutex.Label T)

def lockOp : Access → Op
  | .shared => .lockShared
  | .exclusive => .lock

def unlockOp : Access → Op
  | .shared => .unlockShared
  | .exclusive => .unlock

section Steps

variable {T : Type*} [DecidableEq T]

def State.become (s : State T) (t : T) (frames : List Frame)
    (m : ExclusivePrioritySharedMutex.State T) : State T :=
  ⟨m, Function.update s.frames t frames⟩

variable [Fintype T]

def callMutex (m : ExclusivePrioritySharedMutex.State T) (t : T) :
    Option Op → Option (ExclusivePrioritySharedMutex.State T)
  | some op => ExclusivePrioritySharedMutex.next m (.call t op)
  | none => if (m.threads t).pc = .outside then some m else none

def next (role : T → Role) (s : State T) : Label T → Option (State T)
  | .enter t f =>
      if Enters (role t) (s.frames t) f then
        (callMutex s.lock t (f.access.map lockOp)).map (s.become t (f :: s.frames t))
      else none
  | .leave t =>
      match s.frames t with
      | f :: frames => (callMutex s.lock t (f.access.map unlockOp)).map (s.become t frames)
      | [] => none
  | .disconnect t =>
      match s.frames t with
      | .closeClient :: frames =>
          (callMutex s.lock t (some .unlock)).map (s.become t (.connectCallback :: frames))
      | _ => none
  | .mutex (.call _ _) => none
  | .mutex a => (ExclusivePrioritySharedMutex.next s.lock a).map (⟨·, s.frames⟩)

variable (T) in
def initial : State T := ⟨ExclusivePrioritySharedMutex.initial T, fun _ => []⟩

def system (role : T → Role) : TransitionSystem (State T) (Label T) := ⟨initial T, next role⟩

end Steps

/-! ### What a step changes -/

section Cases

variable {T : Type*} [DecidableEq T]

theorem become_frames_self (s : State T) (t : T) (frames : List Frame)
    (m : ExclusivePrioritySharedMutex.State T) : (s.become t frames m).frames t = frames :=
  Function.update_self ..

theorem become_frames_ne (s : State T) {t u : T} (frames : List Frame)
    (m : ExclusivePrioritySharedMutex.State T) (h : u ≠ t) :
    (s.become t frames m).frames u = s.frames u := Function.update_of_ne h ..

variable [Fintype T] {role : T → Role} {s s' : State T}

theorem callMutex_some {m m' : ExclusivePrioritySharedMutex.State T} {t : T} {op : Op}
    (h : callMutex m t (some op) = some m') :
    ∃ th', (m.threads t).begin op = some th' ∧ m' = m.setThread t th' := by
  obtain ⟨th', hb, rfl⟩ := Option.map_eq_some_iff.mp h
  exact ⟨th', hb, rfl⟩

theorem callMutex_none {m m' : ExclusivePrioritySharedMutex.State T} {t : T}
    (h : callMutex m t none = some m') : (m.threads t).pc = .outside ∧ m' = m := by
  simp only [callMutex] at h
  split_ifs at h with hpc
  exact ⟨hpc, (Option.some.inj h).symm⟩

theorem callMutex_outside {m m' : ExclusivePrioritySharedMutex.State T} {t : T} {op : Option Op}
    (h : callMutex m t op = some m') : (m.threads t).pc = .outside := by
  cases op with
  | some op =>
      obtain ⟨th', hb, -⟩ := callMutex_some h
      exact (begin_cases hb).1
  | none => exact (callMutex_none h).1

/-- A call into the mutex moves the calling thread only. -/
theorem callMutex_threads_ne {m m' : ExclusivePrioritySharedMutex.State T} {t u : T}
    {op : Option Op} (h : callMutex m t op = some m') (hu : u ≠ t) :
    m'.threads u = m.threads u := by
  cases op with
  | some op =>
      obtain ⟨th', -, rfl⟩ := callMutex_some h
      exact setThread_ne m th' hu
  | none => rw [(callMutex_none h).2]

theorem callMutex_mem {m m' : ExclusivePrioritySharedMutex.State T} {t : T} {op : Option Op}
    (h : callMutex m t op = some m') : m'.mem = m.mem := by
  cases op with
  | some op =>
      obtain ⟨th', -, rfl⟩ := callMutex_some h
      rfl
  | none => rw [(callMutex_none h).2]

/-- A step changes the frames of one thread that is outside the mutex and calls into it, or it is a
step inside the mutex that is no call. -/
theorem next_cases {a : Label T} (h : next role s a = some s') :
    (∃ t frames op m, callMutex s.lock t op = some m ∧ s' = s.become t frames m ∧
        ((∃ f, a = .enter t f ∧ Enters (role t) (s.frames t) f ∧ frames = f :: s.frames t ∧
            op = f.access.map lockOp) ∨
          (∃ f, a = .leave t ∧ s.frames t = f :: frames ∧ op = f.access.map unlockOp) ∨
          (∃ rest, a = .disconnect t ∧ s.frames t = .closeClient :: rest ∧
            frames = .connectCallback :: rest ∧ op = some .unlock))) ∨
      (∃ b m, a = .mutex b ∧ (∀ t op, b ≠ .call t op) ∧
        ExclusivePrioritySharedMutex.next s.lock b = some m ∧ s' = ⟨m, s.frames⟩) := by
  cases a with
  | enter t f =>
      simp only [next] at h
      split_ifs at h with henter
      obtain ⟨m, hm, rfl⟩ := Option.map_eq_some_iff.mp h
      exact Or.inl ⟨t, _, _, m, hm, rfl, Or.inl ⟨f, rfl, henter, rfl, rfl⟩⟩
  | leave t =>
      cases hframes : s.frames t with
      | nil => simp only [next, hframes, reduceCtorEq] at h
      | cons f frames =>
          simp only [next, hframes] at h
          obtain ⟨m, hm, rfl⟩ := Option.map_eq_some_iff.mp h
          exact Or.inl ⟨t, _, _, m, hm, rfl, Or.inr (Or.inl ⟨f, rfl, hframes, rfl⟩)⟩
  | disconnect t =>
      simp only [next] at h
      split at h
      · rename_i rest hframes
        obtain ⟨m, hm, rfl⟩ := Option.map_eq_some_iff.mp h
        exact Or.inl ⟨t, _, _, m, hm, rfl, Or.inr (Or.inr ⟨rest, rfl, hframes, rfl, rfl⟩)⟩
      · cases h
  | mutex b =>
      cases b with
      | call t op => cases h
      | run t =>
          obtain ⟨m, hm, rfl⟩ := Option.map_eq_some_iff.mp h
          exact Or.inr ⟨_, m, rfl, by simp, hm, rfl⟩
      | notify t woken =>
          obtain ⟨m, hm, rfl⟩ := Option.map_eq_some_iff.mp h
          exact Or.inr ⟨_, m, rfl, by simp, hm, rfl⟩
      | spurious t =>
          obtain ⟨m, hm, rfl⟩ := Option.map_eq_some_iff.mp h
          exact Or.inr ⟨_, m, rfl, by simp, hm, rfl⟩

/-- The server uses the mutex as any program does. -/
theorem next_lock {a : Label T} (h : next role s a = some s') :
    s'.lock = s.lock ∨ ∃ b, ExclusivePrioritySharedMutex.next s.lock b = some s'.lock := by
  rcases next_cases h with ⟨t, frames, op, m, hm, rfl, -⟩ | ⟨b, m, -, -, hm, rfl⟩
  · cases op with
    | some o => exact Or.inr ⟨.call t o, hm⟩
    | none => exact Or.inl (callMutex_none hm).2
  · exact Or.inr ⟨b, hm⟩

theorem lock_reachable (h : (system role).Reachable s) :
    (ExclusivePrioritySharedMutex.system T).Reachable s.lock :=
  h.map (f := State.lock) rfl (fun _ _ _ hs => next_lock hs)

theorem lock_leadsTo (h : (system role).LeadsTo s s') :
    (ExclusivePrioritySharedMutex.system T).LeadsTo s.lock s'.lock :=
  h.map (f := State.lock) (fun _ _ _ hs => next_lock hs)

end Cases

/-! ### Frames and the accesses of a thread -/

/-- The access that the operation in progress is to obtain. -/
def acquiring : Pc → Option Access
  | .fastLoadRequests | .fastAdd | .slowAcquire | .slowLoadRequests | .slowLoadCount | .slowWait
  | .slowAsleep | .slowWoken | .slowAdd | .slowRelease => some .shared
  | .lockAddRequest | .lockAcquire | .lockLoadShared | .lockLoadCount | .lockWait | .lockAsleep
  | .lockWoken | .lockSubRequest | .lockAddCount | .lockRelease => some .exclusive
  | _ => none

def accesses (frames : List Frame) : List Access := frames.filterMap Frame.access

/-- A thread holds the accesses of its frames, without that of the innermost one while it is being
obtained. -/
def Holds (frames : List Frame) (th : Thread) : Prop :=
  match acquiring th.pc with
  | none => accesses frames = th.held
  | some a => ∃ f outer, frames = f :: outer ∧ f.access = some a ∧ accesses outer = th.held

/-- What a step inside the mutex does to a thread: the call in progress goes on, or it returns with
its access. -/
inductive Settles (th th' : Thread) : Prop
  | goesOn (hp : acquiring th'.pc = acquiring th.pc) (hh : th'.held = th.held)
  | returns (a : Access) (hp : acquiring th.pc = some a) (hp' : acquiring th'.pc = none)
      (hh : th'.held = a :: th.held)

theorem Settles.refl (th : Thread) : Settles th th := .goesOn rfl rfl

theorem advance_settles {T : Type*} {t : T} {m m' : Mem T} {th th' : Thread}
    (h : advance t m th = some (m', th')) : Settles th th' := by
  obtain ⟨held, pc⟩ := th
  cases pc
  all_goals
    simp only [advance, reduceCtorEq, Option.some.injEq, Option.map_eq_some_iff, Prod.mk.injEq] at h
  case fastAdd =>
    obtain ⟨-, rfl⟩ := h
    split
    · exact .returns .shared rfl rfl rfl
    · exact .goesOn rfl rfl
  case slowRelease =>
    obtain ⟨-, rfl⟩ := h
    exact .returns .shared rfl rfl rfl
  case lockRelease =>
    obtain ⟨-, rfl⟩ := h
    exact .returns .exclusive rfl rfl rfl
  case slowAcquire | slowWoken | unsharedAcquire | lockAcquire | lockWoken | unlockAcquire =>
    obtain ⟨-, -, -, rfl⟩ := h
    exact .goesOn rfl rfl
  all_goals
    obtain ⟨-, rfl⟩ := h
    refine .goesOn ?_ rfl
    first | rfl | (split <;> rfl)

theorem Holds.settles {frames : List Frame} {th th' : Thread} (h : Holds frames th)
    (hs : Settles th th') : Holds frames th' := by
  cases hs with
  | goesOn hp hh => simpa only [Holds, hp, hh] using h
  | returns a hp hp' hh =>
      simp only [Holds, hp] at h
      obtain ⟨f, outer, rfl, hf, houter⟩ := h
      simp only [Holds, hp', accesses, List.filterMap_cons_some hf, hh]
      rw [← houter]
      rfl

section Invariants

variable {T : Type*}

/-- Listen callbacks run inside `readLoop`. -/
def ListensInReadLoop : List Frame → Prop
  | [] => True
  | f :: outer => (f = .listenCallback → outer.head? = some .readLoop) ∧ ListensInReadLoop outer

structure Framed (s : State T) : Prop where
  holds : ∀ t, Holds (s.frames t) (s.lock.threads t)
  listens : ∀ t, ListensInReadLoop (s.frames t)

theorem framed_initial : Framed (initial T) := ⟨fun _ => rfl, fun _ => trivial⟩

variable [DecidableEq T] [Fintype T] {role : T → Role} {s s' : State T}

theorem next_settles {m m' : ExclusivePrioritySharedMutex.State T}
    {b : ExclusivePrioritySharedMutex.Label T} (hb : ∀ t op, b ≠ .call t op)
    (h : ExclusivePrioritySharedMutex.next m b = some m') (u : T) :
    Settles (m.threads u) (m'.threads u) := by
  have hwake : ∀ th : Thread, ∀ cv, th.pc = .asleep cv → Settles th (th.goto (.woken cv)) := by
    intro th cv hpc
    refine .goesOn ?_ rfl
    cases cv <;> simp [hpc, Thread.goto, Pc.asleep, Pc.woken, acquiring]
  cases b with
  | call t op => exact absurd rfl (hb t op)
  | run t =>
      obtain ⟨m', th', hadv, rfl⟩ := next_run h
      by_cases hu : u = t
      · subst u
        simpa using advance_settles hadv
      · simpa only [setThread_ne m th' hu] using Settles.refl _
  | notify t woken =>
      obtain ⟨cv, pc, hn, hw⟩ := next_notify h
      have hmid : Settles (m.threads u) ((m.setThread t ((m.threads t).goto pc)).threads u) := by
        by_cases hu : u = t
        · subst u
          rw [setThread_self]
          refine .goesOn ?_ rfl
          rcases notifies_cases hn with ⟨hpc, rfl⟩ | ⟨hpc, rfl⟩ <;>
            simp [hpc, Thread.goto, acquiring]
        · rw [setThread_ne m _ hu]
          exact Settles.refl _
      rcases wake_cases hw with ⟨v, -, hv, rfl⟩ | ⟨-, -, rfl⟩
      · by_cases huv : u = v
        · subst u
          have hne : v ≠ t := by
            rintro rfl
            rw [setThread_self] at hv
            rcases notifies_cases hn with ⟨-, rfl⟩ | ⟨-, rfl⟩ <;> cases cv <;> cases hv
          rw [setThread_self, setThread_ne m _ hne]
          rw [setThread_ne m _ hne] at hv
          exact hwake _ cv hv
        · rwa [setThread_ne _ _ huv]
      · exact hmid
  | spurious t =>
      obtain ⟨cv, hpc, rfl⟩ := next_spurious h
      by_cases hu : u = t
      · subst u
        rw [setThread_self]
        exact hwake _ cv hpc
      · rw [setThread_ne m _ hu]
        exact Settles.refl _

theorem Holds.outside {frames : List Frame} {th : Thread} (h : Holds frames th)
    (hpc : th.pc = .outside) : accesses frames = th.held := by
  simpa only [Holds, hpc, acquiring] using h

theorem Holds.enter {m m' : ExclusivePrioritySharedMutex.State T} {t : T} {f : Frame}
    {frames : List Frame} (hh : Holds frames (m.threads t))
    (h : callMutex m t (f.access.map lockOp) = some m') : Holds (f :: frames) (m'.threads t) := by
  have hheld := hh.outside (callMutex_outside h)
  cases hf : f.access with
  | none =>
      rw [hf] at h
      obtain ⟨hpc, rfl⟩ := callMutex_none h
      simpa only [Holds, hpc, acquiring, accesses, List.filterMap_cons_none hf] using hheld
  | some a =>
      rw [hf] at h
      obtain ⟨th', hb, rfl⟩ := callMutex_some h
      rw [setThread_self]
      cases a with
      | shared =>
          rcases (begin_cases hb).2 with ⟨-, rfl⟩ | ⟨ho, -⟩ | ⟨ho, -⟩ | ⟨ho, -⟩
          · exact ⟨f, frames, rfl, hf, hheld⟩
          all_goals cases ho
      | exclusive =>
          rcases (begin_cases hb).2 with ⟨ho, -⟩ | ⟨-, rfl⟩ | ⟨ho, -⟩ | ⟨ho, -⟩
          · cases ho
          · exact ⟨f, frames, rfl, hf, hheld⟩
          all_goals cases ho

/-- Giving back the access of the innermost frame leaves the accesses of the others, and the thread
obtains nothing. -/
theorem Holds.leave {m m' : ExclusivePrioritySharedMutex.State T} {t : T} {f : Frame}
    {frames : List Frame} (hh : Holds (f :: frames) (m.threads t))
    (h : callMutex m t (f.access.map unlockOp) = some m') :
    acquiring (m'.threads t).pc = none ∧ accesses frames = (m'.threads t).held := by
  have hheld := hh.outside (callMutex_outside h)
  cases hf : f.access with
  | none =>
      rw [hf] at h
      obtain ⟨hpc, rfl⟩ := callMutex_none h
      rw [accesses, List.filterMap_cons_none hf] at hheld
      exact ⟨by rw [hpc]; rfl, hheld⟩
  | some a =>
      rw [hf] at h
      obtain ⟨th', hb, rfl⟩ := callMutex_some h
      rw [setThread_self]
      rw [accesses, List.filterMap_cons_some hf] at hheld
      cases a with
      | shared =>
          rcases (begin_cases hb).2 with ⟨ho, -⟩ | ⟨ho, -⟩ | ⟨-, hpop, hpc⟩ | ⟨ho, -⟩
          · cases ho
          · cases ho
          · rw [hpop] at hheld
            exact ⟨by rw [hpc]; rfl, (List.cons.inj hheld).2⟩
          · cases ho
      | exclusive =>
          rcases (begin_cases hb).2 with ⟨ho, -⟩ | ⟨ho, -⟩ | ⟨ho, -⟩ | ⟨-, hpop, hpc⟩
          · cases ho
          · cases ho
          · cases ho
          · rw [hpop] at hheld
            exact ⟨by rw [hpc]; rfl, (List.cons.inj hheld).2⟩

theorem holds_of_accesses {frames : List Frame} {th : Thread}
    (h : acquiring th.pc = none ∧ accesses frames = th.held) : Holds frames th := by
  simpa only [Holds, h.1] using h.2

theorem Framed.next (h : Framed s) {a : Label T} (hs : next role s a = some s') : Framed s' := by
  rcases next_cases hs with ⟨t, frames, op, m, hm, rfl, hframes⟩ | ⟨b, m, -, hb, hm, rfl⟩
  · have hholds : Holds frames (m.threads t) ∧ ListensInReadLoop frames := by
      have hht := h.holds t
      have hlt := h.listens t
      rcases hframes with ⟨f, -, henter, rfl, rfl⟩ | ⟨f, -, hf, rfl⟩ | ⟨rest, -, hf, rfl, rfl⟩
      · refine ⟨hht.enter hm, ?_, hlt⟩
        rintro rfl
        cases hc : s.frames t with
        | nil => cases hr : role t <;> simp [Enters, Starts, hc, hr] at henter
        | cons caller outer => cases caller <;> simp_all [Enters, Calls]
      · rw [hf] at hht hlt
        exact ⟨holds_of_accesses (hht.leave hm), hlt.2⟩
      · rw [hf] at hht hlt
        have hrest : _ ∧ accesses rest = _ := Holds.leave (f := .closeClient) hht hm
        exact ⟨holds_of_accesses hrest, by simp, hlt.2⟩
    constructor
    · intro u
      by_cases hu : u = t
      · subst u
        rw [become_frames_self]
        exact hholds.1
      · rw [become_frames_ne s frames m hu]
        change Holds (s.frames u) (m.threads u)
        rw [callMutex_threads_ne hm hu]
        exact h.holds u
    · intro u
      by_cases hu : u = t
      · subst u
        rw [become_frames_self]
        exact hholds.2
      · rw [become_frames_ne s frames m hu]
        exact h.listens u
  · exact ⟨fun t => (h.holds t).settles (next_settles hb hm t), h.listens⟩

theorem framed_of_reachable (h : (system role).Reachable s) : Framed s :=
  h.invariant framed_initial (fun _ _ _ _ hI _ hs => hI.next hs)

end Invariants

end SocketLib.ServerCallbacks
