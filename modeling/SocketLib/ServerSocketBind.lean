import SocketLib.ServerSocket

/-!
# `bindAndListen`

The calls to the kernel are made one after the other, and `throwIfError` leaves the function at the
first that fails. `active` has been set by then and nothing resets it, and before `listen` the
listen thread has been started; so a call that throws never leaves the server as it was
(`failureAtomic_iff`), and the next call is refused (`retry_refused`).

Assigning to a `std::thread` that is joinable terminates the process.
-/

namespace SocketLib.ServerSocket

/-- The calls of `bindAndListen` to the kernel, in order. -/
inductive SystemCall
  | reuseAddr
  | noDelay
  | bind
  | listen
  deriving DecidableEq

inductive BindError
  | alreadyRunning
  | failed (call : SystemCall)
  deriving DecidableEq

/-- The members that `bindAndListen` reads and writes: of `connectionListenThread`, whether it is
joinable, and of each of the `workerThreads`, the loop it was started with. -/
structure Server where
  active : Bool
  noDelay : Bool
  workerThreadCount : UInt16
  connectionListenThread : Bool
  workerThreads : List Loop
  deriving DecidableEq

inductive BindResult
  | returned (s : Server)
  | thrown (e : BindError) (s : Server)
  | terminated
  deriving DecidableEq

/-- `Utils::throwIfError`, with the rest of the function. -/
def throwIfError (status : SystemCall → ℤ) (call : SystemCall) (s : Server)
    (rest : Server → BindResult) : BindResult :=
  if status call ≠ 0 then .thrown (.failed call) s else rest s

def setNoDelay (status : SystemCall → ℤ) (s : Server) (rest : Server → BindResult) : BindResult :=
  if s.noDelay then throwIfError status .noDelay s rest else rest s

/-- `connectionListenThread = std::thread(...)`, with the rest of the function. -/
def startListenThread (s : Server) (rest : Server → BindResult) : BindResult :=
  if s.connectionListenThread then .terminated else rest { s with connectionListenThread := true }

/-- The loops that are started, one of each kind for every worker. -/
def workerLoops (workerThreadCount : UInt16) : List Loop :=
  (List.replicate (max workerThreadCount.toNat 1) [Loop.read, Loop.write]).flatten

/-- `status` is what each call to the kernel returns. -/
def bindAndListen (status : SystemCall → ℤ) (s : Server) : BindResult :=
  if s.active then .thrown .alreadyRunning s
  else
    throwIfError status .reuseAddr { s with active := true } fun s =>
      setNoDelay status s fun s =>
        throwIfError status .bind s fun s =>
          startListenThread s fun s =>
            throwIfError status .listen s fun s =>
              .returned { s with
                workerThreads := s.workerThreads ++ workerLoops s.workerThreadCount }

/-- The threads of a server that have been started. -/
def Server.threads (s : Server) : List Role :=
  (if s.connectionListenThread then [.listenThread] else []) ++ s.workerThreads.map .worker

/-- Nothing shows that there was a call. -/
structure LeftAsBefore (s s' : Server) : Prop where
  inactive : s'.active = false
  threads : s'.threads = s.threads
  retry : ∀ status, (∀ call, status call = 0) → ∃ r, bindAndListen status s' = .returned r

/-- If the call throws, the server is left as before. -/
def FailureAtomic (status : SystemCall → ℤ) (s : Server) : Prop :=
  ∀ e s', bindAndListen status s = .thrown e s' → LeftAsBefore s s'

/-- Every call that is made succeeds. No call is made past the assignment to a joinable thread. -/
def NoneFails (status : SystemCall → ℤ) (s : Server) : Prop :=
  status .reuseAddr = 0 ∧ (s.noDelay → status .noDelay = 0) ∧ status .bind = 0 ∧
    (s.connectionListenThread = false → status .listen = 0)

variable {status : SystemCall → ℤ} {call : SystemCall} {s s' : Server} {e : BindError}
  {rest : Server → BindResult}

theorem throwIfError_eq_thrown :
    throwIfError status call s rest = .thrown e s' ↔
      (status call ≠ 0 ∧ e = .failed call ∧ s' = s) ∨
        (status call = 0 ∧ rest s = .thrown e s') := by
  rw [throwIfError]
  split_ifs with h
  · simp only [BindResult.thrown.injEq, h, ne_eq, not_false_iff, true_and, false_and, or_false,
      eq_comm]
  · simp [not_not.mp h]

theorem setNoDelay_eq_thrown :
    setNoDelay status s rest = .thrown e s' ↔
      (s.noDelay ∧ status .noDelay ≠ 0 ∧ e = .failed .noDelay ∧ s' = s) ∨
        ((s.noDelay → status .noDelay = 0) ∧ rest s = .thrown e s') := by
  rw [setNoDelay]
  split_ifs with h
  · simp only [throwIfError_eq_thrown, h, true_and, forall_const]
  · simp [h]

theorem startListenThread_eq_thrown :
    startListenThread s rest = .thrown e s' ↔ s.connectionListenThread = false ∧
      rest { s with connectionListenThread := true } = .thrown e s' := by
  rw [startListenThread]
  split_ifs with h <;> simp [h]

/-- What a call that throws has failed at, and how it leaves the server. -/
theorem bindAndListen_eq_thrown (hs : s.active = false) :
    bindAndListen status s = .thrown e s' ↔
      (status .reuseAddr ≠ 0 ∧ e = .failed .reuseAddr ∧ s' = { s with active := true }) ∨
      (status .reuseAddr = 0 ∧ s.noDelay ∧ status .noDelay ≠ 0 ∧ e = .failed .noDelay ∧
        s' = { s with active := true }) ∨
      (status .reuseAddr = 0 ∧ (s.noDelay → status .noDelay = 0) ∧ status .bind ≠ 0 ∧
        e = .failed .bind ∧ s' = { s with active := true }) ∨
      (status .reuseAddr = 0 ∧ (s.noDelay → status .noDelay = 0) ∧ status .bind = 0 ∧
        s.connectionListenThread = false ∧ status .listen ≠ 0 ∧ e = .failed .listen ∧
        s' = { s with active := true, connectionListenThread := true }) := by
  simp only [bindAndListen, hs, Bool.false_eq_true, if_false, throwIfError_eq_thrown,
    setNoDelay_eq_thrown, startListenThread_eq_thrown, reduceCtorEq, and_false, or_false,
    and_or_left]

/-- From an inactive server, an exception leaves `active` set. -/
theorem thrown_active (hs : s.active = false) (h : bindAndListen status s = .thrown e s') :
    s'.active = true := by
  rcases (bindAndListen_eq_thrown hs).mp h with
    ⟨-, -, rfl⟩ | ⟨-, -, -, -, rfl⟩ | ⟨-, -, -, -, rfl⟩ | ⟨-, -, -, -, -, -, rfl⟩ <;> rfl

theorem thrown_of_not_noneFails (hs : s.active = false) (h : ¬ NoneFails status s) :
    ∃ e s', bindAndListen status s = .thrown e s' := by
  simp only [bindAndListen_eq_thrown hs]
  unfold NoneFails at h
  by_cases hreuse : status .reuseAddr = 0
  · by_cases hdelay : s.noDelay → status .noDelay = 0
    · by_cases hbind : status .bind = 0
      · have hlisten : s.connectionListenThread = false ∧ status .listen ≠ 0 := by
          by_contra hnot
          exact h ⟨hreuse, hdelay, hbind, fun hthread => by_contra fun hne => hnot ⟨hthread, hne⟩⟩
        exact ⟨_, _, Or.inr (Or.inr (Or.inr
          ⟨hreuse, hdelay, hbind, hlisten.1, hlisten.2, rfl, rfl⟩))⟩
      · exact ⟨_, _, Or.inr (Or.inr (Or.inl ⟨hreuse, hdelay, hbind, rfl, rfl⟩))⟩
    · push Not at hdelay
      exact ⟨_, _, Or.inr (Or.inl ⟨hreuse, hdelay.1, hdelay.2, rfl, rfl⟩)⟩
  · exact ⟨_, _, Or.inl ⟨hreuse, rfl, rfl⟩⟩

theorem not_thrown_of_noneFails (hs : s.active = false) (h : NoneFails status s) :
    bindAndListen status s ≠ .thrown e s' := by
  obtain ⟨hreuse, hdelay, hbind, hlisten⟩ := h
  rw [ne_eq, bindAndListen_eq_thrown hs]
  rintro (⟨hne, -⟩ | ⟨-, hon, hne, -⟩ | ⟨-, -, hne, -⟩ | ⟨-, -, -, hthread, hne, -⟩)
  · exact hne hreuse
  · exact hne (hdelay hon)
  · exact hne hbind
  · exact hne (hlisten hthread)

/-- The call is failure-atomic only where it does not fail. -/
theorem failureAtomic_iff (hs : s.active = false) :
    FailureAtomic status s ↔ NoneFails status s := by
  constructor
  · intro h
    by_contra hfails
    obtain ⟨e, s', hthrown⟩ := thrown_of_not_noneFails hs hfails
    have hinactive := (h e s' hthrown).inactive
    rw [thrown_active hs hthrown] at hinactive
    cases hinactive
  · intro h e s' hthrown
    exact absurd hthrown (not_thrown_of_noneFails hs h)

/-! ### After a call that has thrown -/

/-- Whatever the kernel would say, the next call is refused. -/
theorem retry_refused (hs : s.active = false) (h : bindAndListen status s = .thrown e s')
    (status' : SystemCall → ℤ) : bindAndListen status' s' = .thrown .alreadyRunning s' := by
  rw [bindAndListen, if_pos (thrown_active hs h)]

/-- After a failed `listen` the listen thread stays; with `notifyStop` in between, the next call
that gets as far as it terminates the process. -/
theorem restart_terminates (hs : s.active = false)
    (h : bindAndListen status s = .thrown (.failed .listen) s') {status' : SystemCall → ℤ}
    (hstatus : ∀ call, status' call = 0) :
    .listenThread ∈ s'.threads ∧
      bindAndListen status' { s' with active := false } = .terminated := by
  have hthread : s'.connectionListenThread = true := by
    rcases (bindAndListen_eq_thrown hs).mp h with
      ⟨-, he, -⟩ | ⟨-, -, -, he, -⟩ | ⟨-, -, -, he, -⟩ | ⟨-, -, -, -, -, -, rfl⟩
    · cases he
    · cases he
    · cases he
    · rfl
  constructor
  · simp [Server.threads, hthread]
  · simp [bindAndListen, throwIfError, setNoDelay, startListenThread, hstatus, hthread]

/-- A server that has not been bound yet. -/
def Server.fresh : Server where
  active := false
  noDelay := false
  workerThreadCount := 2
  connectionListenThread := false
  workerThreads := []

/-- `bind` fails on a fresh server. -/
theorem not_failureAtomic : ¬ ∀ status s, s.active = false → FailureAtomic status s := by
  intro h
  have hleft := h (fun call => if call = .bind then -1 else 0) Server.fresh rfl
    (.failed .bind) { Server.fresh with active := true } (by decide)
  cases hleft.inactive

/-- On a fresh server with calls that succeed nothing is thrown. -/
theorem failureAtomic_all_succeed : FailureAtomic (fun _ => 0) Server.fresh :=
  (failureAtomic_iff rfl).mpr ⟨rfl, fun _ => rfl, rfl, fun _ => rfl⟩

/-! ### What a call that returns has started -/

theorem throwIfError_eq_returned :
    throwIfError status call s rest = .returned s' ↔ status call = 0 ∧ rest s = .returned s' := by
  rw [throwIfError]
  split_ifs with h <;> simp_all

theorem setNoDelay_returned (h : setNoDelay status s rest = .returned s') :
    rest s = .returned s' := by
  rw [setNoDelay] at h
  split_ifs at h
  · exact (throwIfError_eq_returned.mp h).2
  · exact h

theorem startListenThread_eq_returned :
    startListenThread s rest = .returned s' ↔ s.connectionListenThread = false ∧
      rest { s with connectionListenThread := true } = .returned s' := by
  rw [startListenThread]
  split_ifs with h <;> simp [h]

/-- A call that returns leaves the server active, with the listen thread and a worker for each of
the loops. -/
theorem bindAndListen_returned (h : bindAndListen status s = .returned s') :
    s'.active = true ∧ .listenThread ∈ s'.threads ∧ ∀ loop, .worker loop ∈ s'.threads := by
  rw [bindAndListen] at h
  split_ifs at h
  have hdelay := setNoDelay_returned (throwIfError_eq_returned.mp h).2
  have hthread := (startListenThread_eq_returned.mp (throwIfError_eq_returned.mp hdelay).2).2
  obtain rfl := BindResult.returned.inj (throwIfError_eq_returned.mp hthread).2
  refine ⟨rfl, by simp [Server.threads], fun loop => ?_⟩
  have hloop : loop ∈ workerLoops s.workerThreadCount := by
    rw [workerLoops, List.mem_flatten]
    refine ⟨[.read, .write], List.mem_replicate.mpr ⟨by omega, rfl⟩, ?_⟩
    cases loop <;> simp
  simp [Server.threads, hloop]

end SocketLib.ServerSocket
