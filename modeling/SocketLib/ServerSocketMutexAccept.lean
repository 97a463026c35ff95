import SocketLib.ServerSocketAccept
import SocketLib.ServerSocketMutex

/-!
# Connections that nobody closes, over the mutex of the server

As long as no reader comes in beside a writer, the server over its own mutex runs as
`ServerSocket.system` does (`server_reachedBy`). So the condition under which every connection is
closed in the end (`ServerSocket.WithinReach`) is one on the steps of the server here too, whatever
the threads do inside the mutex meanwhile.
-/

namespace SocketLib.ServerSocketMutex

open ServerSocket (Role WithinReach)

section Disposed

variable {T : Type*} [DecidableEq T] [Fintype T] {role : T → Role} {registered : Bool} {s : State T}

/-- Every descriptor that `accept4` has returned is closed by the end of the destructor, in a run in
which the listen thread registers what it has accepted and the sweep of the destructor is left
alone. -/
theorem disposed_of_withinReach
    (h : (system role registered).ReachedBy (fun s a => Apart s a ∧ OnServer WithinReach s a) s)
    (hend : s.server.mem.lifetime = .destroyed) :
    ∀ c < s.server.mem.accepted, (s.server.mem.channel c).Disposed :=
  ServerSocket.disposed_at_end (server_reachedBy h) hend

end Disposed

/-! ### The end of a server with one client -/

section Runs

variable {T : Type*} (t user reader : T)

/-- The server is stopped while `accept4` is under way, its threads end, and it is destroyed. -/
def stopsDuringAccept : List (Label T) :=
  goes t 3 ++ .server (.thread t (.accept (some 5))) :: .server .notifyStop :: goes t 1 ++
    goes reader 1 ++ .server (.thread user .callDestructor) :: goes user 4

/-- A client is registered, the destructor closes it, and the other threads end. -/
def wholeLife : List (Label T) :=
  goes t 3 ++ accepts t 5 [(5, 0)] ++ .server (.thread user .callDestructor) :: goes user 2 ++
    .server (.thread user (.read (5, 0) none)) :: goes t 1 ++ goes reader 1 ++ locks user ++
    goes user 3 ++ unlocks user ++ goes user 7

end Runs

/-- The listen thread leaves with what it has accepted. -/
theorem not_disposed :
    ¬ ∀ as s, (system ServerSocket.smallServer true).exec
        (system ServerSocket.smallServer true).start as = some s →
      s.server.mem.lifetime = .destroyed →
      ∀ c < s.server.mem.accepted, (s.server.mem.channel c).Disposed := by
  intro h
  have hrun : ((system ServerSocket.smallServer true).exec
      (system ServerSocket.smallServer true).start (stopsDuringAccept 0 1 2)).any (fun s =>
        s.server.mem.lifetime = .destroyed ∧ s.server.mem.accepted = 1 ∧
          (s.server.mem.channel 0).closes = 0) = true := by
    decide
  obtain ⟨s, hs, hstate⟩ := (Option.any_eq_true _ _).mp hrun
  obtain ⟨hend, haccepted, hcloses⟩ := of_decide_eq_true hstate
  rcases h _ s hs hend 0 (by rw [haccepted]; exact Nat.one_pos) with ⟨-, hone⟩ | ⟨-, hone⟩
  · exact absurd (hcloses.symm.trans hone) Nat.zero_ne_one
  · exact absurd (hcloses.symm.trans hone) Nat.zero_ne_one

theorem disposed_whole_life :
    ∃ s, (system ServerSocket.smallServer true).ReachedBy
        (fun s a => Apart s a ∧ OnServer WithinReach s a) s ∧
      s.server.mem.accepted = 1 ∧
      ∀ c < s.server.mem.accepted, (s.server.mem.channel c).Disposed := by
  have hrun : ((system ServerSocket.smallServer true).execWhile
      (fun s a => Apart s a ∧ OnServer WithinReach s a)
      (system ServerSocket.smallServer true).start (wholeLife 0 1 2)).any (fun s =>
        s.server.mem.lifetime = .destroyed ∧ s.server.mem.accepted = 1) = true := by
    decide
  obtain ⟨s, hs, hstate⟩ := TransitionSystem.exists_reachedBy_of_execWhile hrun
  obtain ⟨hend, haccepted⟩ := of_decide_eq_true hstate
  exact ⟨s, hs, haccepted, disposed_of_withinReach hs hend⟩

end SocketLib.ServerSocketMutex
