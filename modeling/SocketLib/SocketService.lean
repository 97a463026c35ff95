import SocketLib.ClientThreads
import SocketLib.ServerSocketBind
import SocketLib.ServerSocketMutexService
import SocketLib.ServerSocketMutexThreadLoop

/-!
# Which sockets serve their channels

An active channel is serviced when for `readData` and for `handleWriteQueue` some thread of the
library runs a loop that comes to it (`Service.Serviced`). The workers that `bindAndListen` has
started do so in every state of a server, as long as no `lock` of `clientDescriptorsMutex` has to
wait and no reader comes in beside a writer (`SocketRun.LocksAtOnce`): a writer that sleeps in
`lock` is notified by nobody and keeps the workers out. A client has no such thread, so it serves a
channel in no state in which it has an active one: a run of a client is free of such states exactly
when no `connect` succeeds in it (`serviced_iff`).
-/

namespace SocketLib

/-- Threads with their loops, and the channels of a socket. -/
structure Service (σ ℓ T L C : Type*) where
  system : TransitionSystem σ ℓ
  owns : σ → C → Prop
  active : σ → C → Prop
  runs : σ → T → L → Prop
  calls : σ → T → L → C → Prop
  /-- The steps that bring a thread on. -/
  towards : T → σ → ℓ → Prop

/-- For each loop a thread that runs it can come to every active channel, unless the socket gives
the channel up or finds it ended. -/
def Service.Serviced {σ ℓ T L C : Type*} (V : Service σ ℓ T L C) (s : σ) : Prop :=
  ∀ c, V.owns s c → V.active s c → ∀ loop, ∃ t, V.runs s t loop ∧
    ∃ s', V.system.LeadsBy (V.towards t) s s' ∧
      (V.calls s' t loop c ∨ ¬ (V.owns s' c ∧ V.active s' c))

variable {T : Type*} [DecidableEq T] [Fintype T]

namespace ServerSocketMutex

open ServerSocket (Entry Loop Role)

/-- Each entry of the map with the workers. -/
def service (role : T → Role) (registered : Bool) : Service (State T) (Label T) T Loop Entry where
  system := system role registered
  owns s e := e ∈ s.server.mem.clients
  active s e := s.server.mem.isActive e.2 = true
  runs s t loop := role t = .worker loop ∧ (s.server.points t).loop = some loop
  calls s t loop e := At loop e t s
  towards t s a := Towards t s a ∧ LocksAtOnce s a

theorem serviced {role : T → Role} {registered : Bool} {s : State T}
    (hworkers : ∀ loop, ∃ t, role t = .worker loop)
    (hr : (system role registered).ReachedBy LocksAtOnce s) :
    (service role registered).Serviced s := by
  intro e he hactive loop
  obtain ⟨t, ht⟩ := hworkers loop
  have hin := ServerSocket.worker_in_loop (server_reachable (reachedBy_apart hr)) ht
    (Bool.and_eq_true_iff.mp hactive).2
  exact ⟨t, ⟨ht, hin⟩, worker_reaches role registered hr ht e⟩

end ServerSocketMutex

namespace ClientThreads

open ClientSocket (Settings)
open ServerSocket (Loop)

/-- The one channel with the threads that run a loop. -/
def service (k : Settings) (users : T → Bool) : Service (State T) (Label T) T Loop Unit where
  system := system k users
  owns s _ := s.channel.isSome
  active s _ := s.active ∧ ∀ c ∈ s.channel, c.active
  runs s t loop := (s.tasks t).loop = some loop
  calls s t loop _ := ∃ p, s.tasks t = .loopCall loop p
  towards t _ a := ∃ choice, a = .thread t choice

variable {k : Settings} {users : T → Bool} {s s' : State T} {as : List (Label T)}

/-- In no state of a client an active channel is serviced. -/
theorem serviced_iff_no_active (h : (system k users).Reachable s) :
    (service k users).Serviced s ↔ ∀ c ∈ s.channel, ¬ (c.active ∧ s.active) := by
  constructor
  · rintro hserviced c hc ⟨hactive, hsocket⟩
    have howns : s.channel.isSome := Option.isSome_iff_exists.mpr ⟨c, hc⟩
    have hchannel : ∀ d ∈ s.channel, d.active := by
      intro d hd
      obtain rfl := Option.mem_unique hc hd
      exact hactive
    obtain ⟨t, ht, -⟩ := hserviced () howns ⟨hsocket, hchannel⟩ .write
    exact nomatch (no_loop h t).symm.trans ht
  · intro hnone _ howns hactive
    obtain ⟨c, hc⟩ := Option.isSome_iff_exists.mp howns
    exact absurd ⟨hactive.2 c hc, hactive.1⟩ (hnone c hc)

theorem throughout_iff (hr : (system k users).Reachable s) (hnone : s.channel = none)
    (hs : (system k users).exec s as = some s') :
    (system k users).Throughout (service k users).Serviced s as ↔
      ∀ a ∈ as, a.connects = false := by
  induction as generalizing s with
  | nil =>
      have hserviced : (service k users).Serviced s := by
        rw [serviced_iff_no_active hr, hnone]
        exact nofun
      exact iff_of_true hserviced nofun
  | cons a as ih =>
      rw [TransitionSystem.exec_cons] at hs
      obtain ⟨t, ht, hrest⟩ := Option.bind_eq_some_iff.mp hs
      have hreach : (system k users).Reachable t := hr.step trivial ht
      cases ha : a.connects with
      | true =>
          obtain ⟨hactive, hchannel⟩ := next_of_connects ha ht
          constructor
          · intro hall
            have hserviced := (hall.2 t ht).first
            rw [serviced_iff_no_active hreach] at hserviced
            exact absurd ⟨rfl, hactive⟩ (hserviced _ hchannel)
          · intro hall
            have hnot := hall a List.mem_cons_self
            rw [ha] at hnot
            cases hnot
      | false =>
          have hrun := ih hreach (next_of_not_connects ha ht hnone) hrest
          constructor
          · intro hall b hb
            rcases List.mem_cons.mp hb with rfl | hb
            · exact ha
            · exact hrun.mp (hall.2 t ht) b hb
          · intro hall
            refine ⟨?_, fun t' ht' => ?_⟩
            · rw [serviced_iff_no_active hr, hnone]
              exact nofun
            · obtain rfl := Option.some.inj (ht.symm.trans ht')
              exact hrun.mpr (fun b hb => hall b (List.mem_cons_of_mem a hb))

end ClientThreads

/-! ### Runs of either role -/

/-- A run of a server after a call of `bindAndListen`, or of a client from its constructor on. -/
inductive SocketRun (T : Type*)
  | server (status : ServerSocket.SystemCall → ℤ) (srv : ServerSocket.Server)
      (role : T → ServerSocket.Role) (registered : Bool)
      (labels : List (ServerSocketMutex.Label T))
  | client (k : ClientSocket.Settings) (users : T → Bool) (labels : List (ClientThreads.Label T))

namespace SocketRun

/-- The call of `bindAndListen` returns, with a thread for each that it has started, and the labels
are those of a run. -/
def Valid : SocketRun T → Prop
  | .server status srv role registered labels =>
      (∃ srv', ServerSocket.bindAndListen status srv = .returned srv' ∧
        ∀ r ∈ srv'.threads, ∃ t, role t = r) ∧
      ∃ s, (ServerSocketMutex.system role registered).exec
        (ServerSocketMutex.system role registered).start labels = some s
  | .client k users labels =>
      ∃ s, (ClientThreads.system k users).exec (ClientThreads.system k users).start labels = some s

/-- In every state of the run each active channel is serviced. -/
def Serviced : SocketRun T → Prop
  | .server _ _ role registered labels =>
      (ServerSocketMutex.system role registered).Throughout
        (ServerSocketMutex.service role registered).Serviced
        (ServerSocketMutex.system role registered).start labels
  | .client k users labels =>
      (ClientThreads.system k users).Throughout (ClientThreads.service k users).Serviced
        (ClientThreads.system k users).start labels

/-- It is a run of a client in which a `connect` succeeds. -/
def Connects : SocketRun T → Prop
  | .server .. => False
  | .client _ _ labels => ∃ a ∈ labels, a.connects

/-- On the mutex of a server no `lock` has to wait, and no fast-path increment of `lock_shared` is
made beside a writer. -/
def LocksAtOnce : SocketRun T → Prop
  | .server _ _ role registered labels =>
      (ServerSocketMutex.system role registered).Along ServerSocketMutex.LocksAtOnce
        (ServerSocketMutex.system role registered).start labels
  | .client .. => True

/-- Every active channel is serviced throughout, unless it is that of a client. -/
theorem serviced_iff {run : SocketRun T} (h : run.Valid) (hlocks : run.LocksAtOnce) :
    run.Serviced ↔ ¬ run.Connects := by
  cases run with
  | server status srv role registered labels =>
      obtain ⟨⟨srv', hreturned, hstarted⟩, -⟩ := h
      obtain ⟨-, -, hworkers⟩ := ServerSocket.bindAndListen_returned hreturned
      refine iff_of_true ?_ not_false
      have hreached := hlocks.throughout
        (I := (ServerSocketMutex.system role registered).ReachedBy ServerSocketMutex.LocksAtOnce)
        (fun _ _ _ hr hg hs => hr.step hg hs) .start
      exact hreached.mono fun _ hr =>
        ServerSocketMutex.serviced (fun loop => hstarted _ (hworkers loop)) hr
  | client k users labels =>
      obtain ⟨s, hs⟩ := h
      rw [Serviced, ClientThreads.throughout_iff .start rfl hs]
      simp only [Connects, not_exists, not_and, Bool.not_eq_true]

/-- A client connects, and a message is queued on its channel. -/
def writingClient : SocketRun Unit :=
  .client ⟨false, false, false⟩ (fun _ => true)
    [.thread () .connect, .thread () (.connectStatus .success ()),
      .thread () (.channel (.queueWrite ⟨some [1], 1, by decide⟩)), .thread () (.channel .go),
      .thread () (.channel .go)]

theorem not_serviced : ¬ ∀ run : SocketRun Unit, run.Valid → run.Serviced := by
  intro h
  have hvalid : writingClient.Valid := ⟨_, rfl⟩
  have hall := h writingClient hvalid
  rw [writingClient, Serviced, ClientThreads.throughout_iff .start rfl hvalid.choose_spec] at hall
  cases hall _ (List.mem_cons_of_mem _ List.mem_cons_self)

/-- The listen thread of a server with one worker of each kind registers a client, and the reader
walks over the map. -/
def acceptingServer (role : T → ServerSocket.Role) (t reader : T) : SocketRun T :=
  .server (fun _ => 0) { ServerSocket.Server.fresh with workerThreadCount := 1 } role true
    (ServerSocketMutex.goes t 3 ++ ServerSocketMutex.accepts t 5 [(5, 0)] ++
      ServerSocketMutex.goes reader 1 ++ ServerSocketMutex.locksShared reader)

theorem serviced_acceptingServer :
    (acceptingServer ![.listenThread, .worker .read, .worker .write] (0 : Fin 3) 1).Serviced := by
  have hrun : ((ServerSocketMutex.system ![.listenThread, .worker .read, .worker .write]
      true).execWhile ServerSocketMutex.LocksAtOnce (ServerSocketMutex.system
        ![.listenThread, .worker .read, .worker .write] true).start
      (ServerSocketMutex.goes (0 : Fin 3) 3 ++ ServerSocketMutex.accepts 0 5 [(5, 0)] ++
        ServerSocketMutex.goes 1 1 ++ ServerSocketMutex.locksShared 1)).isSome := by decide
  obtain ⟨s, hs⟩ := Option.isSome_iff_exists.mp hrun
  obtain ⟨hexec, halong⟩ := TransitionSystem.execWhile_eq_some.mp hs
  have hvalid : (acceptingServer ![.listenThread, .worker .read, .worker .write]
      (0 : Fin 3) 1).Valid := by
    refine ⟨⟨_, rfl, fun r hr => ?_⟩, s, hexec⟩
    change r ∈ [.listenThread, .worker .read, .worker .write] at hr
    fin_cases hr
    exacts [⟨0, rfl⟩, ⟨1, rfl⟩, ⟨2, rfl⟩]
  exact (serviced_iff hvalid halong).mpr not_false

end SocketRun
end SocketLib
