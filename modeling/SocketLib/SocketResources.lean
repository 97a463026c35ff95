import SocketLib.ClientSocketConnect
import SocketLib.Socket

/-!
# What `Socket` acquires and gives back

The destructor of `Socket` frees the list from `servInfo` on, and those of `ServerSocket` and
`ClientSocket` close the descriptor before that. Nodes that `servInfo` has been moved past are out
of reach for it, and a constructor that throws has no destructor. So the account of a list that
`getaddrinfo` has returned, which has entries, is balanced just when the first of them serves, or
none does (`resourcesBalanced_iff`).
-/

namespace SocketLib.SocketCore

section Resources

variable {A : Type}

/-- `freeaddrinfo` frees the node it is given and those after it. -/
def freeaddrinfo (p : List (AddrInfo A)) : List (Event A) :=
  p.map fun q => .released (.node q.node)

/-- `~Socket`. -/
def destroy (this : Socket A) : List (Event A) :=
  if this.servInfo.isEmpty then [] else freeaddrinfo this.servInfo

/-- `~ServerSocket` of a server without clients and threads, and then `~Socket`. -/
def destroyServer (this : Socket A) : List (Event A) :=
  (if this.socketDescriptor ≠ -1 then [.released (.descriptor this.socketDescriptor)] else []) ++
    destroy this

/-- The descriptors that a client socket closes. -/
def closed? : ClientSocket.Action → Option (Event A)
  | .close fd => some (.released (.descriptor fd))
  | _ => none

/-- What a client socket has done when its destructor has called `close`, and then `~Socket`. -/
def destroyClient (k : ClientSocket.Settings) (m : ClientSocket.Mem) (this : Socket A) :
    List (Event A) := (m.close k).trace.filterMap closed? ++ destroy this

variable [DecidableEq A]

/-- What has been acquired has been released exactly once. -/
def Settled (events : List (Event A)) : Prop :=
  ∀ r, .acquired r ∈ events → events.count (.released r) = 1

/-- The account is settled after a constructor that throws, and otherwise at the end of the life of
a server, and of a client whose `connect` has returned. -/
structure ResourcesBalanced (list : AddrList A) : Prop where
  thrown : ∀ e, (construct list).outcome = .thrown e → Settled (construct list).trace
  server : ∀ this, (construct list).outcome = .returned this →
    Settled ((construct list).trace ++ destroyServer this)
  client : ∀ this k succeeds outcomes m, (construct list).outcome = .returned this →
    ClientSocket.connect k succeeds (ClientSocket.initial this.socketDescriptor).mem outcomes =
      some (.returned m) →
    Settled ((construct list).trace ++ destroyClient k m this)

/-- The first entry that `socket` succeeds on, if there is one, is the head of the list, and its
`fcntl` succeeds. -/
def HeadServes (list : AddrList A) : Prop :=
  ∀ before p after, Chosen list before p after → before = [] ∧ p.fcntl = 0

end Resources

/-! ### The client -/

section Client

variable {A : Type} {k : ClientSocket.Settings} {m m' : ClientSocket.Mem}
  {outcomes : List ClientSocket.ConnectStatus} {succeeds : Bool}

/-- A `connect` that returns has closed nothing. -/
theorem connectLoop_closes_none
    (h : ClientSocket.connectLoop k m outcomes = some (.returned m')) :
    m'.socketDescriptor = m.socketDescriptor ∧
      (m'.trace.filterMap closed? : List (Event A)) = m.trace.filterMap closed? := by
  induction outcomes generalizing m with
  | nil => cases h
  | cons status outcomes ih =>
      cases status with
      | success =>
          obtain rfl := ClientSocket.ConnectResult.returned.inj (Option.some.inj h)
          exact ⟨rfl, by simp [ClientSocket.Mem.connected, List.filterMap_append, closed?]⟩
      | wouldBlock =>
          obtain ⟨hfd, htrace⟩ := ih h
          exact ⟨hfd, by rw [htrace]; simp [List.filterMap_append, closed?]⟩
      | _ => cases h

theorem connect_closes_none
    (h : ClientSocket.connect k succeeds m outcomes = some (.returned m')) :
    m'.socketDescriptor = m.socketDescriptor ∧
      (m'.trace.filterMap closed? : List (Event A)) = m.trace.filterMap closed? := by
  rw [ClientSocket.connect] at h
  split_ifs at h
  · obtain ⟨hfd, htrace⟩ := connectLoop_closes_none (A := A) h
    exact ⟨hfd, by rw [htrace]; simp [List.filterMap_append, closed?]⟩
  · cases h
  · exact connectLoop_closes_none h

/-- The destructors of a client and of a server give back the same. -/
theorem destroyClient_eq {this : Socket A}
    (h : ClientSocket.connect k succeeds (ClientSocket.initial this.socketDescriptor).mem outcomes =
      some (.returned m)) : destroyClient k m this = destroyServer this := by
  obtain ⟨hfd, htrace⟩ := connect_closes_none (A := A) h
  have hinvoke : ∀ m : ClientSocket.Mem, ((m.invokeConnect k false).trace.filterMap closed? :
      List (Event A)) = m.trace.filterMap closed? := by
    intro m
    rw [ClientSocket.Mem.invokeConnect]
    split
    · simp [List.filterMap_append, closed?]
    · rfl
  have hnone : ((ClientSocket.initial this.socketDescriptor).mem.trace.filterMap closed? :
      List (Event A)) = [] := rfl
  have hsame : m.socketDescriptor = this.socketDescriptor := hfd
  rw [destroyClient, destroyServer, ClientSocket.Mem.close, hinvoke]
  by_cases hdescriptor : this.socketDescriptor = -1
  · rw [ClientSocket.Mem.closeDescriptor_of_eq m (hsame.trans hdescriptor), htrace, hnone,
      if_neg (not_not.mpr hdescriptor)]
  · have hclosed : (m.closeDescriptor.trace.filterMap closed? : List (Event A)) =
        [.released (.descriptor this.socketDescriptor)] := by
      rw [ClientSocket.Mem.closeDescriptor_of_ne m (by rwa [hsame]), hsame]
      change ((m.trace ++ [_]) ++ [_]).filterMap closed? = _
      rw [List.filterMap_append, List.filterMap_append, htrace]
      rfl
    rw [hclosed, if_pos hdescriptor]

end Client

/-! ### The account -/

section Account

variable {A : Type} {list : AddrList A} {this : Socket A} {before after ps : List (AddrInfo A)}
  {p : AddrInfo A} {events : List (Event A)} {r : Resource A}

theorem destroy_eq : destroy this = freeaddrinfo this.servInfo := by
  rw [destroy]
  cases this.servInfo with
  | nil => rfl
  | cons q qs => rfl

theorem acquired_mem_resolved :
    .acquired r ∈ resolved list ↔ ∃ q ∈ list.entries, r = .node q.node := by
  simp [resolved, eq_comm]

theorem released_notMem_resolved : .released r ∉ resolved list := by simp [resolved]

theorem acquired_notMem_freeaddrinfo : .acquired r ∉ freeaddrinfo ps := by simp [freeaddrinfo]

theorem released_mem_freeaddrinfo :
    .released r ∈ freeaddrinfo ps ↔ ∃ q ∈ ps, r = .node q.node := by
  simp [freeaddrinfo, eq_comm]

variable [DecidableEq A]

theorem Settled.released (h : Settled events) (hr : .acquired r ∈ events) :
    .released r ∈ events := by
  have hcount := h r hr
  exact List.count_pos_iff.mp (hcount ▸ Nat.one_pos)

theorem count_freeaddrinfo (a : A) :
    (freeaddrinfo ps).count (.released (.node a)) = (ps.map AddrInfo.node).count a := by
  have hinjective : Function.Injective fun a : A => (Event.released (.node a) : Event A) := by
    intro a b hab
    exact Resource.node.inj (Event.released.inj hab)
  rw [← List.count_map_of_injective _ _ hinjective, List.map_map]
  rfl

/-- All nodes are freed, and the descriptor is closed if there is one. -/
theorem settled_of_whole (list : AddrList A) (fds : List ℤ) (hfds : fds.Nodup) :
    Settled (resolved list ++ fds.map (fun fd => .acquired (.descriptor fd)) ++
      (fds.map (fun fd => .released (.descriptor fd)) ++ freeaddrinfo list.entries)) := by
  intro r hr
  have hresolved : (resolved list).count (.released r) = 0 :=
    List.count_eq_zero.mpr released_notMem_resolved
  have hopened : (fds.map fun fd => (Event.acquired (.descriptor fd) : Event A)).count
      (.released r) = 0 := List.count_eq_zero.mpr (by simp)
  rw [List.count_append, List.count_append, List.count_append, hresolved, hopened]
  cases r with
  | node a =>
      have hclosed : (fds.map fun fd => (Event.released (.descriptor fd) : Event A)).count
          (.released (.node a)) = 0 := List.count_eq_zero.mpr (by simp)
      have hmem : a ∈ list.entries.map AddrInfo.node := by
        simpa [acquired_mem_resolved, acquired_notMem_freeaddrinfo, eq_comm] using hr
      rw [hclosed, count_freeaddrinfo, List.count_eq_one_of_mem list.nodup hmem]
  | descriptor fd =>
      have hinjective : Function.Injective fun fd : ℤ =>
          (Event.released (.descriptor fd) : Event A) := by
        intro n n' h
        exact Resource.descriptor.inj (Event.released.inj h)
      have hfreed : (freeaddrinfo list.entries).count (.released (.descriptor fd)) = 0 :=
        List.count_eq_zero.mpr (by simp [freeaddrinfo])
      have hmem : fd ∈ fds := by
        simpa [acquired_mem_resolved, acquired_notMem_freeaddrinfo] using hr
      have hclosed := List.count_map_of_injective fds _ hinjective fd
      rw [hclosed, hfreed, List.count_eq_one_of_mem hfds hmem]

theorem resourcesBalanced_of_returned (hreturned : (construct list).outcome = .returned this)
    (h : Settled ((construct list).trace ++ destroyServer this)) : ResourcesBalanced list := by
  refine ⟨fun e he => ?_, fun other hother => ?_, fun other k succeeds outcomes m hother hm => ?_⟩
  · rw [hreturned] at he
    cases he
  · obtain rfl := Outcome.returned.inj (hreturned.symm.trans hother)
    exact h
  · obtain rfl := Outcome.returned.inj (hreturned.symm.trans hother)
    rw [destroyClient_eq hm]
    exact h

/-- A node before `servInfo` stays behind. -/
theorem eq_nil_of_settled (hchosen : Chosen list before p after)
    (h : Settled (resolved list ++ [.acquired (.descriptor p.socket)] ++
      destroyServer ⟨p :: after, p.socket⟩)) : before = [] := by
  by_contra hne
  obtain ⟨q, hq⟩ := List.exists_mem_of_ne_nil before hne
  have hentry : q ∈ list.entries := by
    rw [hchosen.entries]
    exact List.mem_append_left _ hq
  have hacquired : .acquired (.node q.node) ∈ resolved list :=
    acquired_mem_resolved.mpr ⟨q, hentry, rfl⟩
  have hreleased := h.released (List.mem_append_left _ (List.mem_append_left _ hacquired))
  rw [destroyServer, destroy_eq, if_pos hchosen.socket] at hreleased
  simp only [List.mem_append, released_notMem_resolved, List.mem_singleton, reduceCtorEq,
    false_or, Event.released.injEq, released_mem_freeaddrinfo] at hreleased
  obtain ⟨q', hq', hnode⟩ := hreleased
  -- the node would be in the list twice
  have hnodup := list.nodup
  rw [hchosen.entries, List.map_append, List.nodup_append] at hnodup
  exact hnodup.2.2 q.node (List.mem_map_of_mem hq) q'.node (List.mem_map_of_mem hq')
    (Resource.node.inj hnode)

/-- What a constructor that throws has opened stays open. -/
theorem not_settled_of_thrown :
    ¬ Settled (resolved list ++ [.acquired (.descriptor p.socket)]) := by
  intro h
  have hreleased := h.released (r := .descriptor p.socket) (by simp)
  simp [released_notMem_resolved] at hreleased

/-- Where `socket` fails on every entry, there is no descriptor and the whole list is freed. -/
theorem resourcesBalanced_of_failing (hne : list.entries ≠ [])
    (hfail : ∀ p ∈ list.entries, p.socket = -1) : ResourcesBalanced list := by
  have hconstruct := construct_of_failing hne hfail
  have hreturned : (construct list).outcome = .returned ⟨list.entries, -1⟩ := by rw [hconstruct]
  apply resourcesBalanced_of_returned hreturned
  have hwhole := settled_of_whole list [] List.nodup_nil
  rw [List.map_nil, List.map_nil, List.append_nil, List.nil_append] at hwhole
  rw [hconstruct, destroyServer, destroy_eq]
  exact hwhole

theorem resourcesBalanced_iff (hne : list.entries ≠ []) :
    ResourcesBalanced list ↔ HeadServes list := by
  constructor
  · intro hbalanced before p after hchosen
    have hconstruct := construct_of_chosen hchosen
    by_cases hfcntl : p.fcntl = 0
    · rw [if_pos hfcntl] at hconstruct
      have hsettled := hbalanced.server ⟨p :: after, p.socket⟩ (by rw [hconstruct])
      rw [hconstruct] at hsettled
      exact ⟨eq_nil_of_settled hchosen hsettled, hfcntl⟩
    · rw [if_neg hfcntl] at hconstruct
      have hsettled := hbalanced.thrown .failed (by rw [hconstruct])
      rw [hconstruct] at hsettled
      exact absurd hsettled not_settled_of_thrown
  · intro hserves
    by_cases hfail : ∀ p ∈ list.entries, p.socket = -1
    · exact resourcesBalanced_of_failing hne hfail
    · push Not at hfail
      obtain ⟨before, p, after, hchosen⟩ := exists_chosen hfail
      obtain ⟨rfl, hfcntl⟩ := hserves before p after hchosen
      have hconstruct := construct_of_chosen hchosen
      rw [if_pos hfcntl] at hconstruct
      have hreturned : (construct list).outcome = .returned ⟨p :: after, p.socket⟩ := by
        rw [hconstruct]
      apply resourcesBalanced_of_returned hreturned
      have hwhole := settled_of_whole list [p.socket] (List.nodup_singleton _)
      rw [hconstruct, destroyServer, if_pos hchosen.socket, destroy_eq]
      rw [hchosen.entries] at hwhole
      exact hwhole

/-- The second of two addresses is taken, and the node of the first is never freed. -/
theorem not_resourcesBalanced :
    ¬ ∀ list : AddrList ℕ, list.entries ≠ [] → ResourcesBalanced list := by
  intro hall
  have hserver := (hall ⟨[⟨0, -1, 0⟩, ⟨1, 3, 0⟩], by decide⟩ (by decide)).server
    ⟨[⟨1, 3, 0⟩], 3⟩ rfl
  exact absurd (hserver (.node 0) (by decide)) (by decide)

/-- The first of two addresses is taken. -/
theorem resourcesBalanced_first_entry :
    ResourcesBalanced (⟨[⟨0, 3, 0⟩, ⟨1, 4, 0⟩], by decide⟩ : AddrList ℕ) := by
  refine (resourcesBalanced_iff (by decide)).mpr fun before p after hchosen => ?_
  have hentries := hchosen.entries
  cases before with
  | nil => exact ⟨rfl, by rw [← (List.cons.inj hentries).1]⟩
  | cons q before =>
      have hq := hchosen.before q List.mem_cons_self
      rw [← (List.cons.inj hentries).1] at hq
      exact absurd hq (by decide)

end Account
end SocketLib.SocketCore
