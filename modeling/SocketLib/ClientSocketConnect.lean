import SocketLib.ClientSocket

/-!
# `connect` on a non-blocking socket

The loop of `connect` knows one error to try again on. The first `::connect` of a non-blocking
socket usually says that the connection is in progress, and later ones that it was asked for
already; the loop takes either, and the answer that the connection stands, for a failure, closes the
descriptor and throws. So it follows the protocol only where a connection is never in progress, or
fails in the end (`followsProtocol_iff`).
-/

namespace SocketLib.ClientSocket

/-- What the outcomes of a non-blocking connect come to. -/
inductive Verdict
  | connected
  | failed
  deriving DecidableEq

/-- The sequences of outcomes that `::connect` can give, up to the last. `pending` says that the
connection is in progress. -/
def verdict (pending : Bool) : List ConnectStatus → Option Verdict
  | [.success] => some .connected
  | [.isConnected] => if pending then some .connected else none
  | [.error] => some .failed
  | .wouldBlock :: rest => verdict pending rest
  | .inProgress :: rest => if pending then none else verdict true rest
  | .already :: rest => if pending then verdict true rest else none
  | _ => none

/-- How a call of `connect` ends. -/
inductive ConnectResult
  | returned (m : Mem)
  | thrown (m : Mem)

/-- The loop, with the outcomes of `::connect` that are to come. -/
def connectLoop (k : Settings) (m : Mem) : List ConnectStatus → Option ConnectResult
  | [] => none
  | .success :: _ => some (.returned ((m.does (.connect m.socketDescriptor .success)).connected k))
  | .wouldBlock :: rest => connectLoop k (m.does (.connect m.socketDescriptor .wouldBlock)) rest
  | status :: _ => some (.thrown
      ((m.does (.connect m.socketDescriptor status)).does (.close m.socketDescriptor)))

/-- `succeeds` is what `setsockopt` says if it is called. -/
def connect (k : Settings) (succeeds : Bool) (m : Mem) (outcomes : List ConnectStatus) :
    Option ConnectResult :=
  if k.noDelay then
    if succeeds then connectLoop k (m.does (.setsockopt m.socketDescriptor)) outcomes
    else some (.thrown (m.does (.setsockopt m.socketDescriptor)))
  else connectLoop k m outcomes

/-- Where the connection comes about, the call returns, with a channel on the descriptor; where it
fails, the call throws and there is none. -/
structure FollowsProtocol (k : Settings) (succeeds : Bool) (m : Mem)
    (outcomes : List ConnectStatus) : Prop where
  returns : verdict false outcomes = some .connected →
    ∃ m' c, connect k succeeds m outcomes = some (.returned m') ∧ m'.active = true ∧
      m'.channel = some c ∧ c.clientDescriptor = m.socketDescriptor
  throws : verdict false outcomes = some .failed →
    ∃ m', connect k succeeds m outcomes = some (.thrown m') ∧ m'.active = false ∧
      m'.channel = none

variable {k : Settings} {fd : ℤ} {succeeds : Bool} {m : Mem} {outcomes : List ConnectStatus}
  {v : Verdict}

/-- Only a connection that fails is answered with another error. -/
theorem error_mem_iff {pending : Bool} (h : verdict pending outcomes = some v) :
    .error ∈ outcomes ↔ v = .failed := by
  fun_induction verdict pending outcomes
  case case1 | case2 =>
    obtain rfl := Option.some.inj h
    simp
  case case4 =>
    obtain rfl := Option.some.inj h
    simp
  case case5 ih | case7 ih | case8 ih => simpa using ih h
  all_goals cases h

/-- A connection that is never in progress is there once a `::connect` succeeds. -/
theorem connectLoop_returned (h : verdict false outcomes = some .connected)
    (hprogress : .inProgress ∉ outcomes) (m : Mem) :
    ∃ m' : Mem, connectLoop k m outcomes = some (.returned (m'.connected k)) ∧
      m'.socketDescriptor = m.socketDescriptor := by
  induction outcomes generalizing m with
  | nil => cases h
  | cons status rest ih =>
      cases status with
      | success => exact ⟨m.does _, rfl, rfl⟩
      | wouldBlock =>
          exact ih h (fun hmem => hprogress (List.mem_cons_of_mem _ hmem)) (m.does _)
      | inProgress => exact absurd List.mem_cons_self hprogress
      | already => cases h
      | isConnected => cases rest <;> cases h
      | error => cases rest <;> cases h

theorem connectLoop_thrown (h : verdict false outcomes = some v)
    (hfails : .inProgress ∈ outcomes ∨ v = .failed) (m : Mem) :
    ∃ m' : Mem, connectLoop k m outcomes = some (.thrown m') ∧ m'.active = m.active ∧
      m'.channel = m.channel := by
  induction outcomes generalizing m with
  | nil => cases h
  | cons status rest ih =>
      cases status with
      | success =>
          cases rest with
          | nil =>
              obtain rfl := Option.some.inj h
              simp at hfails
          | cons => cases h
      | wouldBlock => exact ih h (by simpa using hfails) (m.does _)
      | inProgress | already | isConnected | error =>
          exact ⟨(m.does _).does _, rfl, rfl, rfl⟩

/-- A call that gets past `setsockopt` is one of the loop. -/
theorem connect_eq_connectLoop (hset : k.noDelay → succeeds) (m : Mem) :
    ∃ m₁ : Mem, (∀ outcomes, connect k succeeds m outcomes = connectLoop k m₁ outcomes) ∧
      m₁.socketDescriptor = m.socketDescriptor ∧ m₁.active = m.active ∧
      m₁.channel = m.channel := by
  by_cases hdelay : k.noDelay
  · refine ⟨m.does (.setsockopt m.socketDescriptor), fun outcomes => ?_, rfl, rfl, rfl⟩
    rw [connect, if_pos hdelay, if_pos (hset hdelay)]
  · refine ⟨m, fun outcomes => ?_, rfl, rfl, rfl⟩
    rw [connect, if_neg hdelay]

/-- The call follows the protocol unless the connection is in progress and does not fail. -/
theorem followsProtocol_iff (hset : k.noDelay → succeeds) (hactive : m.active = false)
    (hchannel : m.channel = none) (h : (verdict false outcomes).isSome) :
    FollowsProtocol k succeeds m outcomes ↔ (.inProgress ∈ outcomes → .error ∈ outcomes) := by
  obtain ⟨v, hv⟩ := Option.isSome_iff_exists.mp h
  obtain ⟨m₁, hloop, hfd, hactive₁, hchannel₁⟩ := connect_eq_connectLoop hset m
  rw [error_mem_iff hv]
  constructor
  · intro hfollows hprogress
    cases v with
    | failed => rfl
    | connected =>
        obtain ⟨m', -, hreturned, -⟩ := hfollows.returns hv
        obtain ⟨m'', hthrown, -⟩ := connectLoop_thrown (k := k) hv (Or.inl hprogress) m₁
        rw [hloop, hthrown] at hreturned
        cases hreturned
  · intro hcondition
    constructor
    · intro hconnected
      obtain rfl : v = .connected := Option.some.inj (hv.symm.trans hconnected)
      have hprogress : .inProgress ∉ outcomes := fun hmem => nomatch hcondition hmem
      obtain ⟨m', hreturned, hfd'⟩ := connectLoop_returned (k := k) hv hprogress m₁
      exact ⟨m'.connected k, _, (hloop outcomes).trans hreturned, rfl, rfl, hfd'.trans hfd⟩
    · intro hfailed
      obtain rfl : v = .failed := Option.some.inj (hv.symm.trans hfailed)
      obtain ⟨m', hthrown, hactive', hchannel'⟩ :=
        connectLoop_thrown (k := k) hv (Or.inr rfl) m₁
      exact ⟨m', (hloop outcomes).trans hthrown, hactive'.trans (hactive₁.trans hactive),
        hchannel'.trans (hchannel₁.trans hchannel)⟩

/-- The kernel says that the connection is in progress, and the call throws. -/
theorem not_followsProtocol :
    ¬ ∀ outcomes, (verdict false outcomes).isSome →
      FollowsProtocol ⟨false, false, false⟩ true (initial 3).mem outcomes := by
  intro h
  obtain ⟨m', c, hreturned, -⟩ := (h [.inProgress, .already, .success] rfl).returns rfl
  cases hreturned

/-- A would-block, and then a success. -/
theorem followsProtocol_after_wouldBlock :
    FollowsProtocol ⟨true, false, false⟩ true (initial 3).mem [.wouldBlock, .success] :=
  (followsProtocol_iff (fun _ => rfl) rfl rfl rfl).mpr (by decide)

/-! ### The call as a run -/

def ConnectResult.mem : ConnectResult → Mem
  | .returned m | .thrown m => m

variable {r : ConnectResult}

theorem exec_connectLoop (fd : ℤ) (h : connectLoop k m outcomes = some r) :
    ∃ used rest, outcomes = used ++ rest ∧
      (system k fd).exec ⟨m, .connectLoop⟩ (used.map .connectStatus) = some ⟨r.mem, .idle⟩ := by
  induction outcomes generalizing m with
  | nil => cases h
  | cons status outcomes ih =>
      cases status with
      | wouldBlock =>
          obtain ⟨used, rest, rfl, hexec⟩ := ih h
          refine ⟨.wouldBlock :: used, rest, rfl, ?_⟩
          rw [List.map_cons, TransitionSystem.exec_cons]
          exact hexec
      | _ =>
          obtain rfl := Option.some.inj h
          exact ⟨[_], outcomes, rfl, rfl⟩

/-- The call is the run of the socket in which `::connect` gives these outcomes, as far as they are
asked for. -/
theorem exec_connect (h : connect k succeeds m outcomes = some r) :
    ∃ used rest, outcomes = used ++ rest ∧ (system k fd).exec ⟨m, .idle⟩
      (.connect :: (if k.noDelay then [.setsockopt succeeds] else []) ++
        used.map .connectStatus) = some ⟨r.mem, .idle⟩ := by
  have hstart : (system k fd).next ⟨m, .idle⟩ .connect =
      some ⟨m, if k.noDelay then .connectNoDelay else .connectLoop⟩ := rfl
  have hset : (system k fd).next ⟨m, .connectNoDelay⟩ (.setsockopt succeeds) =
      some ⟨m.does (.setsockopt m.socketDescriptor),
        if succeeds then .connectLoop else .idle⟩ := rfl
  rw [connect] at h
  by_cases hdelay : k.noDelay
  · rw [if_pos hdelay] at h hstart
    by_cases hsucceeds : succeeds
    · rw [if_pos hsucceeds] at h hset
      obtain ⟨used, rest, rfl, hexec⟩ := exec_connectLoop fd h
      refine ⟨used, rest, rfl, ?_⟩
      rw [if_pos hdelay, List.cons_append, TransitionSystem.exec_cons, hstart, Option.bind_some,
        List.cons_append, TransitionSystem.exec_cons, hset, Option.bind_some]
      exact hexec
    · rw [if_neg hsucceeds] at h hset
      obtain rfl := Option.some.inj h
      refine ⟨[], outcomes, rfl, ?_⟩
      rw [if_pos hdelay, List.cons_append, TransitionSystem.exec_cons, hstart, Option.bind_some,
        List.cons_append, TransitionSystem.exec_cons, hset, Option.bind_some]
      rfl
  · rw [if_neg hdelay] at h hstart
    obtain ⟨used, rest, rfl, hexec⟩ := exec_connectLoop fd h
    refine ⟨used, rest, rfl, ?_⟩
    rw [if_neg hdelay, List.cons_append, TransitionSystem.exec_cons, hstart, Option.bind_some]
    exact hexec

end SocketLib.ClientSocket
