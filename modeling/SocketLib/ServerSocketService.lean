import SocketLib.ServerSocketLock

/-!
# What brings the threads of a server on

A worker stays in its loop as long as the server is active (`Point.loop`), and each pass of the loop
walks over the whole map and visits every active channel in it (`act_advances`). A thread with
exclusive access comes to give it back (`act_releases`).
-/

namespace SocketLib.ServerSocket

/-- The loop a worker is in. -/
def Point.loop : Point → Option Loop
  | .loopTest loop | .loopAcquire loop | .loopScan loop _ => some loop
  | .readEntry _ _ | .readTryLock _ _ | .readRecv _ _ | .readRecheck _ _ _ | .readInvoke _ _
  | .readCallback _ _ | .readUnlock _ _ => some .read
  | .writeQueue _ _ => some .write
  | _ => none

/-- How far a worker is at most from the end of its pass. -/
def Point.rank : Point → ℕ
  | .loopTest _ => 1
  | .loopScan _ rest => 8 * rest.length + 2
  | .readEntry _ rest => 8 * rest.length + 9
  | .readTryLock _ rest => 8 * rest.length + 8
  | .readRecv _ rest => 8 * rest.length + 7
  | .readRecheck _ _ rest => 8 * rest.length + 6
  | .readInvoke _ rest => 8 * rest.length + 5
  | .readCallback _ rest => 8 * rest.length + 4
  | .readUnlock _ rest | .writeQueue _ rest => 8 * rest.length + 3
  | _ => 0

/-- No stream is found ended and no send fails. -/
def Calm : Choice → Prop
  | .recv .ended | .handle true => False
  | _ => True

/-- The worker comes closer to the end of its pass, and leaves no active entry out that it still had
to visit. Only the channel it works on can cease to be active. -/
structure Advances (loop : Loop) (m : Mem) (p : Point) (m' : Mem) (p' : Point) : Prop where
  loop : p'.loop = some loop
  rank : p'.rank < p.rank
  clients : m'.clients = m.clients
  active : ∀ c, p.visits ≠ some c → m'.isActive c = m.isActive c
  scans : ∀ e ∈ p.scans, m.isActive e.2 → e ∈ p'.scans ∨ p'.visits = some e.2

/-- How far a thread is at most from giving exclusive access back. -/
def Point.critical : Point → ℕ
  | .connectAcquire _ | .closeAcquire _ _ => 3
  | .connectEmplace _ | .closeFind _ _ => 2
  | .connectUnlock _ | .closing .unlock _ _ _ => 1
  | _ => 0

section Steps

variable {registered : Bool} {m m' : Mem} {p p' : Point} {choice : Choice} {loop : Loop}

/-- A worker leaves its loop only when it finds the server stopped. -/
theorem act_loop : act registered m p choice = some (m', p') → p.loop = some loop →
    p'.loop = some loop ∨ p' = .finished ∧ m.active = false := by
  fun_cases act registered m p choice
  all_goals
    simp only [Option.some.injEq, Prod.mk.injEq, reduceCtorEq, false_implies, and_imp]
    try rintro rfl rfl
  all_goals try split
  all_goals simp_all [Point.loop]

theorem shutdown_active (m : Mem) (fd : Fd) : (m.shutdown fd).active = m.active := by
  unfold Mem.shutdown
  split <;> rfl

theorem close_active (m : Mem) (fd : Fd) : (m.close fd).active = m.active := by
  unfold Mem.close
  split <;> rfl

theorem act_active : act registered m p choice = some (m', p') → m'.active = true →
    m.active = true := by
  fun_cases act registered m p choice
  all_goals
    simp only [Option.some.injEq, Prod.mk.injEq, reduceCtorEq, false_implies, and_imp]
    try rintro rfl rfl
  all_goals first
    | exact id
    | (rw [shutdown_active]; exact id)
    | (rw [close_active]; exact id)
    | (split <;> exact id)
    | exact Bool.noConfusion

theorem outside_active (h : Outside m m') (hactive : m'.active = true) : m.active = true := by
  cases h with
  | notifyStop => cases hactive
  | _ => exact hactive

theorem isActive_modify {c d : ChannelId} (f : Channel → Channel) (h : d ≠ c) :
    (m.modify c f).isActive d = m.isActive d := by
  simp only [Mem.isActive, Mem.modify, Function.update_of_ne h]

/-- A step that leaves the entries to come as they are. -/
theorem Advances.keep (hloop : p'.loop = some loop) (hrank : p'.rank < p.rank)
    (hscans : p'.scans = p.scans) : Advances loop m p m p' :=
  ⟨hloop, hrank, rfl, fun _ _ => rfl, fun _ he _ => Or.inl (hscans ▸ he)⟩

/-- A step on the channel that the worker has come to. -/
theorem Advances.work {c : ChannelId} {f : Channel → Channel} (hc : p.visits = some c)
    (hloop : p'.loop = some loop) (hrank : p'.rank < p.rank) (hscans : p'.scans = p.scans) :
    Advances loop m p (m.modify c f) p' := by
  refine ⟨hloop, hrank, rfl, fun d hd => isActive_modify f ?_, fun _ he _ => Or.inl (hscans ▸ he)⟩
  rintro rfl
  exact hd hc

/-- The step to the next entry, which comes to its channel if that is active. -/
theorem Advances.pass {f : Entry} {rest : List Entry} (hloop : p'.loop = some loop)
    (hrank : p'.rank < (Point.loopScan loop (f :: rest)).rank) (hscans : p'.scans = rest)
    (hf : m.isActive f.2 → p'.visits = some f.2) :
    Advances loop m (.loopScan loop (f :: rest)) m p' := by
  refine ⟨hloop, hrank, rfl, fun _ _ => rfl, fun e he hactive => ?_⟩
  rcases List.mem_cons.mp he with rfl | he
  · exact Or.inr (hf hactive)
  · rw [hscans]
    exact Or.inl he

/-- Before a worker asks for the lock, or while it has shared access, its next step is enabled. -/
theorem act_advances (registered : Bool) (m : Mem) (hp : p.loop = some loop)
    (hacquire : p ≠ .loopAcquire loop) (hserver : p = .loopTest loop → m.active = true) :
    ∃ choice m' p', Calm choice ∧ act registered m p choice = some (m', p') ∧
      Advances loop m p m' p' := by
  have hrank : ∀ (rest : List Entry) {i j : ℕ}, i < j →
      8 * rest.length + i < 8 * rest.length + j :=
    fun rest _ _ h => Nat.add_lt_add_left h _
  cases p with
  | loopTest l =>
      obtain rfl := Option.some.inj hp
      refine ⟨.go, m, .loopAcquire l, trivial, ?_, .keep rfl Nat.zero_lt_one rfl⟩
      rw [act, hserver rfl, if_pos rfl]
  | loopAcquire l => exact absurd (congrArg _ (Option.some.inj hp)) hacquire
  | loopScan l rest =>
      obtain rfl := Option.some.inj hp
      cases rest with
      | nil =>
          exact ⟨.go, m, .loopTest l, trivial, rfl, .keep rfl Nat.one_lt_two rfl⟩
      | cons f rest =>
          by_cases hf : m.isActive f.2
          · cases l with
            | read =>
                refine ⟨.go, m, .readEntry f.2 rest, trivial, ?_, .pass rfl ?_ rfl ?_⟩
                · rw [act, if_pos hf]
                · simp only [Point.rank, List.length_cons]
                  omega
                · exact fun _ => rfl
            | write =>
                refine ⟨.go, m, .writeQueue f.2 rest, trivial, ?_, .pass rfl ?_ rfl ?_⟩
                · rw [act, if_pos hf]
                · simp only [Point.rank, List.length_cons]
                  omega
                · exact fun _ => rfl
          · refine ⟨.go, m, .loopScan l rest, trivial, ?_, .pass rfl ?_ rfl ?_⟩
            · cases l <;> rw [act, if_neg hf]
            · simp only [Point.rank, List.length_cons]
              omega
            · exact fun hactive => absurd hactive hf
  | readEntry c rest =>
      obtain rfl := Option.some.inj hp
      by_cases hc : (m.channel c).active
      · refine ⟨.go, m, .readTryLock c rest, trivial, ?_, .keep rfl (hrank rest (by decide)) rfl⟩
        rw [act, if_pos hc]
      · refine ⟨.go, m, .loopScan .read rest, trivial, ?_, .keep rfl (hrank rest (by decide)) rfl⟩
        rw [act, if_neg hc]
  | readTryLock c rest =>
      obtain rfl := Option.some.inj hp
      by_cases hc : (m.channel c).readLock
      · refine ⟨.go, m, .loopScan .read rest, trivial, ?_, .keep rfl (hrank rest (by decide)) rfl⟩
        exact if_pos hc
      · refine ⟨.go, m.setReadLock c true, .readRecv c rest, trivial, ?_,
          .work rfl rfl (hrank rest (by decide)) rfl⟩
        exact if_neg hc
  | readRecv c rest =>
      obtain rfl := Option.some.inj hp
      exact ⟨.recv .wouldBlock, m, .readRecheck .wouldBlock c rest, trivial, rfl,
        .keep rfl (hrank rest (by decide)) rfl⟩
  | readRecheck received c rest =>
      obtain rfl := Option.some.inj hp
      by_cases hc : m.isActive c
      · cases received with
        | data =>
            refine ⟨.go, m, .readInvoke c rest, trivial, ?_, .keep rfl (hrank rest (by decide)) rfl⟩
            exact if_pos hc
        | wouldBlock =>
            refine ⟨.go, m, .readUnlock c rest, trivial, ?_, .keep rfl (hrank rest (by decide)) rfl⟩
            exact if_pos hc
        | ended =>
            refine ⟨.go, m.queueShutdown c, .readUnlock c rest, trivial, ?_,
              .work rfl rfl (hrank rest (by decide)) rfl⟩
            exact if_pos hc
      · refine ⟨.go, m, .readUnlock c rest, trivial, ?_, .keep rfl (hrank rest (by decide)) rfl⟩
        exact if_neg hc
  | readInvoke c rest =>
      obtain rfl := Option.some.inj hp
      exact ⟨.go, m.start c .listen, .readCallback c rest, trivial, rfl,
        .work rfl rfl (hrank rest (by decide)) rfl⟩
  | readCallback c rest =>
      obtain rfl := Option.some.inj hp
      exact ⟨.go, m, .readUnlock c rest, trivial, rfl, .keep rfl (hrank rest (by decide)) rfl⟩
  | readUnlock c rest =>
      obtain rfl := Option.some.inj hp
      exact ⟨.go, m.setReadLock c false, .loopScan .read rest, trivial, rfl,
        .work rfl rfl (hrank rest (by decide)) rfl⟩
  | writeQueue c rest =>
      obtain rfl := Option.some.inj hp
      exact ⟨.handle false, m, .loopScan .write rest, trivial, rfl,
        .keep rfl (hrank rest (by decide)) rfl⟩
  | _ => cases hp

/-- A thread that has been let in with exclusive access comes to give it back. -/
theorem act_releases (registered : Bool) (m : Mem) (hp : p.asksExclusive ∨ p.holdsExclusive)
    (hfresh : ∀ c, p = .connectEmplace c → m.find (m.channel c).clientDescriptor = none) :
    ∃ choice m' p', Calm choice ∧ act registered m p choice = some (m', p') ∧
      p'.critical < p.critical := by
  cases p with
  | connectAcquire c => exact ⟨.go, m, .connectEmplace c, trivial, rfl, Nat.lt_succ_self 2⟩
  | closeAcquire fd caller => exact ⟨.go, m, .closeFind fd caller, trivial, rfl, Nat.lt_succ_self 2⟩
  | connectEmplace c =>
      refine ⟨.emplace (((m.channel c).clientDescriptor, c) :: m.clients),
        { m with clients := ((m.channel c).clientDescriptor, c) :: m.clients },
        .connectUnlock c, trivial, ?_, Nat.lt_succ_self 1⟩
      rw [act, hfresh c rfl]
      exact if_pos (List.Perm.refl _)
  | connectUnlock c =>
      refine ⟨.go, m, if registered then .connectSpawn c else .listenTest, trivial, rfl, ?_⟩
      split <;> exact Nat.one_pos
  | closeFind fd caller =>
      cases hfind : m.find fd with
      | some e =>
          refine ⟨.go, m.erase e, .closing .unlock e.2 fd caller, trivial, ?_, Nat.lt_succ_self 1⟩
          rw [act, hfind]
      | none =>
          refine ⟨.go, m, .closeThrow caller, trivial, ?_, Nat.two_pos⟩
          rw [act, hfind]
  | closing phase c fd caller =>
      cases phase with
      | unlock => exact ⟨.go, m, .closing .invoke c fd caller, trivial, rfl, Nat.one_pos⟩
      | _ => rcases hp with hp | hp <;> cases hp
  | _ => rcases hp with hp | hp <;> cases hp

end Steps

section Runs

variable {registered : Bool} {T : Type*} [DecidableEq T] [Fintype T] {role : T → Role}
  {s s' : State T} {t : T} {loop : Loop} {a : Label T}

theorem next_active (hs : next registered s a = some s') (h : s'.mem.active = true) :
    s.mem.active = true := by
  rcases next_cases hs with ⟨t, choice, m', p', -, -, hact, rfl⟩ | ⟨-, hout, -⟩
  · exact act_active hact h
  · exact outside_active hout h

/-- While the server is active, its workers are in their loops. -/
theorem worker_in_loop (hr : (system role registered).Reachable s)
    (hrole : role t = .worker loop) (hactive : s.mem.active = true) :
    (s.points t).loop = some loop := by
  have hI : s.mem.active = true → (s.points t).loop = some loop := by
    apply hr.invariant (I := fun s => s.mem.active = true → (s.points t).loop = some loop)
    · intro _
      simp only [system, hrole, Role.point, Point.loop]
    · intro s a s' _ hI _ hs hactive
      have hin := hI (next_active hs hactive)
      rcases next_cases hs with ⟨u, choice, m', p', -, -, hact, rfl⟩ | ⟨-, -, hpoints⟩
      · by_cases hu : t = u
        · subst u
          simp only [Function.update_self]
          rcases act_loop hact hin with hloop | ⟨-, hstopped⟩
          · exact hloop
          · rw [next_active hs hactive] at hstopped
            cases hstopped
        · simpa only [Function.update_of_ne hu] using hin
      · rwa [hpoints]
  exact hI hactive

end Runs
end SocketLib.ServerSocket
