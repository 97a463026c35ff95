import SocketLib.ServerSocketCustody

/-!
# What the workers see under shared access

A thread with exclusive access to `clientDescriptors` is alone with it (`Exclusion`). Only such a
thread takes an entry out, so the entries a worker walks over, and the channel it works on, stay in
the map while it has shared access (`Scanning`).
-/

namespace SocketLib.ServerSocket

def Point.asksExclusive : Point → Bool
  | .connectAcquire _ | .closeAcquire _ _ => true
  | _ => false

def Point.asksShared : Point → Bool
  | .loopAcquire _ => true
  | _ => false

/-- The entries a worker has yet to visit. -/
def Point.scans : Point → List Entry
  | .loopScan _ rest | .readEntry _ rest | .readTryLock _ rest | .readRecv _ rest
  | .readRecheck _ _ rest | .readInvoke _ rest | .readCallback _ rest | .readUnlock _ rest
  | .writeQueue _ rest => rest
  | _ => []

/-- The channel a worker works on. -/
def Point.visits : Point → Option ChannelId
  | .readEntry c _ | .readTryLock c _ | .readRecv c _ | .readRecheck _ c _ | .readInvoke c _
  | .readCallback c _ | .readUnlock c _ | .writeQueue c _ => some c
  | _ => none

/-- A thread with exclusive access is the only one with access. -/
def Exclusion {T : Type*} (points : T → Point) : Prop :=
  ∀ t u, t ≠ u → (points t).holdsExclusive →
    (points u).holdsExclusive = false ∧ (points u).holdsShared = false

structure Scanning (m : Mem) (p : Point) : Prop where
  scans : ∀ e ∈ p.scans, e ∈ m.clients
  visits : ∀ c, p.visits = some c → ∃ e ∈ m.clients, e.2 = c

section Steps

variable {registered : Bool} {m m' : Mem} {p p' : Point} {choice : Choice}

/-- A step obtains access only where it asks for it. -/
theorem act_holds : act registered m p choice = some (m', p') →
    (p'.holdsExclusive → p.holdsExclusive ∨ p.asksExclusive) ∧
      (p'.holdsShared → p.holdsShared ∨ p.asksShared) := by
  fun_cases act registered m p choice
  all_goals
    simp only [Option.some.injEq, Prod.mk.injEq, reduceCtorEq, false_implies, and_imp]
    try rintro rfl rfl
  case case37 =>
    rename_i caller _
    cases caller <;> simp [Caller.resume, Point.holdsExclusive, Point.holdsShared]
  all_goals
    try split
    all_goals simp [Point.holdsExclusive, Point.holdsShared, Point.asksExclusive, Point.asksShared]

theorem act_scanning (h : Scanning m p) (hclients : m'.clients = m.clients) :
    act registered m p choice = some (m', p') → Scanning m' p' := by
  have hnone : ∀ q : Point, q.scans = [] → q.visits = none → Scanning m' q := by
    intro q hscans hvisits
    refine ⟨fun e he => ?_, fun c hc => ?_⟩
    · rw [hscans] at he
      cases he
    · rw [hvisits] at hc
      cases hc
  have hmono : Scanning m' p := by
    refine ⟨fun e he => ?_, fun c hc => ?_⟩
    · rw [hclients]
      exact h.scans e he
    · rw [hclients]
      exact h.visits c hc
  have hrest : ∀ loop e rest, p = .loopScan loop (e :: rest) → ∀ q : Point, q.scans = rest →
      (∀ c, q.visits = some c → c = e.2) → Scanning m' q := by
    rintro loop e rest rfl q hscans hvisits
    refine ⟨fun e' he => ?_, fun c hc => ⟨e, hmono.scans e List.mem_cons_self, (hvisits c hc).symm⟩⟩
    rw [hscans] at he
    exact hmono.scans e' (List.mem_cons_of_mem e he)
  have hsame : ∀ q : Point, q.scans = p.scans → (∀ c, q.visits = some c → p.visits = some c) →
      Scanning m' q := by
    intro q hscans hvisits
    exact ⟨fun e he => hmono.scans e (hscans ▸ he), fun c hc => hmono.visits c (hvisits c hc)⟩
  fun_cases act registered m p choice
  all_goals
    simp only [Option.some.injEq, Prod.mk.injEq, reduceCtorEq, false_implies, and_imp]
    try rintro rfl rfl
  case case37 =>
    rename_i caller _
    cases caller <;> exact hnone _ rfl rfl
  case case45 => exact ⟨fun _ he => he, fun _ hc => absurd hc.symm (Option.some_ne_none _)⟩
  case case47 | case48 =>
    split
    · exact hrest _ _ _ rfl _ rfl (fun _ hc => (Option.some.inj hc).symm)
    · exact hrest _ _ _ rfl _ rfl (fun _ hc => absurd hc.symm (Option.some_ne_none _))
  case case49 =>
    split
    · exact hsame _ rfl (fun _ hc => hc)
    · exact hsame _ rfl (fun _ hc => absurd hc.symm (Option.some_ne_none _))
  case case60 => exact hsame _ rfl (fun _ hc => absurd hc.symm (Option.some_ne_none _))
  all_goals try split
  all_goals first
    | exact hnone _ rfl rfl
    | exact hsame _ rfl (fun _ hc => hc)
    | exact hsame _ rfl (fun _ hc => absurd hc.symm (Option.some_ne_none _))

theorem Scanning.mono (h : Scanning m p) (hm : ∀ e ∈ m.clients, e ∈ m'.clients) :
    Scanning m' p := by
  refine ⟨fun e he => hm e (h.scans e he), fun c hc => ?_⟩
  obtain ⟨e, he, hec⟩ := h.visits c hc
  exact ⟨e, hm e he, hec⟩

theorem scanning_of_not_holdsShared (m : Mem) (h : p.holdsShared = false) : Scanning m p := by
  constructor <;> cases p <;> simp_all [Point.holdsShared, Point.scans, Point.visits]

/-- The map changes only in the hands of a thread with exclusive access. -/
theorem Moves.clients_eq (h : Moves registered m p m' p') (hp : p.holdsExclusive = false) :
    m'.clients = m.clients := by
  cases h with
  | carriesOn hs => exact hs.clients
  | drops hs => exact hs.clients
  | accepts => rfl
  | registers c clients p' hp' =>
      rw [hp'] at hp
      cases hp
  | removes fd caller e hp' =>
      rw [hp'] at hp
      cases hp
  | invokes => rfl
  | shuts => exact shutdown_clients m _
  | closes => exact close_clients m _

theorem not_holdsShared (h : p.holdsExclusive) : p.holdsShared = false ∧ p.asksShared = false := by
  cases p <;> simp_all [Point.holdsExclusive, Point.holdsShared, Point.asksShared]

end Steps

section Runs

variable {registered : Bool} {T : Type*}

theorem point_holds (role : Role) :
    role.point.holdsExclusive = false ∧ role.point.holdsShared = false := by
  cases role <;> exact ⟨rfl, rfl⟩

theorem admits_exclusive {s : State T} {t : T} (h : s.admits t)
    (ht : (s.points t).asksExclusive) (u : T) :
    (s.points u).holdsExclusive = false ∧ (s.points u).holdsShared = false := by
  unfold State.admits at h
  cases hp : s.points t <;> simp only [hp, Point.asksExclusive, Bool.false_eq_true] at h ht
  all_goals exact h u

theorem admits_shared {s : State T} {t : T} (h : s.admits t) (ht : (s.points t).asksShared)
    (u : T) : (s.points u).holdsExclusive = false := by
  unfold State.admits at h
  cases hp : s.points t <;> simp only [hp, Point.asksShared, Bool.false_eq_true] at h ht
  exact h u

variable [DecidableEq T]

theorem Exclusion.update {points : T → Point} {v : T} {p' : Point} (h : Exclusion points)
    (hexclusive : p'.holdsExclusive → (points v).holdsExclusive ∨
      ∀ u, (points u).holdsExclusive = false ∧ (points u).holdsShared = false)
    (hshared : p'.holdsShared → (points v).holdsShared ∨
      ∀ u, (points u).holdsExclusive = false) :
    Exclusion (Function.update points v p') := by
  intro t u hne ht
  by_cases htv : t = v
  · subst t
    rw [Function.update_self] at ht
    rw [Function.update_of_ne hne.symm]
    rcases hexclusive ht with hold | hfree
    · exact h v u hne hold
    · exact hfree u
  · rw [Function.update_of_ne htv] at ht
    by_cases huv : u = v
    · subst u
      rw [Function.update_self]
      obtain ⟨hnotExclusive, hnotShared⟩ := h t v hne ht
      constructor
      · by_contra hp'
        rcases hexclusive (by simpa using hp') with hold | hfree
        · simp [hold] at hnotExclusive
        · simp [(hfree t).1] at ht
      · by_contra hp'
        rcases hshared (by simpa using hp') with hold | hfree
        · simp [hold] at hnotShared
        · simp [hfree t] at ht
    · rw [Function.update_of_ne huv]
      exact h t u hne ht

variable [Fintype T] {role : T → Role} {s s' : State T}

theorem Exclusion.next (h : Exclusion s.points) {a : Label T}
    (hs : next registered s a = some s') : Exclusion s'.points := by
  rcases next_cases hs with ⟨v, choice, m', p', -, hadmits, hact, rfl⟩ | ⟨-, -, hpoints⟩
  · obtain ⟨hexclusive, hshared⟩ := act_holds hact
    exact h.update (fun hp' => (hexclusive hp').imp id (admits_exclusive hadmits))
      (fun hp' => (hshared hp').imp id (admits_shared hadmits))
  · rwa [hpoints]

theorem exclusion_of_reachable (h : (system role registered).Reachable s) :
    Exclusion s.points := by
  refine h.invariant (I := fun s => Exclusion s.points) ?_ (fun _ _ _ _ hI _ hs => hI.next hs)
  intro t u _ ht
  exact absurd ht (by simp [system, (point_holds (role t)).1])

theorem scanning_of_reachable (h : (system role registered).Reachable s) (t : T) :
    Scanning s.mem (s.points t) := by
  have hall : ∀ t, Scanning s.mem (s.points t) := by
    refine h.invariant (I := fun s => ∀ t, Scanning s.mem (s.points t))
      (fun t => scanning_of_not_holdsShared _ (point_holds (role t)).2) ?_
    intro s a s' hr hI _ hs
    rcases next_cases hs with ⟨v, choice, m', p', -, -, hact, rfl⟩ | ⟨-, hout, hpoints⟩
    · have hmoves := act_moves hact
      intro u
      by_cases hv : (s.points v).holdsExclusive
      · apply scanning_of_not_holdsShared
        by_cases huv : u = v
        · subst u
          simp only [Function.update_self]
          by_contra hp'
          obtain ⟨hnot, hask⟩ := not_holdsShared hv
          simpa [hnot, hask] using (act_holds hact).2 (by simpa using hp')
        · simp only [Function.update_of_ne huv]
          exact (exclusion_of_reachable hr v u (Ne.symm huv) hv).2
      · have hclients := hmoves.clients_eq (by simpa using hv)
        by_cases huv : u = v
        · subst u
          simp only [Function.update_self]
          exact act_scanning (hI v) hclients hact
        · simp only [Function.update_of_ne huv]
          exact (hI u).mono (fun e he => hclients ▸ he)
    · intro t
      rw [hpoints]
      exact (hI t).mono (fun e he => (sameCustody_outside hout).clients ▸ he)
  exact hall t

end Runs
end SocketLib.ServerSocket
