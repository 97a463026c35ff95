import SocketLib.ServerCallbacks
import SocketLib.ExclusiveSharedMutexExclusion

/-!
# Deadlocks on `clientDescriptorsMutex`

Threads of the server deadlock when a listen callback, which runs under the shared access of
`readLoop`, waits for the mutex. It does so in `closeClient`, which waits for its own thread's
access, and in `write` when the inner `lock_shared` meets a `lock` that waits for the outer one.
`Clear` excludes just these steps. Under it a thread that waits holds nothing, except for a callback
in `write` that is about to pass, and no set of threads is deadlocked. Any step that is not `Clear`
leads to a deadlock (`deadlock_of_not_clear`), and deadlocks last (`deadlocked_forever`).
-/

namespace SocketLib.ServerCallbacks

open ExclusivePrioritySharedMutex WaitsFor

/-! ### The steps that lead to no deadlock -/

def InCallbackWrite : List Frame → Bool
  | .write :: .listenCallback :: _ => true
  | _ => false

/-- The thread owns `mutex_` and is about to find its predicate true. -/
def AboutToPass (m : Mem T) (th : Thread) : Prop :=
  (th.pc = .slowLoadCount ∨ th.pc = .lockLoadCount) ∧ m.exclusiveCount = 0

instance {T : Type*} (m : Mem T) (th : Thread) : Decidable (AboutToPass m th) := by
  unfold AboutToPass
  infer_instance

section Clear

variable {T : Type*}

/-- No listen callback calls `closeClient`; none calls `write` and finds a request announced while
a `lock` waits; and no `lock` announces a request while such a `write` waits. -/
def Clear (s : State T) : Label T → Prop
  | .enter t f => f = .closeClient → (s.frames t).head? ≠ some .listenCallback
  | .mutex (.run t) =>
      ((s.lock.threads t).pc = .fastLoadRequests → InCallbackWrite (s.frames t) →
        ∀ u, (s.lock.threads u).pc.waitsExclusive → AboutToPass s.lock.mem (s.lock.threads u)) ∧
      ((s.lock.threads t).pc = .lockAddRequest → ∀ u, InCallbackWrite (s.frames u) →
        (s.lock.threads u).pc.waitsShared → AboutToPass s.lock.mem (s.lock.threads u))
  | _ => True

/-- The stacks without a callback that closes. -/
inductive Nested : List Frame → Prop
  | idle : Nested []
  | loop (f : Frame) (h : f = .readLoop ∨ f = .writeLoop ∨ f = .onConnectedClient) : Nested [f]
  | listen : Nested [.listenCallback, .readLoop]
  | listenWrite : Nested [.write, .listenCallback, .readLoop]
  | call (f : Frame) (outer : List Frame)
      (h : f = .write ∨ f = .closeClient ∨ f = .connectCallback)
      (houter : ∀ g ∈ outer, g = .connectCallback) : Nested (f :: outer)

theorem accesses_connectCallbacks {frames : List Frame}
    (h : ∀ g ∈ frames, g = .connectCallback) : accesses frames = [] := by
  rw [accesses, List.filterMap_eq_nil_iff]
  intro g hg
  rw [h g hg]
  rfl

/-- Under the innermost frame nothing is held, except by a listen callback that writes. -/
theorem Nested.outer {f : Frame} {outer : List Frame} (h : Nested (f :: outer))
    (hf : f.access.isSome) :
    accesses outer = [] ∨ (f = .write ∧ outer = [.listenCallback, .readLoop]) := by
  cases h with
  | loop => exact Or.inl rfl
  | listen => cases hf
  | listenWrite => exact Or.inr ⟨rfl, rfl⟩
  | call f outer h houter => exact Or.inl (accesses_connectCallbacks houter)

theorem starts_cases {role : Role} {f : Frame} (h : Starts role f) :
    (f = .readLoop ∨ f = .writeLoop ∨ f = .onConnectedClient) ∨ f = .write ∨ f = .closeClient := by
  cases role <;> cases f <;> simp_all [Starts]

theorem calls_cases {caller f : Frame} (h : Calls caller f) :
    (caller = .readLoop ∧ f = .listenCallback) ∨
      ((caller = .listenCallback ∨ caller = .connectCallback) ∧
        (f = .write ∨ f = .closeClient)) := by
  cases caller <;> cases f <;> simp_all [Calls]

theorem Nested.enter {role : Role} {f : Frame} {frames : List Frame} (h : Nested frames)
    (henter : Enters role frames f)
    (hclear : f = .closeClient → frames.head? ≠ some .listenCallback) : Nested (f :: frames) := by
  cases h with
  | idle =>
      rcases starts_cases henter with hloop | hwrite | hclose
      · exact .loop f hloop
      · exact .call f [] (Or.inl hwrite) (by simp)
      · exact .call f [] (Or.inr (Or.inl hclose)) (by simp)
  | loop g hg =>
      rcases calls_cases henter with ⟨rfl, rfl⟩ | ⟨hcaller, -⟩
      · exact .listen
      · rcases hg with rfl | rfl | rfl <;> simp at hcaller
  | listen =>
      rcases calls_cases henter with ⟨hcaller, -⟩ | ⟨-, rfl | rfl⟩
      · cases hcaller
      · exact .listenWrite
      · exact absurd rfl (hclear rfl)
  | listenWrite =>
      have hcalls : Calls .write f := henter
      rcases calls_cases hcalls with ⟨hcaller, -⟩ | ⟨hcaller | hcaller, -⟩ <;> cases hcaller
  | call g outer hg houter =>
      rcases calls_cases henter with ⟨rfl, -⟩ | ⟨hcaller, hf⟩
      · simp at hg
      · refine .call f _ (by tauto) ?_
        rcases hcaller with rfl | rfl
        · simp at hg
        · simpa using houter

theorem Nested.leave {f : Frame} {frames : List Frame} (h : Nested (f :: frames)) :
    Nested frames := by
  cases h with
  | loop => exact .idle
  | listen => exact .loop _ (Or.inl rfl)
  | listenWrite => exact .listen
  | call f outer h houter =>
      cases frames with
      | nil => exact .idle
      | cons g rest =>
          have hg := houter g (by simp)
          exact .call g rest (Or.inr (Or.inr hg)) (fun x hx => houter x (List.mem_cons_of_mem g hx))

theorem Nested.disconnect {frames : List Frame} (h : Nested (.closeClient :: frames)) :
    Nested (.connectCallback :: frames) := by
  cases h with
  | loop _ h => simp at h
  | call _ _ _ houter => exact .call _ _ (by simp) houter

/-! ### Callbacks that write and threads that lock -/

/-- When a callback that writes and a thread that locks both wait, one of them is about to pass. -/
def Apart (frames : T → List Frame) (m : ExclusivePrioritySharedMutex.State T) : Prop :=
  ∀ u t, InCallbackWrite (frames u) → (m.threads u).pc.waitsShared →
    (m.threads t).pc.waitsExclusive →
      AboutToPass m.mem (m.threads u) ∨ AboutToPass m.mem (m.threads t)

theorem not_waitsExclusive {pc : Pc} (h : pc.waitsShared) : pc.waitsExclusive = false := by
  cases pc <;> simp_all [Pc.waitsShared, Pc.waitsExclusive]

theorem advance_waitsShared {t : T} {m m' : Mem T} {th th' : Thread}
    (h : advance t m th = some (m', th')) (h0 : 0 ≤ m.sharedCount) (hw : th'.pc.waitsShared) :
    (th.pc.waitsShared ∧ ¬ AboutToPass m th) ∨ th.pc = .fastLoadRequests := by
  obtain ⟨held, pc⟩ := th
  cases pc <;> simp only [advance] at h
  all_goals grind [Pc.waitsShared, AboutToPass, Thread.goto, Thread.obtain, Mem.acquire,
    Mem.release]

theorem advance_waitsExclusive {t : T} {m m' : Mem T} {th th' : Thread}
    (h : advance t m th = some (m', th')) (hw : th'.pc.waitsExclusive) :
    (th.pc.waitsExclusive ∧ ¬ AboutToPass m th) ∨ th.pc = .lockAddRequest := by
  obtain ⟨held, pc⟩ := th
  cases pc <;> simp only [advance] at h
  all_goals grind [Pc.waitsExclusive, AboutToPass, Thread.goto, Thread.obtain, Mem.acquire,
    Mem.release]

theorem quiet_waits {th th' : Thread} (h : Quiet th th') :
    (th'.pc.waitsShared → th.pc.waitsShared) ∧ (th'.pc.waitsExclusive → th.pc.waitsExclusive) ∧
      ∀ m : Mem T, ¬ AboutToPass m th := by
  cases h with
  | call op h =>
      obtain ⟨hpc, h⟩ := begin_cases h
      grind [Pc.waitsShared, Pc.waitsExclusive, AboutToPass, Thread.goto]
  | notify cv pc h =>
      rcases notifies_cases h with ⟨hpc, rfl⟩ | ⟨hpc, rfl⟩ <;>
        simp [hpc, Pc.waitsShared, Pc.waitsExclusive, AboutToPass, Thread.goto]
  | wake cv h =>
      cases cv <;> simp [h, Pc.waitsShared, Pc.waitsExclusive, AboutToPass, Thread.goto,
        Pc.woken, Pc.asleep]

/-- Nobody takes away what a thread about to pass has found. -/
theorem aboutToPass_other [Fintype T] {m : ExclusivePrioritySharedMutex.State T}
    (ha : Accounted m) {t u : T}
    {m' : Mem T} {th' : Thread} (hu : u ≠ t)
    (hadv : advance t m.mem (m.threads t) = some (m', th'))
    (hpass : AboutToPass m.mem (m.threads u)) : AboutToPass m' (m.threads u) := by
  have howns : (m.threads u).pc.owns := by rcases hpass.1 with hpc | hpc <;> simp [hpc, Pc.owns]
  have hnot : (m.threads t).pc.owns = false := by
    by_contra ht
    exact hu (ha.owner_unique howns (by simpa using ht))
  exact ⟨hpass.1, (advance_of_not_owns hadv hnot).1.trans hpass.2⟩

variable [DecidableEq T]

theorem Apart.quiet {frames : T → List Frame} {m : ExclusivePrioritySharedMutex.State T} {v : T}
    {th' : Thread} (h : Apart frames m) (hq : Quiet (m.threads v) th') :
    Apart frames (m.setThread v th') := by
  obtain ⟨hshared, hexclusive, hnot⟩ := quiet_waits (T := T) hq
  intro u t hwrite hu ht
  by_cases huv : u = v
  · subst u
    rw [setThread_self] at hu
    have htv : t ≠ v := by
      rintro rfl
      rw [setThread_self, not_waitsExclusive hu] at ht
      cases ht
    rw [setThread_ne m th' htv] at ht ⊢
    exact Or.inr ((h v t hwrite (hshared hu) ht).resolve_left (hnot m.mem))
  · rw [setThread_ne m th' huv] at hu ⊢
    by_cases htv : t = v
    · subst t
      rw [setThread_self] at ht
      exact Or.inl ((h u v hwrite hu (hexclusive ht)).resolve_right (hnot m.mem))
    · rw [setThread_ne m th' htv] at ht ⊢
      exact h u t hwrite hu ht

variable [Fintype T] {role : T → Role} {s s' : State T}

theorem nested_of_clear (h : (system role).ReachedBy Clear s) (t : T) : Nested (s.frames t) := by
  have hall : ∀ t, Nested (s.frames t) := by
    refine h.invariant (I := fun s => ∀ t, Nested (s.frames t)) (fun _ => .idle) ?_
    intro s a s' _ hI hclear hs u
    rcases next_cases hs with ⟨t, frames, op, m, hm, rfl, hframes⟩ | ⟨b, m, -, hb, hm, rfl⟩
    · by_cases hu : u = t
      · subst u
        rw [become_frames_self]
        have ht := hI t
        rcases hframes with ⟨f, rfl, henter, rfl, -⟩ | ⟨f, -, hf, -⟩ | ⟨rest, -, hf, rfl, -⟩
        · exact ht.enter henter hclear
        · rw [hf] at ht
          exact ht.leave
        · rw [hf] at ht
          exact ht.disconnect
      · rw [become_frames_ne s frames m hu]
        exact hI u
    · exact hI u
  exact hall t

theorem Apart.run (h : Apart s.frames s.lock) (ha : Accounted s.lock) {v : T} {m' : Mem T}
    {th' : Thread} (hclear : Clear s (.mutex (.run v)))
    (hadv : advance v s.lock.mem (s.lock.threads v) = some (m', th')) :
    Apart s.frames { s.lock.setThread v th' with mem := m' } := by
  intro u t hwrite hu ht
  by_cases huv : u = v
  · subst u
    simp only [setThread_self] at hu ht ⊢
    have htv : t ≠ v := by
      rintro rfl
      rw [setThread_self, not_waitsExclusive hu] at ht
      cases ht
    rw [setThread_ne s.lock th' htv] at ht ⊢
    right
    apply aboutToPass_other ha htv hadv
    rcases advance_waitsShared hadv ha.shared_nonneg hu with ⟨hwaits, hnot⟩ | hpc
    · exact (h v t hwrite hwaits ht).resolve_left hnot
    · exact hclear.1 hpc hwrite t ht
  · simp only [setThread_ne s.lock th' huv] at hu ⊢
    by_cases htv : t = v
    · subst t
      simp only [setThread_self] at ht ⊢
      left
      apply aboutToPass_other ha huv hadv
      rcases advance_waitsExclusive hadv ht with ⟨hwaits, hnot⟩ | hpc
      · exact (h u v hwrite hu hwaits).resolve_right hnot
      · exact hclear.2 hpc u hwrite hu
    · simp only [setThread_ne s.lock th' htv] at ht ⊢
      rcases h u t hwrite hu ht with hpass | hpass
      · exact Or.inl (aboutToPass_other ha huv hadv hpass)
      · exact Or.inr (aboutToPass_other ha htv hadv hpass)

theorem callMutex_not_waits {m m' : ExclusivePrioritySharedMutex.State T} {t : T} {op : Option Op}
    (h : callMutex m t op = some m') :
    (m'.threads t).pc.waitsShared = false ∧ (m'.threads t).pc.waitsExclusive = false := by
  cases op with
  | some op =>
      obtain ⟨th', hb, rfl⟩ := callMutex_some h
      rw [setThread_self]
      obtain ⟨hpc, hb⟩ := begin_cases hb
      grind [Pc.waitsShared, Pc.waitsExclusive, Thread.goto]
  | none =>
      obtain ⟨hpc, rfl⟩ := callMutex_none h
      simp [hpc, Pc.waitsShared, Pc.waitsExclusive]

theorem apart_of_clear (h : (system role).ReachedBy Clear s) : Apart s.frames s.lock := by
  refine h.invariant (I := fun s => Apart s.frames s.lock) ?_ ?_
  · intro u t hwrite
    cases hwrite
  · intro s a s' hr hI hclear hs
    have ha := accounted_of_reachable (lock_reachable hr.reachable)
    rcases next_cases hs with ⟨v, frames, op, m, hm, rfl, -⟩ | ⟨b, m, rfl, hb, hm, rfl⟩
    · obtain ⟨hshared, hexclusive⟩ := callMutex_not_waits hm
      intro u t hwrite hu ht
      change (m.threads u).pc.waitsShared at hu
      change (m.threads t).pc.waitsExclusive at ht
      change AboutToPass m.mem (m.threads u) ∨ AboutToPass m.mem (m.threads t)
      have huv : u ≠ v := by
        rintro rfl
        rw [hshared] at hu
        cases hu
      have htv : t ≠ v := by
        rintro rfl
        rw [hexclusive] at ht
        cases ht
      rw [become_frames_ne s frames m huv] at hwrite
      rw [callMutex_threads_ne hm huv] at hu ⊢
      rw [callMutex_threads_ne hm htv] at ht ⊢
      rw [callMutex_mem hm]
      exact hI u t hwrite hu ht
    · apply next_preserves hI hm
      · rintro v m' th' rfl hadv
        exact hI.run ha hclear hadv
      · exact fun r v th' hr hq => hr.quiet hq

/-! ### No deadlock without those steps -/

theorem acquiring_of_waits {pc : Pc} (h : pc.waits) :
    acquiring pc = some (if pc.waitsShared then .shared else .exclusive) := by
  cases pc <;> simp_all [Pc.waits, Pc.waitsShared, Pc.waitsExclusive, acquiring]

/-- A thread that waits for the mutex holds nothing, except for a callback that writes. -/
theorem held_of_waits (h : (system role).ReachedBy Clear s) {u : T}
    (hw : (s.lock.threads u).pc.waits) :
    (s.lock.threads u).held = [] ∨
      ((s.lock.threads u).held = [.shared] ∧ InCallbackWrite (s.frames u) ∧
        (s.lock.threads u).pc.waitsShared) := by
  have hholds := (framed_of_reachable h.reachable).holds u
  simp only [Holds, acquiring_of_waits hw] at hholds
  obtain ⟨f, outer, hframes, hf, hheld⟩ := hholds
  have hnested := nested_of_clear h u
  rw [hframes] at hnested ⊢
  rcases hnested.outer (by rw [hf]; rfl) with hnone | ⟨rfl, rfl⟩
  · exact Or.inl (hheld.symm.trans hnone)
  · refine Or.inr ⟨hheld.symm, rfl, ?_⟩
    by_contra hnot
    rw [if_neg hnot] at hf
    cases hf

/-- Whatever the callbacks do otherwise, no set of threads is deadlocked on
`clientDescriptorsMutex`: a thread that waits in `lock` blocks only threads that wait in
`lock_shared`. -/
theorem not_deadlocked_of_clear (h : (system role).ReachedBy Clear s) (D : Set T) :
    ¬ Deadlocked (Blocks s.lock) D := by
  have ha := accounted_of_reachable (lock_reachable h.reachable)
  apply not_deadlocked_of_rank (fun t => if (s.lock.threads t).pc.waitsShared then 1 else 0)
  intro u t v hut hvu
  have hwaits := hvu.waits
  rcases hut with ⟨-, hpos⟩ | ⟨hshared, -, hpos⟩ | ⟨hexclusive, hnot, hpos⟩
  · exfalso
    rw [exclusiveWeight_of_waits hwaits] at hpos
    rcases held_of_waits h hwaits with hheld | ⟨hheld, -⟩ <;> simp [hheld] at hpos
  · have hnotShared : (s.lock.threads u).pc.waitsShared = false := by
      by_contra hw
      rw [requestWeight_of_waits hwaits, not_waitsExclusive (by simpa using hw)] at hpos
      simp at hpos
    simp [hshared, hnotShared]
  · exfalso
    rw [sharedWeight_of_waits hwaits] at hpos
    rcases held_of_waits h hwaits with hheld | ⟨hheld, hwrite, hshared⟩
    · simp [hheld] at hpos
    · rcases apart_of_clear h u t hwrite hshared hexclusive with ⟨hpc, hzero⟩ | ⟨hpc, hzero⟩
      · -- the callback finds both halves of its predicate true, so nobody blocks it
        rcases hvu with ⟨-, hv⟩ | ⟨-, hload, -⟩ | ⟨hw, -⟩
        · have hle := ha.exclusiveWeight_le v
          omega
        · rcases hpc with hpc | hpc
          · exact hload hpc
          · simp [hpc, Pc.waitsShared] at hshared
        · rw [not_waitsExclusive hshared] at hw
          cases hw
      · rcases hpc with hpc | hpc
        · simp [hpc, Pc.waitsExclusive] at hexclusive
        · exact hnot hpc

/-! ### Deadlock after any of those steps -/

theorem deadlocked_forever (hr : (system role).Reachable s) {D : Set T}
    (h : Deadlocked (Blocks s.lock) D) (hs : (system role).LeadsTo s s') :
    Deadlocked (Blocks s'.lock) D :=
  Deadlocked.forever (lock_reachable hr) h (lock_leadsTo hs)

theorem shared_mem_accesses {frames : List Frame} (h : ListensInReadLoop frames)
    (hhead : frames.head? = some .listenCallback) : .shared ∈ accesses frames := by
  cases frames with
  | nil => cases hhead
  | cons f outer =>
      obtain rfl := Option.some.inj hhead
      cases outer with
      | nil => cases h.1 rfl
      | cons g rest =>
          obtain rfl := Option.some.inj (h.1 rfl)
          simp [accesses, Frame.access]

/-- A thread that waits in a callback's `write` is counted as a reader. -/
theorem shared_mem_of_callbackWrite (hr : (system role).Reachable s) {u : T}
    (hwrite : InCallbackWrite (s.frames u)) (hu : acquiring (s.lock.threads u).pc = some .shared) :
    .shared ∈ (s.lock.threads u).held := by
  have hf := framed_of_reachable hr
  have hholds := hf.holds u
  have hlistens := hf.listens u
  simp only [Holds, hu] at hholds
  obtain ⟨f, outer, hframes, -, hheld⟩ := hholds
  rw [hframes] at hwrite hlistens
  rw [← hheld]
  apply shared_mem_accesses hlistens.2
  cases f <;> try cases hwrite
  cases outer with
  | nil => cases hwrite
  | cons g rest => cases g <;> first | rfl | cases hwrite

theorem next_mutex_run (role : T → Role) {t : T} {m' : Mem T} {th' : Thread}
    (hadv : advance t s.lock.mem (s.lock.threads t) = some (m', th')) :
    next role s (.mutex (.run t)) = some ⟨{ s.lock.setThread t th' with mem := m' }, s.frames⟩ := by
  simp only [next, ExclusivePrioritySharedMutex.next, hadv, Option.map_some]

/-- A callback that writes and a thread that locks, both waiting and neither about to pass, end up
waiting for each other: a thread at the second half of its predicate goes back to wait. -/
theorem deadlock_of_meeting (hr : (system role).Reachable s) {u t : T}
    (hwrite : InCallbackWrite (s.frames u)) (hu : (s.lock.threads u).pc.waitsShared)
    (ht : (s.lock.threads t).pc.waitsExclusive)
    (hu' : ¬ AboutToPass s.lock.mem (s.lock.threads u))
    (ht' : ¬ AboutToPass s.lock.mem (s.lock.threads t)) :
    ∃ s' D, (system role).LeadsTo s s' ∧ Deadlocked (Blocks s'.lock) D := by
  have ha := accounted_of_reachable (lock_reachable hr)
  have hne : u ≠ t := by
    rintro rfl
    rw [not_waitsExclusive hu] at ht
    cases ht
  have hheld : .shared ∈ (s.lock.threads u).held := by
    apply shared_mem_of_callbackWrite hr hwrite
    rw [acquiring_of_waits (by simp [Pc.waits, hu]), if_pos hu]
  by_cases hucount : (s.lock.threads u).pc = .slowLoadCount
  · have htcount : (s.lock.threads t).pc ≠ .lockLoadCount := by
      intro hpc
      exact hne (ha.owner_unique (by simp [hucount, Pc.owns]) (by simp [hpc, Pc.owns]))
    have hzero : s.lock.mem.exclusiveCount ≠ 0 := fun hzero => hu' ⟨Or.inl hucount, hzero⟩
    have hadv : advance u s.lock.mem (s.lock.threads u) =
        some (s.lock.mem, (s.lock.threads u).goto .slowWait) := by
      simp only [advance, hucount, if_neg hzero]
    refine ⟨_, {u, t}, .single (a := .mutex (.run u)) trivial (next_mutex_run role hadv), ?_⟩
    apply deadlocked_pair
    · simpa [Thread.goto] using hheld
    · simp [Thread.goto, Pc.waitsShared]
    · simp [Thread.goto]
    · simpa only [setThread_ne _ _ hne.symm] using ht
    · simpa only [setThread_ne _ _ hne.symm] using htcount
  · by_cases htcount : (s.lock.threads t).pc = .lockLoadCount
    · have hzero : s.lock.mem.exclusiveCount ≠ 0 := fun hzero => ht' ⟨Or.inr htcount, hzero⟩
      have hadv : advance t s.lock.mem (s.lock.threads t) =
          some (s.lock.mem, (s.lock.threads t).goto .lockWait) := by
        simp only [advance, htcount, if_neg hzero]
      refine ⟨_, {u, t}, .single (a := .mutex (.run t)) trivial (next_mutex_run role hadv), ?_⟩
      apply deadlocked_pair
      · simpa only [setThread_ne _ _ hne] using hheld
      · simpa only [setThread_ne _ _ hne] using hu
      · simpa only [setThread_ne _ _ hne] using hucount
      · simp [Thread.goto, Pc.waitsExclusive]
      · simp [Thread.goto]
    · exact ⟨s, {u, t}, Relation.ReflTransGen.refl, deadlocked_pair hheld hu hucount ht htcount⟩

/-- A listen callback that calls `closeClient` waits for the shared access of its own thread. -/
theorem deadlock_of_close {t : T} (hr : (system role).Reachable s)
    (hhead : (s.frames t).head? = some .listenCallback)
    (hs : next role s (.enter t .closeClient) = some s') :
    ∃ s'' D, (system role).LeadsTo s' s'' ∧ Deadlocked (Blocks s''.lock) D := by
  have hf := framed_of_reachable hr
  simp only [next] at hs
  split_ifs at hs
  obtain ⟨m, hm, rfl⟩ := Option.map_eq_some_iff.mp hs
  have hheld := (hf.holds t).outside (callMutex_outside hm)
  obtain ⟨th', hb, rfl⟩ := callMutex_some hm
  have hth : th' = (s.lock.threads t).goto .lockAddRequest := by
    rcases (begin_cases hb).2 with ⟨ho, -⟩ | ⟨-, hth⟩ | ⟨ho, -⟩ | ⟨ho, -⟩
    · cases ho
    · exact hth
    all_goals cases ho
  subst th'
  set r := s.become t (.closeClient :: s.frames t)
    (s.lock.setThread t ((s.lock.threads t).goto .lockAddRequest)) with hrdef
  have hpc : (r.lock.threads t) = (s.lock.threads t).goto .lockAddRequest := setThread_self ..
  have hadv : advance t r.lock.mem (r.lock.threads t) =
      some ({ r.lock.mem with exclusiveRequests := r.lock.mem.exclusiveRequests + 1 },
        (s.lock.threads t).goto .lockAcquire) := by
    rw [hpc]
    rfl
  refine ⟨_, {t}, .single (a := .mutex (.run t)) trivial (next_mutex_run role hadv), ⟨t, rfl⟩, ?_⟩
  rintro v rfl
  refine ⟨v, rfl, Or.inr (Or.inr ?_)⟩
  simp only [setThread_self]
  refine ⟨rfl, by simp [Thread.goto], sharedWeight_pos ?_⟩
  change .shared ∈ (s.lock.threads v).held
  rw [← hheld]
  exact shared_mem_accesses (hf.listens v) hhead

/-- Each kind of step that `Clear` excludes leads to a deadlock. -/
theorem deadlock_of_not_clear (hr : (system role).Reachable s) {a : Label T}
    (hclear : ¬ Clear s a) (hs : next role s a = some s') :
    ∃ s'' D, (system role).LeadsTo s' s'' ∧ Deadlocked (Blocks s''.lock) D := by
  have ha := accounted_of_reachable (lock_reachable hr)
  have hr' : (system role).Reachable s' := hr.step trivial hs
  cases a with
  | enter t f =>
      simp only [Clear, not_forall, not_not] at hclear
      obtain ⟨rfl, hhead⟩ := hclear
      exact deadlock_of_close hr hhead hs
  | leave t => exact absurd trivial hclear
  | disconnect t => exact absurd trivial hclear
  | mutex b =>
      cases b with
      | call t op => cases hs
      | notify t woken => exact absurd trivial hclear
      | spurious t => exact absurd trivial hclear
      | run t =>
          simp only [Clear, not_and_or, not_forall] at hclear
          rcases hclear with ⟨hpc, hwrite, u, hu, hu'⟩ | ⟨hpc, u, hwrite, hu, hu'⟩
          · have hne : u ≠ t := by
              rintro rfl
              simp [hpc, Pc.waitsExclusive] at hu
            have hrequests : s.lock.mem.exclusiveRequests ≠ 0 := by
              have hle := ha.requestWeight_le u
              rw [requestWeight_of_waits (by simp [Pc.waits, hu]), if_pos hu] at hle
              omega
            have hadv : advance t s.lock.mem (s.lock.threads t) =
                some (s.lock.mem, (s.lock.threads t).goto .slowAcquire) := by
              simp only [advance, hpc, if_neg hrequests]
            obtain rfl := Option.some.inj ((next_mutex_run role hadv).symm.trans hs)
            apply deadlock_of_meeting hr' (u := t) (t := u) hwrite
            · simp [Thread.goto, Pc.waitsShared]
            · simpa only [setThread_ne _ _ hne] using hu
            · simp [AboutToPass, Thread.goto]
            · simpa only [setThread_ne _ _ hne] using hu'
          · have hne : u ≠ t := by
              rintro rfl
              simp [hpc, Pc.waitsShared] at hu
            have hadv : advance t s.lock.mem (s.lock.threads t) =
                some ({ s.lock.mem with
                  exclusiveRequests := s.lock.mem.exclusiveRequests + 1 },
                  (s.lock.threads t).goto .lockAcquire) := by
              simp only [advance, hpc]
            obtain rfl := Option.some.inj ((next_mutex_run role hadv).symm.trans hs)
            apply deadlock_of_meeting hr' (u := u) (t := t) hwrite
            · simpa only [setThread_ne _ _ hne] using hu
            · simp [Thread.goto, Pc.waitsExclusive]
            · simpa only [AboutToPass, setThread_ne _ _ hne] using hu'
            · simp [AboutToPass, Thread.goto]

end Clear

/-! ### A server with one worker pair -/

instance {T : Type*} [Fintype T] (s : State T) (a : Label T) : Decidable (Clear s a) :=
  match a with
  | .enter t f =>
      inferInstanceAs (Decidable (f = .closeClient → (s.frames t).head? ≠ some .listenCallback))
  | .mutex (.run t) => inferInstanceAs (Decidable (
      ((s.lock.threads t).pc = .fastLoadRequests → InCallbackWrite (s.frames t) →
        ∀ u, (s.lock.threads u).pc.waitsExclusive → AboutToPass s.lock.mem (s.lock.threads u)) ∧
      ((s.lock.threads t).pc = .lockAddRequest → ∀ u, InCallbackWrite (s.frames u) →
        (s.lock.threads u).pc.waitsShared → AboutToPass s.lock.mem (s.lock.threads u))))
  | .leave _ | .disconnect _ | .mutex (.call _ _) | .mutex (.notify _ _) | .mutex (.spurious _) =>
      isTrue trivial

def oneWorkerPair : Fin 3 → Role
  | 0 => .readWorker
  | 1 => .writeWorker
  | 2 => .listenThread

def runs {T : Type*} (t : T) (n : ℕ) : List (Label T) := List.replicate n (.mutex (.run t))

/-- The listen thread registers a client while nobody else is in the mutex. -/
def accept {T : Type*} (t : T) : List (Label T) :=
  .enter t .onConnectedClient :: runs t 7 ++
    .leave t :: runs t 3 ++ .mutex (.notify t none) :: runs t 1

/-- The read worker finds data and runs the listen callback. -/
def deliver {T : Type*} (t : T) : List (Label T) :=
  .enter t .readLoop :: runs t 2 ++ [.enter t .listenCallback]

/-- A listen callback that closes its client waits for its own worker's shared access. -/
theorem not_forall_not_deadlocked :
    ¬ ∀ s, (system oneWorkerPair).Reachable s → ∀ D, ¬ Deadlocked (Blocks s.lock) D := by
  intro h
  have hrun : ((system oneWorkerPair).exec (initial (Fin 3))
      (accept 2 ++ deliver 0 ++ .enter 0 .closeClient :: runs 0 1)).any (fun s =>
      (s.lock.threads 0).pc = .lockAcquire ∧ 0 < sharedWeight (s.lock.threads 0)) = true := by
    decide
  obtain ⟨s, hs, hpc⟩ := TransitionSystem.exists_reachedBy_of_execWhile hrun
  rw [decide_eq_true_eq] at hpc
  obtain ⟨hpc, hpos⟩ := hpc
  apply h s hs {0}
  refine ⟨⟨0, rfl⟩, ?_⟩
  rintro t rfl
  exact ⟨0, rfl, Or.inr (Or.inr ⟨by rw [hpc]; rfl, by simp [hpc], hpos⟩)⟩

/-- The callback has entered `write` before the listen thread asks for exclusive access: the listen
thread sleeps until the worker is out. -/
theorem not_deadlocked_write_before_accept :
    ∃ s, (system oneWorkerPair).ReachedBy Clear s ∧
      s.frames 0 = [.write, .listenCallback, .readLoop] ∧
      (s.lock.threads 0).held = [.shared, .shared] ∧ (s.lock.threads 2).pc = .lockAsleep ∧
      ∀ D, ¬ Deadlocked (Blocks s.lock) D := by
  have hrun : ((system oneWorkerPair).execWhile Clear (initial (Fin 3))
      (accept 2 ++ deliver 0 ++ .enter 0 .write :: runs 0 2 ++
        .enter 2 .onConnectedClient :: runs 2 4)).any (fun s =>
      s.frames 0 = [.write, .listenCallback, .readLoop] ∧
      (s.lock.threads 0).held = [.shared, .shared] ∧
      (s.lock.threads 2).pc = .lockAsleep) = true := by decide
  obtain ⟨s, hs, hstate⟩ := TransitionSystem.exists_reachedBy_of_execWhile hrun
  rw [decide_eq_true_eq] at hstate
  exact ⟨s, hs, hstate.1, hstate.2.1, hstate.2.2, not_deadlocked_of_clear hs⟩

end SocketLib.ServerCallbacks
