import SocketLib.ExclusiveSharedMutexAccounting
import SocketLib.WaitsFor

/-!
# Waiting for each other in `ExclusivePrioritySharedMutex`

`Blocks s u t` says that `t` waits in `lock_shared` or `lock` for something that `u` has: a request
or exclusive access in front of a reader, any access in front of a writer. A thread whose last load
already passed the first half of its predicate is blocked by exclusive access alone. Whether a
sleeper is notified plays no role, so a blocked thread is one that re-checks its predicate in vain.

A deadlocked set stays deadlocked whatever its members and the other threads do
(`Deadlocked.forever`), which is what makes it a deadlock.
-/

namespace SocketLib.ExclusivePrioritySharedMutex

open ThreadFamily WaitsFor

variable {T : Type*}

/-- Inside `lock_shared`, waiting for its predicate to become true. -/
def Pc.waitsShared : Pc → Bool
  | .slowAcquire | .slowLoadRequests | .slowLoadCount | .slowWait | .slowAsleep | .slowWoken => true
  | _ => false

/-- Inside `lock`, waiting for its predicate to become true. -/
def Pc.waitsExclusive : Pc → Bool
  | .lockAcquire | .lockLoadShared | .lockLoadCount | .lockWait | .lockAsleep | .lockWoken => true
  | _ => false

def Pc.waits (pc : Pc) : Bool := pc.waitsShared || pc.waitsExclusive

def Blocks (s : State T) (u t : T) : Prop :=
  ((s.threads t).pc.waits ∧ 0 < exclusiveWeight (s.threads u)) ∨
    ((s.threads t).pc.waitsShared ∧ (s.threads t).pc ≠ .slowLoadCount ∧
      0 < requestWeight (s.threads u)) ∨
    ((s.threads t).pc.waitsExclusive ∧ (s.threads t).pc ≠ .lockLoadCount ∧
      0 < sharedWeight (s.threads u))

theorem Blocks.waits {s : State T} {u t : T} (h : Blocks s u t) : (s.threads t).pc.waits := by
  rcases h with ⟨hw, -⟩ | ⟨hw, -⟩ | ⟨hw, -⟩
  · exact hw
  · simp [Pc.waits, hw]
  · simp [Pc.waits, hw]

section Steps

variable {t : T} {m m' : Mem T} {th th' : Thread}

/-- What a waiting thread keeps while it waits on, and what it has just read when it stands at the
second half of its predicate. -/
structure WaitsOn (m : Mem T) (th th' : Thread) : Prop where
  held : th'.held = th.held
  waitsShared : th'.pc.waitsShared = th.pc.waitsShared
  waitsExclusive : th'.pc.waitsExclusive = th.pc.waitsExclusive
  readRequests : th'.pc = .slowLoadCount → th.pc = .slowLoadCount ∨ m.exclusiveRequests = 0
  readShared : th'.pc = .lockLoadCount → th.pc = .lockLoadCount ∨ m.sharedCount = 0

theorem WaitsOn.refl (m : Mem T) (th : Thread) : WaitsOn m th th :=
  ⟨rfl, rfl, rfl, Or.inl, Or.inl⟩

/-- A waiting thread gets on only by reading `exclusiveCount_` as zero after the first half of its
predicate was true. -/
theorem advance_waits (h : advance t m th = some (m', th')) (hw : th.pc.waits) :
    WaitsOn m th th' ∨
      ((th.pc = .slowLoadCount ∨ th.pc = .lockLoadCount) ∧ m.exclusiveCount = 0) := by
  by_cases hpass : (th.pc = .slowLoadCount ∨ th.pc = .lockLoadCount) ∧ m.exclusiveCount = 0
  · exact Or.inr hpass
  · left
    obtain ⟨held, pc⟩ := th
    cases pc
    all_goals try exact absurd hw Bool.false_ne_true
    all_goals
      simp only [advance, reduceCtorEq, Option.some.injEq, Option.map_eq_some_iff,
        Prod.mk.injEq] at h
    case slowAcquire | slowWoken | lockAcquire | lockWoken =>
      obtain ⟨-, -, -, rfl⟩ := h
      exact ⟨rfl, rfl, rfl, Pc.noConfusion, Pc.noConfusion⟩
    case slowWait | lockWait =>
      obtain ⟨-, rfl⟩ := h
      exact ⟨rfl, rfl, rfl, Pc.noConfusion, Pc.noConfusion⟩
    case slowLoadRequests =>
      obtain ⟨-, rfl⟩ := h
      split_ifs with hm
      · exact ⟨rfl, rfl, rfl, fun _ => Or.inr hm, Pc.noConfusion⟩
      · exact ⟨rfl, rfl, rfl, Pc.noConfusion, Pc.noConfusion⟩
    case lockLoadShared =>
      obtain ⟨-, rfl⟩ := h
      split_ifs with hm
      · exact ⟨rfl, rfl, rfl, Pc.noConfusion, fun _ => Or.inr hm⟩
      · exact ⟨rfl, rfl, rfl, Pc.noConfusion, Pc.noConfusion⟩
    case slowLoadCount | lockLoadCount =>
      obtain ⟨-, rfl⟩ := h
      rw [if_neg fun hm => hpass ⟨by simp, hm⟩]
      exact ⟨rfl, rfl, rfl, Pc.noConfusion, Pc.noConfusion⟩

end Steps

theorem sharedWeight_of_waits {th : Thread} (h : th.pc.waits) :
    sharedWeight th = th.held.count .shared := by
  obtain ⟨held, pc⟩ := th
  cases pc <;> simp_all [sharedWeight, Pc.waits, Pc.waitsShared, Pc.waitsExclusive]

theorem exclusiveWeight_of_waits {th : Thread} (h : th.pc.waits) :
    exclusiveWeight th = th.held.count .exclusive := by
  obtain ⟨held, pc⟩ := th
  cases pc <;> simp_all [exclusiveWeight, Pc.waits, Pc.waitsShared, Pc.waitsExclusive]

theorem requestWeight_of_waits {th : Thread} (h : th.pc.waits) :
    requestWeight th = if th.pc.waitsExclusive then 1 else 0 := by
  obtain ⟨held, pc⟩ := th
  cases pc <;> simp_all [requestWeight, Pc.requests, Pc.waits, Pc.waitsShared, Pc.waitsExclusive]

theorem waitsOn_woken (m : Mem T) {th : Thread} {cv : Access} (h : th.pc = .asleep cv) :
    WaitsOn m th (th.goto (.woken cv)) := by
  cases cv <;> constructor <;>
    simp [h, Thread.goto, Pc.asleep, Pc.woken, Pc.waitsShared, Pc.waitsExclusive]

theorem WaitsOn.waits {m : Mem T} {th th' : Thread} (h : WaitsOn m th th') (hw : th.pc.waits) :
    th'.pc.waits := by
  simpa only [Pc.waits, h.waitsShared, h.waitsExclusive] using hw

/-- A reader inside the mutex that waits again and a writer that waits block each other. -/
theorem deadlocked_pair {m : State T} {u t : T}
    (hheld : .shared ∈ (m.threads u).held) (hu : (m.threads u).pc.waitsShared)
    (hu' : (m.threads u).pc ≠ .slowLoadCount) (ht : (m.threads t).pc.waitsExclusive)
    (ht' : (m.threads t).pc ≠ .lockLoadCount) : Deadlocked (Blocks m) {u, t} := by
  refine ⟨⟨u, Or.inl rfl⟩, ?_⟩
  rintro v (rfl | rfl)
  · refine ⟨t, Or.inr rfl, Or.inr (Or.inl ⟨hu, hu', ?_⟩)⟩
    rw [requestWeight_of_waits (by simp [Pc.waits, ht]), if_pos ht]
    exact Nat.one_pos
  · refine ⟨u, Or.inl rfl, Or.inr (Or.inr ⟨ht, ht', ?_⟩)⟩
    rw [sharedWeight_of_waits (by simp [Pc.waits, hu])]
    exact List.count_pos_iff.mpr hheld

section Forever

variable [Fintype T] [DecidableEq T] {s s' : State T} {D : Set T}

/-- The members of a deadlocked set only wait on. -/
theorem waitsOn_of_blocks (ha : Accounted s) {a : Label T} (hs : next s a = some s') {t u : T}
    (hb : Blocks s u t) : WaitsOn s.mem (s.threads t) (s'.threads t) := by
  have hwaits := hb.waits
  cases a with
  | call v op =>
      obtain ⟨th', hbegin, rfl⟩ := Option.map_eq_some_iff.mp hs
      have hne : t ≠ v := by
        rintro rfl
        simp [(begin_cases hbegin).1, Pc.waits, Pc.waitsShared, Pc.waitsExclusive] at hwaits
      rw [setThread_ne s th' hne]
      exact WaitsOn.refl _ _
  | run v =>
      obtain ⟨m', th', hadv, rfl⟩ := next_run hs
      by_cases hne : t = v
      · subst v
        simp only [setThread_self]
        rcases advance_waits hadv hwaits with hon | ⟨hpc, hzero⟩
        · exact hon
        · -- the blocker holds exclusive access, so the count is not zero
          exfalso
          have hle := ha.exclusiveWeight_le u
          rcases hb with ⟨-, hpos⟩ | ⟨hw, hnot, -⟩ | ⟨hw, hnot, -⟩
          · omega
          · rcases hpc with hpc | hpc
            · exact hnot hpc
            · simp [hpc, Pc.waitsShared] at hw
          · rcases hpc with hpc | hpc
            · simp [hpc, Pc.waitsExclusive] at hw
            · exact hnot hpc
      · simp only [setThread_ne s th' hne]
        exact WaitsOn.refl _ _
  | notify v woken =>
      obtain ⟨cv, pc, hn, hw⟩ := next_notify hs
      have hne : t ≠ v := by
        rintro rfl
        rcases notifies_cases hn with ⟨hpc, -⟩ | ⟨hpc, -⟩ <;>
          simp [hpc, Pc.waits, Pc.waitsShared, Pc.waitsExclusive] at hwaits
      rcases wake_cases hw with ⟨w, -, hasleep, rfl⟩ | ⟨-, -, rfl⟩
      · by_cases htw : t = w
        · subst w
          rw [setThread_ne s _ hne] at hasleep
          rw [setThread_self, setThread_ne s _ hne]
          exact waitsOn_woken s.mem hasleep
        · rw [setThread_ne _ _ htw, setThread_ne s _ hne]
          exact WaitsOn.refl _ _
      · rw [setThread_ne s _ hne]
        exact WaitsOn.refl _ _
  | spurious v =>
      obtain ⟨cv, hpc, rfl⟩ := next_spurious hs
      by_cases hne : t = v
      · subst v
        rw [setThread_self]
        exact waitsOn_woken s.mem hpc
      · rw [setThread_ne s _ hne]
        exact WaitsOn.refl _ _

theorem Deadlocked.next (ha : Accounted s) {a : Label T} (hs : next s a = some s')
    (h : Deadlocked (Blocks s) D) : Deadlocked (Blocks s') D := by
  refine h.mono fun t ht u hu hb => ?_
  have hont := waitsOn_of_blocks ha hs hb
  obtain ⟨v, -, hvu⟩ := h.2 u hu
  have honu := waitsOn_of_blocks ha hs hvu
  have hwu := hvu.waits
  have hwu' := honu.waits hwu
  rcases hb with ⟨hw, hpos⟩ | ⟨hw, hnot, hpos⟩ | ⟨hw, hnot, hpos⟩
  · refine Or.inl ⟨hont.waits hw, ?_⟩
    rwa [exclusiveWeight_of_waits hwu', honu.held, ← exclusiveWeight_of_waits hwu]
  · refine Or.inr (Or.inl ⟨hont.waitsShared.trans hw, fun hpc => ?_, ?_⟩)
    · rcases hont.readRequests hpc with hold | hzero
      · exact hnot hold
      · have hle := ha.requestWeight_le u
        omega
    · rwa [requestWeight_of_waits hwu', honu.waitsExclusive, ← requestWeight_of_waits hwu]
  · refine Or.inr (Or.inr ⟨hont.waitsExclusive.trans hw, fun hpc => ?_, ?_⟩)
    · rcases hont.readShared hpc with hold | hzero
      · exact hnot hold
      · have hle := ha.sharedWeight_le u
        omega
    · rwa [sharedWeight_of_waits hwu', honu.held, ← sharedWeight_of_waits hwu]

/-- No step of any thread, and so no continuation of the run, frees a deadlocked set. -/
theorem Deadlocked.forever (hr : (system T).Reachable s) (h : Deadlocked (Blocks s) D)
    (hs : (system T).LeadsTo s s') : Deadlocked (Blocks s') D :=
  hs.preserves (I := fun r => Deadlocked (Blocks r) D) hr h
    (fun _ _ _ hrr hI _ hstep => Deadlocked.next (accounted_of_reachable hrr) hstep hI)

end Forever
end SocketLib.ExclusivePrioritySharedMutex
