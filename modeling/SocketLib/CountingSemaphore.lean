import SocketLib.ThreadFamily
import SocketLib.TransitionSystem

/-!
# Counting semaphores

Units are signalled; a thread takes some of those that are available into its hands, and gives what
it has in hand to its caller. Whatever the threads do, a unit that was signalled is available, in
somebody's hands, or was given (`conserved`).
-/

structure CountingSemaphore (T : Type*) where
  available : ℕ
  signalled : ℕ
  hand : T → ℕ
  given : ℕ

namespace CountingSemaphore

open ThreadFamily

inductive Use (T : Type*)
  | signal (units : ℕ)
  | take (t : T) (units : ℕ)
  | give (t : T)

variable {T : Type*} [DecidableEq T]

def use (s : CountingSemaphore T) : Use T → Option (CountingSemaphore T)
  | .signal units =>
      some { s with available := s.available + units, signalled := s.signalled + units }
  | .take t units =>
      if units ≤ s.available then
        some { s with
          available := s.available - units
          hand := Function.update s.hand t (s.hand t + units) }
      else none
  | .give t => some { s with hand := Function.update s.hand t 0, given := s.given + s.hand t }

variable (T) in
def system : TransitionSystem (CountingSemaphore T) (Use T) := ⟨⟨0, 0, fun _ => 0, 0⟩, use⟩

variable [Fintype T] {s s' : CountingSemaphore T} {a : Use T}

def inHand (s : CountingSemaphore T) : ℕ := total id s.hand

theorem use_conserved (h : use s a = some s')
    (hs : s.signalled = s.given + s.inHand + s.available) :
    s'.signalled = s'.given + s'.inHand + s'.available := by
  unfold inHand at *
  cases a with
  | signal units =>
      obtain rfl := Option.some.inj h
      dsimp only
      omega
  | take t units =>
      rw [use] at h
      split_ifs at h with hle
      obtain rfl := Option.some.inj h
      have htotal := total_update id s.hand t (s.hand t + units)
      dsimp only [id] at htotal ⊢
      omega
  | give t =>
      obtain rfl := Option.some.inj h
      have htotal := total_update id s.hand t 0
      dsimp only [id] at htotal ⊢
      omega

theorem conserved (h : (system T).Reachable s) :
    s.signalled = s.given + s.inHand + s.available :=
  h.invariant (I := fun s => s.signalled = s.given + s.inHand + s.available)
    (by simp [system, inHand, total]) (fun _ _ _ _ hs _ hnext => use_conserved hnext hs)

end CountingSemaphore
