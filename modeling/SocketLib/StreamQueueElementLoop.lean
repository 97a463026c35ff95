import SocketLib.StreamQueueDequeue

/-!
# The element loop of `dequeueAsVec`, step by step

The loop is followed through its test, its assignment, its `pop_front` and its increment. An
assignment outside the vector and `front` or `pop_front` on an empty queue have no meaning, so they
have no step.

The index alone bounds nothing: it comes round to zero, and the bound may lie beyond its range. But
it is at most the number of bytes that have been popped (`Turning`), and at an assignment one byte
more is still in the queue; with the test against `maxCount` it is below the length of the vector.
The loop ends because the queue shrinks.
-/

namespace SocketLib.StreamQueue

open Channel (Bytes)

inductive LoopPoint
  | test
  | assign
  | pop
  | increment
  | done
  deriving DecidableEq

structure Loop where
  point : LoopPoint
  i : UInt8
  newQueue : Bytes
  bytes : Bytes

def loopNext (maxCount : ℕ) (s : Loop) : Unit → Option Loop
  | () => match s.point with
    | .test =>
        some { s with point := if s.i.toNat < maxCount ∧ s.bytes ≠ [] then .assign else .done }
    | .assign => match s.bytes with
        | front :: _ =>
            if s.i.toNat < s.newQueue.length then
              some { s with point := .pop, newQueue := s.newQueue.set s.i.toNat front }
            else none
        | [] => none
    | .pop => match s.bytes with
        | _ :: rest => some { s with point := .increment, bytes := rest }
        | [] => none
    | .increment => some { s with point := .test, i := s.i + 1 }
    | .done => none

/-- The loop over a queue, from the construction of the vector and the index on. -/
def elementLoop (maxCount : ℕ) (queue : Bytes) : TransitionSystem Loop Unit :=
  ⟨⟨.test, 0, List.replicate (countToDequeue maxCount queue) 0, queue⟩, loopNext maxCount⟩

/-- The vector has the length it is returned with, an assignment writes inside it, the queue is not
empty where `front` or `pop_front` is applied, and the loop goes on up to its end. -/
structure Safe (maxCount : ℕ) (queue : Bytes) (s : Loop) : Prop where
  length : s.newQueue.length = min maxCount queue.length
  write : s.point = .assign → s.i.toNat < s.newQueue.length
  nonempty : s.point = .assign ∨ s.point = .pop → s.bytes ≠ []
  goesOn : s.point ≠ .done → ∃ s', loopNext maxCount s () = some s'

/-- The steps of the loop. -/
inductive Turns (maxCount : ℕ) : Loop → Loop → Prop
  | enter (i : UInt8) (newQueue : Bytes) (front : UInt8) (rest : Bytes) (h : i.toNat < maxCount) :
      Turns maxCount ⟨.test, i, newQueue, front :: rest⟩ ⟨.assign, i, newQueue, front :: rest⟩
  | leave (i : UInt8) (newQueue bytes : Bytes) (h : ¬ (i.toNat < maxCount ∧ bytes ≠ [])) :
      Turns maxCount ⟨.test, i, newQueue, bytes⟩ ⟨.done, i, newQueue, bytes⟩
  | assign (i : UInt8) (newQueue : Bytes) (front : UInt8) (rest : Bytes)
      (h : i.toNat < newQueue.length) :
      Turns maxCount ⟨.assign, i, newQueue, front :: rest⟩
        ⟨.pop, i, newQueue.set i.toNat front, front :: rest⟩
  | pop (i : UInt8) (newQueue : Bytes) (front : UInt8) (rest : Bytes) :
      Turns maxCount ⟨.pop, i, newQueue, front :: rest⟩ ⟨.increment, i, newQueue, rest⟩
  | increment (i : UInt8) (newQueue bytes : Bytes) :
      Turns maxCount ⟨.increment, i, newQueue, bytes⟩ ⟨.test, i + 1, newQueue, bytes⟩

variable {maxCount : ℕ} {queue : Bytes} {s s' : Loop}

theorem turns_of_loopNext (h : loopNext maxCount s () = some s') : Turns maxCount s s' := by
  obtain ⟨point, i, newQueue, bytes⟩ := s
  cases point with
  | test =>
      simp only [loopNext, Option.some.injEq] at h
      subst s'
      split_ifs with htest
      · obtain ⟨hlt, hne⟩ := htest
        obtain ⟨front, rest, rfl⟩ := List.exists_cons_of_ne_nil hne
        exact .enter i newQueue front rest hlt
      · exact .leave i newQueue bytes htest
  | assign =>
      cases bytes with
      | nil => cases h
      | cons front rest =>
          simp only [loopNext] at h
          split_ifs at h with hlt
          obtain rfl := Option.some.inj h
          exact .assign i newQueue front rest hlt
  | pop =>
      cases bytes with
      | nil => cases h
      | cons front rest =>
          obtain rfl := Option.some.inj h
          exact .pop i newQueue front rest
  | increment =>
      obtain rfl := Option.some.inj h
      exact .increment i newQueue bytes
  | done => cases h

/-! ### Safety -/

/-- The index at the next test. -/
def Loop.counter (s : Loop) : UInt8 :=
  match s.point with
  | .increment => s.i + 1
  | _ => s.i

/-- The index is the number of bytes that have been popped, as far as eight bits show it. -/
structure Turning (maxCount : ℕ) (queue : Bytes) (s : Loop) : Prop where
  length : s.newQueue.length = min maxCount queue.length
  shrinks : s.bytes.length ≤ queue.length
  counter : s.counter.toNat = (queue.length - s.bytes.length) % 256
  tested : s.point = .assign ∨ s.point = .pop → s.i.toNat < maxCount ∧ s.bytes ≠ []

theorem turning_start : Turning maxCount queue (elementLoop maxCount queue).start where
  length := List.length_replicate
  shrinks := le_rfl
  counter := by
    change (0 : UInt8).toNat = (queue.length - queue.length) % 256
    rw [Nat.sub_self]
    rfl
  tested := by rintro (h | h) <;> cases h

theorem Turns.turning (h : Turns maxCount s s') (ht : Turning maxCount queue s) :
    Turning maxCount queue s' := by
  cases h with
  | enter i newQueue front rest hlt =>
      exact ⟨ht.length, ht.shrinks, ht.counter, fun _ => ⟨hlt, List.cons_ne_nil front rest⟩⟩
  | leave i newQueue bytes _ =>
      exact ⟨ht.length, ht.shrinks, ht.counter, by rintro (h | h) <;> cases h⟩
  | assign i newQueue front rest _ =>
      have hlength := ht.length
      rw [← List.length_set] at hlength
      exact ⟨hlength, ht.shrinks, ht.counter, fun _ => ht.tested (Or.inl rfl)⟩
  | pop i newQueue front rest =>
      have hshrinks : rest.length + 1 ≤ queue.length := ht.shrinks
      have hcounter : i.toNat = (queue.length - (rest.length + 1)) % 256 := ht.counter
      refine ⟨ht.length, by change rest.length ≤ _; omega, ?_, by rintro (h | h) <;> cases h⟩
      change (i + 1).toNat = (queue.length - rest.length) % 256
      rw [toNat_succ hcounter]
      congr 1
      omega
  | increment i newQueue bytes =>
      exact ⟨ht.length, ht.shrinks, ht.counter, by rintro (h | h) <;> cases h⟩

/-- An assignment comes before the pop of its byte: one byte more than the index says is there. -/
theorem Turning.write (ht : Turning maxCount queue s) (hpoint : s.point = .assign) :
    s.i.toNat < s.newQueue.length := by
  obtain ⟨hlt, hne⟩ := ht.tested (Or.inl hpoint)
  have hcounter : s.i.toNat = (queue.length - s.bytes.length) % 256 := by
    have hcounter := ht.counter
    simpa only [Loop.counter, hpoint] using hcounter
  have hpos : 0 < s.bytes.length := List.length_pos_iff.mpr hne
  have hshrinks := ht.shrinks
  rw [ht.length]
  omega

theorem Turning.goesOn (ht : Turning maxCount queue s) (hpoint : s.point ≠ .done) :
    ∃ s', loopNext maxCount s () = some s' := by
  have hwrite := ht.write
  have htested := ht.tested
  obtain ⟨point, i, newQueue, bytes⟩ := s
  cases point with
  | test | increment => exact ⟨_, rfl⟩
  | assign =>
      obtain ⟨front, rest, rfl⟩ := List.exists_cons_of_ne_nil (htested (Or.inl rfl)).2
      exact ⟨_, if_pos (hwrite rfl)⟩
  | pop =>
      obtain ⟨front, rest, rfl⟩ := List.exists_cons_of_ne_nil (htested (Or.inr rfl)).2
      exact ⟨_, rfl⟩
  | done => exact absurd rfl hpoint

theorem Turning.safe (ht : Turning maxCount queue s) : Safe maxCount queue s where
  length := ht.length
  write := ht.write
  nonempty h := (ht.tested h).2
  goesOn := ht.goesOn

/-! ### Termination -/

/-- How many steps are left at most. -/
def Loop.left (s : Loop) : ℕ :=
  4 * s.bytes.length + match s.point with
    | .increment => 4
    | .test => 3
    | .assign => 2
    | .pop => 1
    | .done => 0

theorem Turns.left_lt (h : Turns maxCount s s') : s'.left < s.left := by
  cases h <;> simp only [Loop.left, List.length_cons] <;> omega

/-! ### The result -/

/-- What the rest of the loop comes to. -/
def Loop.result (maxCount : ℕ) (s : Loop) : Option (Bytes × Bytes) :=
  match s.point, s.bytes with
  | .test, bytes => dequeueLoop maxCount s.i s.newQueue bytes
  | .assign, front :: rest =>
      if s.i.toNat < s.newQueue.length then
        dequeueLoop maxCount (s.i + 1) (s.newQueue.set s.i.toNat front) rest
      else none
  | .pop, _ :: rest => dequeueLoop maxCount (s.i + 1) s.newQueue rest
  | .increment, bytes => dequeueLoop maxCount (s.i + 1) s.newQueue bytes
  | .done, bytes => some (s.newQueue, bytes)
  | _, [] => none

theorem Turns.result_eq (h : Turns maxCount s s') : s'.result maxCount = s.result maxCount := by
  cases h with
  | enter i newQueue front rest hlt => exact (if_pos hlt).symm
  | leave i newQueue bytes hnot =>
      cases bytes with
      | nil => rfl
      | cons front rest =>
          have hge : ¬ i.toNat < maxCount := fun hlt => hnot ⟨hlt, List.cons_ne_nil front rest⟩
          exact (if_neg hge).symm
  | assign i newQueue front rest hlt => exact (if_pos hlt).symm
  | pop => rfl
  | increment => rfl

/-- What every step of the loop keeps. -/
structure Keeps (maxCount : ℕ) (queue : Bytes) (s : Loop) : Prop where
  turning : Turning maxCount queue s
  result : s.result maxCount = dequeueAsVec maxCount queue

theorem keeps_start : Keeps maxCount queue (elementLoop maxCount queue).start :=
  ⟨turning_start, rfl⟩

theorem Keeps.next (hk : Keeps maxCount queue s) (h : loopNext maxCount s () = some s') :
    Keeps maxCount queue s' ∧ s'.left < s.left :=
  have hturn := turns_of_loopNext h
  ⟨⟨hturn.turning hk.turning, hturn.result_eq.trans hk.result⟩, hturn.left_lt⟩

/-- Whatever the queue and the bound, every step of the element loop is safe, no run of it is longer
than the queue allows, and it ends with what `dequeueAsVec` returns and leaves. -/
theorem dequeueAsVec_safe (maxCount : ℕ) (queue : Bytes) :
    (∀ s, (elementLoop maxCount queue).Reachable s → Safe maxCount queue s) ∧
    (∀ steps s, (elementLoop maxCount queue).exec (elementLoop maxCount queue).start steps =
      some s → steps.length ≤ 4 * queue.length + 3) ∧
    ∃ steps s, (elementLoop maxCount queue).exec (elementLoop maxCount queue).start steps =
      some s ∧ s.point = .done ∧ s.newQueue.length = min maxCount queue.length ∧
      dequeueAsVec maxCount queue = some (s.newQueue, s.bytes) ∧
      dequeAsMessage maxCount queue = some (ofVector s.newQueue, s.bytes) := by
  have hstep : ∀ s a s', Keeps maxCount queue s → (elementLoop maxCount queue).next s a = some s' →
      Keeps maxCount queue s' ∧ s'.left < s.left := fun s a s' hk h => hk.next h
  have hnext : ∀ s, Keeps maxCount queue s → ¬ s.point = .done →
      ∃ a s', (elementLoop maxCount queue).next s a = some s' :=
    fun s hk hs => ⟨(), hk.turning.goesOn hs⟩
  refine ⟨fun s hs => ?_, fun steps s h => ?_, ?_⟩
  · exact (hs.invariant keeps_start (fun s a s' _ hk _ h => (hstep s a s' hk h).1)).turning.safe
  · exact TransitionSystem.length_le_of_measure (μ := Loop.left) hstep keeps_start h
  · obtain ⟨steps, s, hs, hk, hdone⟩ :=
      TransitionSystem.exists_exec_of_measure hstep hnext keeps_start
    have hresult : dequeueAsVec maxCount queue = some (s.newQueue, s.bytes) := by
      rw [← hk.result, Loop.result, hdone]
    refine ⟨steps, s, hs, hdone, hk.turning.length, hresult, ?_⟩
    rw [dequeAsMessage, hresult, Option.map_some]

end SocketLib.StreamQueue
