import SocketLib.StreamQueue

/-!
# The ways to take bytes off a `StreamQueue`

`dequeue` copies and erases in bulk. `dequeueAsVec` moves byte after byte into a vector of the right
length, at an index of eight bits. The index is compared with `maxCount` only, so from 256 on the
comparison never fails: the loop empties the queue and writes round and round the first 256 places
of the vector (`Scattered`). The two agree below that bound, and beyond it only on bytes that do not
show the difference (`agrees_iff`).
-/

namespace SocketLib.StreamQueue

open Channel (Bytes Message)

/-- The element loop. A write outside the vector has no result. -/
def dequeueLoop (maxCount : ℕ) (i : UInt8) (newQueue : Bytes) : Bytes → Option (Bytes × Bytes)
  | [] => some (newQueue, [])
  | front :: rest =>
      if i.toNat < maxCount then
        if i.toNat < newQueue.length then
          dequeueLoop maxCount (i + 1) (newQueue.set i.toNat front) rest
        else none
      else some (newQueue, front :: rest)

def dequeueAsVec (maxCount : ℕ) (bytes : Bytes) : Option (Bytes × Bytes) :=
  dequeueLoop maxCount 0 (List.replicate (countToDequeue maxCount bytes) 0) bytes

/-- `Message(std::vector<byte>)`. -/
def ofVector (data : Bytes) : Message :=
  if data.length = 0 then ⟨none, 0, nofun⟩
  else ⟨some data, data.length, Channel.sized_some data⟩

def dequeAsMessage (maxCount : ℕ) (bytes : Bytes) : Option (Message × Bytes) :=
  (dequeueAsVec maxCount bytes).map (fun r => (ofVector r.1, r.2))

theorem ofVector_toSpan (data : Bytes) : (ofVector data).toSpan = data := by
  rw [ofVector]
  split_ifs with h
  · exact (List.length_eq_zero_iff.mp h).symm
  · rfl

/-! ### The element loop -/

/-- The vector after `k` bytes of the queue: a place below 256 has the last byte that fell on it,
the others are as they were. -/
structure Scattered (bytes : Bytes) (k : ℕ) (newQueue : Bytes) : Prop where
  fresh : ∀ j < newQueue.length, 256 ≤ j ∨ k ≤ j → newQueue[j]? = some 0
  last : ∀ j < 256, j < k → ∃ m < k, k ≤ m + 256 ∧ m % 256 = j ∧ newQueue[j]? = bytes[m]?

/-- How many bytes the loop takes off the queue. -/
def popCount (maxCount : ℕ) (bytes : Bytes) : ℕ :=
  if maxCount < 256 then countToDequeue maxCount bytes else bytes.length

variable {maxCount k : ℕ} {bytes rest newQueue : Bytes} {front : UInt8} {i : UInt8}

theorem scattered_replicate (n : ℕ) : Scattered bytes 0 (List.replicate n 0) := by
  constructor
  · intro j hj _
    rw [List.length_replicate] at hj
    rw [List.getElem?_replicate, if_pos hj]
  · intro j _ hj
    cases hj

theorem Scattered.set (h : Scattered bytes k newQueue) (hfront : bytes[k]? = some front)
    (hlt : k % 256 < newQueue.length) :
    Scattered bytes (k + 1) (newQueue.set (k % 256) front) := by
  constructor
  · intro j hj hor
    rw [List.length_set] at hj
    rw [List.getElem?_set_ne (by omega)]
    exact h.fresh j hj (by omega)
  · intro j hj hjk
    by_cases heq : k % 256 = j
    · subst j
      refine ⟨k, by omega, by omega, rfl, ?_⟩
      rw [List.getElem?_set_self hlt, hfront]
    · obtain ⟨m, hm, hkm, hmod, hget⟩ := h.last j hj (by omega)
      refine ⟨m, by omega, by omega, hmod, ?_⟩
      rw [List.getElem?_set_ne heq, hget]

theorem toNat_succ (hi : i.toNat = k % 256) : (i + 1).toNat = (k + 1) % 256 := by
  rw [UInt8.toNat_add, hi, UInt8.toNat_one]
  omega

/-- The loop from any of its turns on. -/
theorem dequeueLoop_scattered (hi : i.toNat = k % 256) (hrest : bytes.drop k = rest)
    (hk : k ≤ bytes.length) (hcount : maxCount < 256 → k ≤ maxCount)
    (hlen : newQueue.length = countToDequeue maxCount bytes) (h : Scattered bytes k newQueue) :
    ∃ vec, dequeueLoop maxCount i newQueue rest =
        some (vec, bytes.drop (popCount maxCount bytes)) ∧
      vec.length = countToDequeue maxCount bytes ∧
      Scattered bytes (popCount maxCount bytes) vec := by
  induction rest generalizing i k newQueue with
  | nil =>
      have hend : bytes.length ≤ k := List.drop_eq_nil_iff.mp hrest
      have hpop : popCount maxCount bytes = k := by
        unfold popCount countToDequeue
        split_ifs with hmax
        · have hle := hcount hmax
          omega
        · omega
      rw [hpop, dequeueLoop]
      exact ⟨newQueue, by rw [hrest], hlen, h⟩
  | cons front rest ih =>
      have hlt : k < bytes.length := by
        by_contra hge
        rw [List.drop_eq_nil_of_le (by omega)] at hrest
        cases hrest
      have hcons := hrest
      rw [List.drop_eq_getElem_cons hlt] at hcons
      obtain ⟨hfront, hrest'⟩ := List.cons.inj hcons
      rw [dequeueLoop]
      by_cases hmax : i.toNat < maxCount
      · have hbound : k % 256 < newQueue.length := by
          unfold countToDequeue at hlen
          omega
        rw [if_pos hmax, hi, if_pos hbound]
        refine ih (toNat_succ hi) hrest' hlt ?_ (by rw [List.length_set, hlen]) ?_
        · intro hsmall
          have hle := hcount hsmall
          omega
        · exact h.set (by rw [List.getElem?_eq_getElem hlt, hfront]) hbound
      · have hle := hcount (by omega)
        have hpop : popCount maxCount bytes = k := by
          unfold popCount countToDequeue
          rw [if_pos (by omega)]
          omega
        rw [if_neg hmax, hpop, hrest]
        exact ⟨newQueue, rfl, hlen, h⟩

theorem dequeueAsVec_scattered (maxCount : ℕ) (bytes : Bytes) :
    ∃ vec, dequeueAsVec maxCount bytes = some (vec, bytes.drop (popCount maxCount bytes)) ∧
      vec.length = countToDequeue maxCount bytes ∧
      Scattered bytes (popCount maxCount bytes) vec :=
  dequeueLoop_scattered rfl List.drop_zero (Nat.zero_le _) (fun _ => Nat.zero_le _)
    List.length_replicate (scattered_replicate _)

/-! ### Agreement -/

/-- The three ways yield what `peek` shows and leave the queue without it. -/
structure Agrees (maxCount : ℕ) (bytes : Bytes) : Prop where
  shown : peek maxCount bytes = bytes.take (min maxCount bytes.length)
  bulk : dequeue maxCount bytes = (peek maxCount bytes, bytes.drop (min maxCount bytes.length))
  vector : dequeueAsVec maxCount bytes = some (dequeue maxCount bytes)
  message : (dequeAsMessage maxCount bytes).map (fun r => (r.1.toSpan, r.2)) =
    some (dequeue maxCount bytes)

/-- The bound is below 256, or the queue is to be emptied and has zeros at every place from 256 on
and at every place with another one 256 places behind it. -/
def WithinCounter (maxCount : ℕ) (bytes : Bytes) : Prop :=
  maxCount < 256 ∨ bytes.length ≤ maxCount ∧
    ∀ j, ∀ hj : j < bytes.length, 256 ≤ j ∨ j + 256 < bytes.length → bytes[j] = 0

theorem dequeAsMessage_toSpan (maxCount : ℕ) (bytes : Bytes) :
    (dequeAsMessage maxCount bytes).map (fun r => (r.1.toSpan, r.2)) =
      dequeueAsVec maxCount bytes := by
  rw [dequeAsMessage, Option.map_map]
  have hid : (fun r : Message × Bytes => (r.1.toSpan, r.2)) ∘
      (fun r : Bytes × Bytes => (ofVector r.1, r.2)) = id := by
    funext r
    exact Prod.ext (ofVector_toSpan r.1) rfl
  rw [hid, Option.map_id, id]

theorem agrees_iff_dequeueAsVec :
    Agrees maxCount bytes ↔ dequeueAsVec maxCount bytes = some (dequeue maxCount bytes) := by
  refine ⟨Agrees.vector, fun h => ⟨rfl, rfl, h, ?_⟩⟩
  rw [dequeAsMessage_toSpan, h]

/-- While the index has not come round, the vector has the bytes in order. -/
theorem Scattered.eq_take (h : Scattered bytes k newQueue) (hk : k ≤ 256)
    (hlen : newQueue.length = k) : newQueue = bytes.take k := by
  apply List.ext_getElem?
  intro j
  rw [List.getElem?_take]
  split_ifs with hj
  · obtain ⟨m, hm, -, hmod, hget⟩ := h.last j (by omega) hj
    obtain rfl : m = j := by omega
    exact hget
  · exact List.getElem?_eq_none (by omega)

theorem Scattered.zeros (h : Scattered bytes bytes.length bytes) {j : ℕ} (hj : j < bytes.length)
    (hor : 256 ≤ j ∨ j + 256 < bytes.length) : bytes[j] = 0 := by
  have hfresh : ∀ l, 256 ≤ l → ∀ hl : l < bytes.length, bytes[l] = 0 := by
    intro l hle hl
    have hget := h.fresh l hl (Or.inl hle)
    rw [List.getElem?_eq_getElem hl] at hget
    exact Option.some.inj hget
  by_cases hsmall : 256 ≤ j
  · exact hfresh j hsmall hj
  · obtain ⟨m, hm, hlast, hmod, hget⟩ := h.last j (by omega) hj
    rw [List.getElem?_eq_getElem hj, List.getElem?_eq_getElem hm] at hget
    rw [Option.some.inj hget]
    exact hfresh m (by omega) hm

/-- A queue of which only zeros come round ends up in the vector as it was. -/
theorem Scattered.eq_of_zeros (h : Scattered bytes bytes.length newQueue)
    (hlen : newQueue.length = bytes.length)
    (hzero : ∀ j, ∀ hj : j < bytes.length, 256 ≤ j ∨ j + 256 < bytes.length → bytes[j] = 0) :
    newQueue = bytes := by
  apply List.ext_getElem?
  intro j
  by_cases hj : j < bytes.length
  · rw [List.getElem?_eq_getElem hj]
    by_cases hsmall : 256 ≤ j
    · rw [h.fresh j (by omega) (Or.inl hsmall), hzero j hj (Or.inl hsmall)]
    · obtain ⟨m, hm, -, hmod, hget⟩ := h.last j (by omega) hj
      rw [hget, List.getElem?_eq_getElem hm]
      by_cases heq : m = j
      · subst m
        rfl
      · rw [hzero j hj (by omega), hzero m hm (by omega)]
  · rw [List.getElem?_eq_none (by omega), List.getElem?_eq_none (by omega)]

/-- The three ways agree exactly within the range of the loop counter. -/
theorem agrees_iff (maxCount : ℕ) (bytes : Bytes) :
    Agrees maxCount bytes ↔ WithinCounter maxCount bytes := by
  rw [agrees_iff_dequeueAsVec]
  obtain ⟨vec, hvec, hlen, hs⟩ := dequeueAsVec_scattered maxCount bytes
  rw [hvec, Option.some.injEq, dequeue, Prod.mk.injEq]
  by_cases hmax : maxCount < 256
  · have hpop : popCount maxCount bytes = countToDequeue maxCount bytes := if_pos hmax
    rw [hpop] at hs ⊢
    have hle : countToDequeue maxCount bytes ≤ 256 := by
      unfold countToDequeue
      omega
    exact iff_of_true ⟨hs.eq_take hle hlen, rfl⟩ (Or.inl hmax)
  · have hpop : popCount maxCount bytes = bytes.length := if_neg hmax
    rw [hpop] at hs ⊢
    constructor
    · rintro ⟨htake, hdrop⟩
      rw [List.drop_length] at hdrop
      have hle : bytes.length ≤ countToDequeue maxCount bytes := List.drop_eq_nil_iff.mp hdrop.symm
      rw [List.take_of_length_le hle] at htake
      subst vec
      refine Or.inr ⟨?_, fun j hj hor => hs.zeros hj hor⟩
      unfold countToDequeue at hle
      omega
    · rintro (hsmall | ⟨hle, hzero⟩)
      · exact absurd hsmall hmax
      · have hcount : countToDequeue maxCount bytes = bytes.length := min_eq_right hle
        rw [hcount] at hlen ⊢
        rw [List.take_length]
        exact ⟨hs.eq_of_zeros hlen hzero, rfl⟩

/-- From a longer queue the loop takes more than it was asked for. -/
theorem dequeueAsVec_ne_dequeue (hmax : 256 ≤ maxCount) (hlen : maxCount < bytes.length) :
    dequeueAsVec maxCount bytes ≠ some (dequeue maxCount bytes) := by
  intro h
  obtain ⟨vec, hvec, -⟩ := dequeueAsVec_scattered maxCount bytes
  rw [hvec, popCount, if_neg (Nat.not_lt.mpr hmax), List.drop_length] at h
  have hrest : [] = bytes.drop (countToDequeue maxCount bytes) :=
    (Prod.mk.inj (Option.some.inj h)).2
  have hle : bytes.length ≤ countToDequeue maxCount bytes := List.drop_eq_nil_iff.mp hrest.symm
  unfold countToDequeue at hle
  omega

theorem not_agrees : ¬ ∀ maxCount bytes, Agrees maxCount bytes := by
  intro h
  have hlen : (List.replicate 257 (1 : UInt8)).length = 257 := List.length_replicate
  exact dequeueAsVec_ne_dequeue le_rfl (by omega) (h 256 (List.replicate 257 1)).vector

end SocketLib.StreamQueue
