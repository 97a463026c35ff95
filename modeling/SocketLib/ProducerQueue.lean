import Mathlib.Data.List.Basic
import Mathlib.Tactic

/-!
# Concurrent queues that keep the order of each producer

Such a queue is the list of elements waiting for each producer, in the order that producer enqueued
them; the order between producers is left open. A bulk dequeue takes out a batch in which the
elements of every producer are the first ones of that producer, in order.
-/

def ProducerQueue (P α : Type*) := P → List α

namespace ProducerQueue

variable {P α : Type*} [DecidableEq P]

/-- The elements of one producer in a list of elements with their producers. -/
def ofProducer (p : P) (items : List (P × α)) : List α :=
  (items.filter (fun x => x.1 = p)).map Prod.snd

def enqueue (q : ProducerQueue P α) (p : P) (x : α) : ProducerQueue P α :=
  Function.update q p (q p ++ [x])

/-- The batch can be taken out of the queue. -/
def Offers (q : ProducerQueue P α) (batch : List (P × α)) : Prop :=
  ∀ x ∈ batch, ofProducer x.1 batch <+: q x.1

instance [DecidableEq α] (q : ProducerQueue P α) (batch : List (P × α)) :
    Decidable (q.Offers batch) := by
  unfold Offers
  infer_instance

def dequeue (q : ProducerQueue P α) (batch : List (P × α)) : ProducerQueue P α :=
  fun p => (q p).drop (ofProducer p batch).length

theorem ofProducer_append (p : P) (xs ys : List (P × α)) :
    ofProducer p (xs ++ ys) = ofProducer p xs ++ ofProducer p ys := by
  simp only [ofProducer, List.filter_append, List.map_append]

theorem enqueue_self (q : ProducerQueue P α) (p : P) (x : α) :
    q.enqueue p x p = q p ++ [x] := Function.update_self ..

theorem enqueue_ne (q : ProducerQueue P α) {p p' : P} (x : α) (h : p' ≠ p) :
    q.enqueue p x p' = q p' := Function.update_of_ne h ..

/-- Nothing comes out of an empty queue. -/
theorem Offers.eq_nil {q : ProducerQueue P α} {batch : List (P × α)} (h : q.Offers batch)
    (hq : ∀ p, q p = []) : batch = [] := by
  cases batch with
  | nil => rfl
  | cons x rest =>
      have hprefix := h x List.mem_cons_self
      rw [hq x.1, List.prefix_nil, ofProducer, List.filter_cons_of_pos (by simp)] at hprefix
      cases hprefix

theorem ofProducer_eq_nil {p : P} {items : List (P × α)} (h : ∀ x ∈ items, x.1 ≠ p) :
    ofProducer p items = [] := by
  rw [ofProducer, List.filter_eq_nil_iff.mpr (by simpa using h), List.map_nil]

theorem ofProducer_map_self (p : P) (xs : List α) : ofProducer p (xs.map (Prod.mk p)) = xs := by
  rw [ofProducer, List.filter_eq_self.mpr (by simp), List.map_map]
  exact List.map_id xs

theorem ofProducer_map_ne {p p' : P} (h : p' ≠ p) (xs : List α) :
    ofProducer p (xs.map (Prod.mk p')) = [] := by
  apply ofProducer_eq_nil
  simp only [List.mem_map]
  rintro x ⟨y, -, rfl⟩
  exact h

/-- A bulk dequeue splits what waits for each producer. -/
theorem ofProducer_append_dequeue {q : ProducerQueue P α} {batch : List (P × α)}
    (h : q.Offers batch) (p : P) : ofProducer p batch ++ q.dequeue batch p = q p := by
  have hprefix : ofProducer p batch <+: q p := by
    by_cases hp : ∃ x ∈ batch, x.1 = p
    · obtain ⟨x, hx, rfl⟩ := hp
      exact h x hx
    · push Not at hp
      rw [ofProducer_eq_nil hp]
      exact List.nil_prefix
  obtain ⟨rest, hrest⟩ := hprefix
  rw [dequeue, ← hrest, List.drop_left]

theorem offers_singleton {q : ProducerQueue P α} {p : P} {x : α} {rest : List α}
    (h : q p = x :: rest) : q.Offers [(p, x)] := by
  intro y hy
  obtain rfl := List.mem_singleton.mp hy
  rw [h, show ofProducer p [(p, x)] = [x] from ofProducer_map_self p [x]]
  exact ⟨rest, rfl⟩

theorem dequeue_singleton (q : ProducerQueue P α) (p : P) (x : α) :
    q.dequeue [(p, x)] = Function.update q p (q p).tail := by
  have hself : ofProducer p [(p, x)] = [x] := ofProducer_map_self p [x]
  refine Function.eq_update_iff.mpr ⟨?_, fun p' hp => ?_⟩
  · rw [dequeue, hself, List.length_singleton, List.drop_one]
  · have hother : ofProducer p' [(p, x)] = [] := ofProducer_map_ne (Ne.symm hp) [x]
    rw [dequeue, hother, List.length_nil, List.drop_zero]

end ProducerQueue
