import SocketLib.ProducerQueue
import SocketLib.TransitionSystem
import Mathlib.Algebra.BigOperators.Group.Finset.Basic

/-!
# Bulk dequeues in several parts

A thread that dequeues takes what the queue offers in several parts, such as one for each producer,
and is given what it has in hand when it is through. Between two parts other threads may enqueue and
take, so the hand need not be a batch that the queue has offered at any one moment.

What was enqueued by a producer is what was taken of it, in that order, and what is waiting; what a
thread has taken is what it was given and what it has in hand (`enqueuedOf_eq`, `takenBy_eq`). As
long as nobody takes while somebody else has something in hand, every dequeue is one step of a
`ProducerQueue` (`Merged.next`).
-/

@[ext]
structure BulkQueue (T P α : Type*) where
  waiting : ProducerQueue P α
  hand : T → List (P × α)

namespace BulkQueue

open ProducerQueue

inductive Action (T P α : Type*)
  | enqueue (p : P) (x : α)
  | take (t : T) (part : List (P × α))
  | deliver (t : T) (batch : List (P × α))

variable {T P α : Type*} [DecidableEq T] [DecidableEq P]

open scoped Classical in
noncomputable def next (q : BulkQueue T P α) : Action T P α → Option (BulkQueue T P α)
  | .enqueue p x => some { q with waiting := q.waiting.enqueue p x }
  | .take t part =>
      if q.waiting.Offers part then
        some { waiting := q.waiting.dequeue part
               hand := Function.update q.hand t (q.hand t ++ part) }
      else none
  | .deliver t batch =>
      if q.hand t = batch then some { q with hand := Function.update q.hand t [] } else none

variable (T P α) in
noncomputable def system : TransitionSystem (BulkQueue T P α) (Action T P α) :=
  ⟨⟨fun _ => [], fun _ => []⟩, next⟩

/-! ### What a run has enqueued, taken and delivered -/

def enqueuedOf (p : P) (as : List (Action T P α)) : List α :=
  as.flatMap (fun
    | .enqueue p' x => if p' = p then [x] else []
    | _ => [])

def taken (as : List (Action T P α)) : List (P × α) :=
  as.flatMap (fun
    | .take _ part => part
    | _ => [])

def takenBy (t : T) (as : List (Action T P α)) : List (P × α) :=
  as.flatMap (fun
    | .take t' part => if t' = t then part else []
    | _ => [])

def deliveredTo (t : T) (as : List (Action T P α)) : List (P × α) :=
  as.flatMap (fun
    | .deliver t' batch => if t' = t then batch else []
    | _ => [])

section Accounts

variable {q q' : BulkQueue T P α} {a : Action T P α} {as : List (Action T P α)}

/-- What waits for a producer, and what is enqueued and taken by one step. -/
theorem waiting_next (h : q.next a = some q') (p : P) :
    q.waiting p ++ enqueuedOf p [a] = ofProducer p (taken [a]) ++ q'.waiting p := by
  cases a with
  | enqueue p' x =>
      obtain rfl := Option.some.inj h
      simp only [enqueuedOf, taken, List.flatMap_singleton]
      split_ifs with hp
      · subst p'
        exact (enqueue_self ..).symm
      · rw [List.append_nil]
        exact (enqueue_ne _ _ (Ne.symm hp)).symm
  | take t part =>
      rw [next] at h
      split_ifs at h with hoffers
      obtain rfl := Option.some.inj h
      simp only [enqueuedOf, taken, List.flatMap_singleton, List.append_nil]
      exact (ofProducer_append_dequeue hoffers p).symm
  | deliver t batch =>
      rw [next] at h
      split_ifs at h
      obtain rfl := Option.some.inj h
      exact List.append_nil _

/-- What a thread has in hand, and what it takes and is given in one step. -/
theorem hand_next (h : q.next a = some q') (t : T) :
    q.hand t ++ takenBy t [a] = deliveredTo t [a] ++ q'.hand t := by
  cases a with
  | enqueue p x =>
      obtain rfl := Option.some.inj h
      exact List.append_nil _
  | take t' part =>
      rw [next] at h
      split_ifs at h
      obtain rfl := Option.some.inj h
      simp only [takenBy, deliveredTo, List.flatMap_singleton, List.nil_append]
      split_ifs with ht
      · subst t'
        rw [Function.update_self]
      · rw [Function.update_of_ne (Ne.symm ht), List.append_nil]
  | deliver t' batch =>
      rw [next] at h
      split_ifs at h with hbatch
      obtain rfl := Option.some.inj h
      simp only [takenBy, deliveredTo, List.flatMap_singleton, List.append_nil]
      split_ifs with ht
      · subst t'
        rw [Function.update_self, hbatch, List.append_nil]
      · rw [Function.update_of_ne (Ne.symm ht), List.nil_append]

theorem waiting_exec (h : (system T P α).exec q as = some q') (p : P) :
    q.waiting p ++ enqueuedOf p as = ofProducer p (taken as) ++ q'.waiting p := by
  induction as generalizing q with
  | nil =>
      obtain rfl : q = q' := Option.some.inj h
      exact List.append_nil _
  | cons a as ih =>
      rw [TransitionSystem.exec_cons] at h
      obtain ⟨r, hr, hrest⟩ := Option.bind_eq_some_iff.mp h
      have hone := waiting_next hr p
      have hrun := ih hrest
      simp only [enqueuedOf, taken, List.flatMap_cons, List.flatMap_nil, List.append_nil,
        ofProducer_append] at hone hrun ⊢
      rw [← List.append_assoc, hone, List.append_assoc, hrun, List.append_assoc]

theorem hand_exec (h : (system T P α).exec q as = some q') (t : T) :
    q.hand t ++ takenBy t as = deliveredTo t as ++ q'.hand t := by
  induction as generalizing q with
  | nil =>
      obtain rfl : q = q' := Option.some.inj h
      exact List.append_nil _
  | cons a as ih =>
      rw [TransitionSystem.exec_cons] at h
      obtain ⟨r, hr, hrest⟩ := Option.bind_eq_some_iff.mp h
      have hone := hand_next hr t
      have hrun := ih hrest
      simp only [takenBy, deliveredTo, List.flatMap_cons, List.flatMap_nil, List.append_nil]
        at hone hrun ⊢
      rw [← List.append_assoc, hone, List.append_assoc, hrun, List.append_assoc]

theorem enqueuedOf_eq (h : (system T P α).exec (system T P α).start as = some q) (p : P) :
    enqueuedOf p as = ofProducer p (taken as) ++ q.waiting p := waiting_exec h p

theorem takenBy_eq (h : (system T P α).exec (system T P α).start as = some q) (t : T) :
    takenBy t as = deliveredTo t as ++ q.hand t := hand_exec h t

omit [DecidableEq P] in
/-- Each thread takes its elements in the order in which the queue gives them away. -/
theorem takenBy_sublist (t : T) (as : List (Action T P α)) :
    (takenBy t as).Sublist (taken as) := by
  induction as with
  | nil => exact List.Sublist.refl _
  | cons a as ih =>
      rw [takenBy, taken, List.flatMap_cons, List.flatMap_cons]
      apply List.Sublist.append _ ih
      cases a with
      | take t' part =>
          dsimp only
          split_ifs
          · exact List.Sublist.refl _
          · exact List.nil_sublist _
      | _ => exact List.Sublist.refl _

omit [DecidableEq P] in
/-- Each element that is taken is taken by one thread, once. -/
theorem count_taken [Fintype T] [BEq (P × α)] (x : P × α) (as : List (Action T P α)) :
    (taken as).count x = ∑ t, (takenBy t as).count x := by
  induction as with
  | nil => exact Finset.sum_const_zero.symm
  | cons a as ih =>
      have hone : (taken [a]).count x = ∑ t, (takenBy t [a]).count x := by
        cases a with
        | take t part =>
            rw [Finset.sum_eq_single t]
            · simp only [taken, takenBy, List.flatMap_singleton, if_pos]
            · intro u _ hu
              simp only [takenBy, List.flatMap_singleton, if_neg (Ne.symm hu), List.count_nil]
            · exact fun h => absurd (Finset.mem_univ t) h
        | _ => exact Finset.sum_const_zero.symm
      simp only [taken, takenBy, List.flatMap_cons, List.flatMap_nil, List.append_nil,
        List.count_append, Finset.sum_add_distrib] at hone ih ⊢
      rw [hone, ih]

end Accounts

/-! ### Dequeues one at a time -/

/-- What is done with a queue whose bulk dequeues take one step. -/
inductive Atomic (P α : Type*)
  | enqueue (p : P) (x : α)
  | dequeue (batch : List (P × α))

open scoped Classical in
variable (P α) in
noncomputable def atomicSystem : TransitionSystem (ProducerQueue P α) (Atomic P α) where
  start := fun _ => []
  next q
    | .enqueue p x => some (q.enqueue p x)
    | .dequeue batch => if q.Offers batch then some (q.dequeue batch) else none

def Action.atomic : Action T P α → Option (Atomic P α)
  | .enqueue p x => some (.enqueue p x)
  | .take _ _ => none
  | .deliver _ batch => some (.dequeue batch)

/-- Nobody else has something in hand when a thread takes. -/
def Alone (q : BulkQueue T P α) : Action T P α → Prop
  | .take t _ => ∀ u, u ≠ t → q.hand u = []
  | _ => True

/-- The queue in which what is in the one hand still waits. -/
def Merged (q : BulkQueue T P α) (w : ProducerQueue P α) : Prop :=
  ∃ t, (∀ u, u ≠ t → q.hand u = []) ∧ ∀ p, w p = ofProducer p (q.hand t) ++ q.waiting p

section Merged

variable {q q' : BulkQueue T P α} {w rest : ProducerQueue P α} {batch : List (P × α)}
  {a : Action T P α}

omit [DecidableEq T] in
/-- With all hands but one empty, another hand can stand for it once it is empty too. -/
theorem Merged.eq_append (h : q.Merged w) {t : T} (ht : ∀ u, u ≠ t → q.hand u = []) (p : P) :
    w p = ofProducer p (q.hand t) ++ q.waiting p := by
  obtain ⟨u, hu, hw⟩ := h
  by_cases htu : t = u
  · subst u
    exact hw p
  · rw [hw p, ht u (Ne.symm htu), hu t htu]

theorem atomic_dequeue (h : ∀ p, w p = ofProducer p batch ++ rest p) :
    (atomicSystem P α).next w (.dequeue batch) = some rest := by
  have hoffers : w.Offers batch := fun x _ => ⟨rest x.1, (h x.1).symm⟩
  have hrest : w.dequeue batch = rest := by
    funext p
    rw [dequeue, h p, List.drop_left]
  rw [← hrest]
  exact if_pos hoffers

/-- The atomic queue follows the enqueues, and the dequeues when they are delivered. -/
theorem Merged.next (hw : q.Merged w) (halone : q.Alone a) (h : q.next a = some q') :
    ∃ w', (atomicSystem P α).exec w a.atomic.toList = some w' ∧ q'.Merged w' := by
  cases a with
  | enqueue p x =>
      obtain rfl := Option.some.inj h
      obtain ⟨t, ht, hw⟩ := hw
      refine ⟨w.enqueue p x, rfl, t, ht, fun p' => ?_⟩
      change _ = _ ++ q.waiting.enqueue p x p'
      by_cases hp : p' = p
      · subst p'
        rw [enqueue_self, enqueue_self, hw, List.append_assoc]
      · rw [enqueue_ne _ _ hp, enqueue_ne _ _ hp, hw]
  | take t part =>
      have hmine := hw.eq_append halone
      rw [BulkQueue.next] at h
      split_ifs at h with hoffers
      obtain rfl := Option.some.inj h
      refine ⟨w, rfl, t, fun u hu => ?_, fun p => ?_⟩
      · exact (Function.update_of_ne hu ..).trans (halone u hu)
      · simp only [Function.update_self]
        rw [ofProducer_append, hmine p, ← ofProducer_append_dequeue hoffers p, List.append_assoc]
  | deliver t batch =>
      rw [BulkQueue.next] at h
      split_ifs at h with hbatch
      obtain rfl := Option.some.inj h
      subst batch
      obtain ⟨u, hu, hw⟩ := hw
      by_cases hut : t = u
      · subst u
        refine ⟨q.waiting, ?_, t, fun v hv => ?_, fun p => ?_⟩
        · rw [Action.atomic, Option.toList_some, TransitionSystem.exec_cons, atomic_dequeue hw]
          rfl
        · exact (Function.update_of_ne hv ..).trans (hu v hv)
        · simp only [Function.update_self]
          rfl
      · have hnil : q.hand t = [] := hu t hut
        refine ⟨w, ?_, u, fun v hv => ?_, fun p => ?_⟩
        · have hnothing : (atomicSystem P α).next w (.dequeue []) = some w :=
            atomic_dequeue (fun _ => rfl)
          rw [Action.atomic, Option.toList_some, TransitionSystem.exec_cons, hnil, hnothing]
          rfl
        · by_cases hvt : v = t
          · subst v
            exact Function.update_self ..
          · exact (Function.update_of_ne hvt ..).trans (hu v hv)
        · simp only [Function.update_of_ne (Ne.symm hut)]
          exact hw p

end Merged
end BulkQueue
