import SocketLib.BulkQueue
import SocketLib.ConcurrentQueueClaims

/-!
# The elements of the queue

The elements that a dequeue has moved the head past are there until it has taken them, and no other
dequeue takes one of them (`Stored`). So the queue is a `BulkQueue` (`exec_bulk`): an enqueue takes
effect where it moves the tail, a dequeue takes its part of a sub-queue where it moves the head, and
gives what it has taken when it returns. If one thread at a time dequeues, the dequeues are atomic
(`refines_atomic`).
-/

namespace SocketLib.ConcurrentQueue

open TransitionSystem ThreadFamily

variable {T P α : Type*}

/-- The element with this index is the thread's to take. -/
def Point.Holds (p : P) (i : ℕ) : Point P α → Prop
  | .take q _ _ index stop => q = p ∧ index ≤ i ∧ i < stop
  | _ => False

structure Stored (s : State T P α) : Prop where
  length : ∀ p, (s.subs p).enqueued.length = (s.subs p).tailIndex
  waiting : ∀ p i, (s.subs p).headIndex ≤ i → i < (s.subs p).tailIndex →
    (s.subs p).elements i = (s.subs p).enqueued[i]?
  taking : ∀ t p i, (s.points t).Holds p i →
    i < (s.subs p).headIndex ∧ (s.subs p).elements i = (s.subs p).enqueued[i]?
  apart : ∀ t u p i, (s.points t).Holds p i → (s.points u).Holds p i → t = u
  publishing : ∀ t p y, s.points t = .enqueuePublish p y →
    (s.subs p).elements (s.subs p).tailIndex = some y
  producer : ∀ t u p, (s.points t).producer = some p → (s.points u).producer = some p → t = u

theorem stored_initial : Stored (initial T P α) where
  length _ := rfl
  waiting _ i _ hi := absurd hi (Nat.not_lt_zero i)
  taking _ _ _ h := h.elim
  apart _ _ _ _ h := h.elim
  publishing := nofun
  producer := nofun

section Steps

variable [DecidableEq T] {s : State T P α} {t u : T} {subs subs' : P → Sub α} {x x' : Point P α}
  {p : P} {i : ℕ}

theorem setPoint_cases {Q : Point P α → Prop} (h : Q ((s.setPoint t subs' x').points u)) :
    u = t ∧ Q x' ∨ u ≠ t ∧ Q (s.points u) := by
  by_cases hu : u = t
  · subst u
    rw [setPoint_self] at h
    exact Or.inl ⟨rfl, h⟩
  · rw [setPoint_ne _ _ _ hu] at h
    exact Or.inr ⟨hu, h⟩

/-- A thread that has no more in a sub-queue than it had goes on, and the elements stay. -/
theorem Stored.pass (hs : Stored s)
    (hsame : ∀ p, (subs' p).tailIndex = (s.subs p).tailIndex ∧
      (subs' p).headIndex = (s.subs p).headIndex ∧ (subs' p).elements = (s.subs p).elements ∧
      (subs' p).enqueued = (s.subs p).enqueued)
    (hholds : ∀ p i, x'.Holds p i → (s.points t).Holds p i)
    (hpublish : ∀ p y, x' = .enqueuePublish p y → s.points t = .enqueuePublish p y)
    (hproducer : ∀ p, x'.producer = some p → (s.points t).producer = some p) :
    Stored (s.setPoint t subs' x') := by
  have hold : ∀ u p i, ((s.setPoint t subs' x').points u).Holds p i →
      (s.points u).Holds p i := by
    intro u p i h
    rcases setPoint_cases h with ⟨rfl, hx⟩ | ⟨-, hx⟩
    · exact hholds p i hx
    · exact hx
  have howner : ∀ u p, ((s.setPoint t subs' x').points u).producer = some p →
      (s.points u).producer = some p := by
    intro u p h
    rcases setPoint_cases (Q := fun x => x.producer = some p) h with ⟨rfl, hx⟩ | ⟨-, hx⟩
    · exact hproducer p hx
    · exact hx
  constructor
  case length =>
    intro p
    change (subs' p).enqueued.length = (subs' p).tailIndex
    rw [(hsame p).1, (hsame p).2.2.2]
    exact hs.length p
  case waiting =>
    intro p i hhead htail
    change (subs' p).elements i = (subs' p).enqueued[i]?
    change (subs' p).headIndex ≤ i at hhead
    change i < (subs' p).tailIndex at htail
    obtain ⟨ht, hh, he, hq⟩ := hsame p
    rw [he, hq]
    exact hs.waiting p i (hh ▸ hhead) (ht ▸ htail)
  case taking =>
    intro u p i h
    change i < (subs' p).headIndex ∧ (subs' p).elements i = (subs' p).enqueued[i]?
    obtain ⟨-, hh, he, hq⟩ := hsame p
    rw [hh, he, hq]
    exact hs.taking u p i (hold u p i h)
  case apart => exact fun u v p i hu hv => hs.apart u v p i (hold u p i hu) (hold v p i hv)
  case publishing =>
    intro u p y h
    change (subs' p).elements (subs' p).tailIndex = some y
    obtain ⟨ht, -, he, -⟩ := hsame p
    rw [ht, he]
    rcases setPoint_cases (Q := fun x => x = .enqueuePublish p y) h with ⟨rfl, hx⟩ | ⟨-, hx⟩
    · exact hs.publishing u p y (hpublish p y hx)
    · exact hs.publishing u p y hx
  case producer =>
    exact fun u v p hu hv => hs.producer u v p (howner u p hu) (howner v p hv)

/-- A thread begins to enqueue for a producer that no other thread is enqueuing for. -/
theorem Stored.call {y : α} (hs : Stored s)
    (hfree : ∀ u, (s.points u).producer ≠ some p) :
    Stored (s.setPoint t s.subs (.enqueueTest p y)) := by
  constructor
  case length => exact hs.length
  case waiting => exact hs.waiting
  case taking =>
    intro u q i h
    rcases setPoint_cases h with ⟨-, h⟩ | ⟨-, h⟩
    · exact h.elim
    · exact hs.taking u q i h
  case apart =>
    intro u v q i hu hv
    rcases setPoint_cases hu with ⟨-, hu⟩ | ⟨-, hu⟩
    · exact hu.elim
    rcases setPoint_cases hv with ⟨-, hv⟩ | ⟨-, hv⟩
    · exact hv.elim
    exact hs.apart u v q i hu hv
  case publishing =>
    intro u q z h
    rcases setPoint_cases (Q := fun x => x = .enqueuePublish q z) h with ⟨-, h⟩ | ⟨-, h⟩
    · cases h
    · exact hs.publishing u q z h
  case producer =>
    intro u v q hu hv
    rcases setPoint_cases (Q := fun x => x.producer = some q) hu with ⟨hut, hu⟩ | ⟨-, hu⟩
    · rcases setPoint_cases (Q := fun x => x.producer = some q) hv with ⟨hvt, -⟩ | ⟨-, hv⟩
      · exact hut.trans hvt.symm
      · cases hu
        exact absurd hv (hfree v)
    · rcases setPoint_cases (Q := fun x => x.producer = some q) hv with ⟨-, hv⟩ | ⟨-, hv⟩
      · cases hv
        exact absurd hu (hfree u)
      · exact hs.producer u v q hu hv

/-- What a step has to see to that changes one sub-queue. -/
structure Keeps (s : State T P α) (t : T) (p : P) (sub : Sub α) (x' : Point P α) : Prop where
  length : sub.enqueued.length = sub.tailIndex
  waiting : ∀ i, sub.headIndex ≤ i → i < sub.tailIndex → sub.elements i = sub.enqueued[i]?
  mine : ∀ i, x'.Holds p i → i < sub.headIndex ∧ sub.elements i = sub.enqueued[i]?
  others : ∀ u i, u ≠ t → (s.points u).Holds p i →
    ¬ x'.Holds p i ∧ i < sub.headIndex ∧ sub.elements i = sub.enqueued[i]?
  publishing : ∀ u y, u = t ∧ x' = .enqueuePublish p y ∨
    u ≠ t ∧ s.points u = .enqueuePublish p y → sub.elements sub.tailIndex = some y
  elsewhere : ∀ q, q ≠ p → (∀ i, ¬ x'.Holds q i) ∧ ∀ y, x' ≠ .enqueuePublish q y
  producer : ∀ q, x'.producer = some q → (s.points t).producer = some q

theorem Stored.update [DecidableEq P] {sub : Sub α} (hs : Stored s) (h : Keeps s t p sub x') :
    Stored (s.setPoint t (Function.update s.subs p sub) x') := by
  have howner : ∀ u q, ((s.setPoint t (Function.update s.subs p sub) x').points u).producer =
      some q → (s.points u).producer = some q := by
    intro u q hu
    rcases setPoint_cases (Q := fun x => x.producer = some q) hu with ⟨rfl, hx⟩ | ⟨-, hx⟩
    · exact h.producer q hx
    · exact hx
  constructor
  case length =>
    intro q
    change (Function.update s.subs p sub q).enqueued.length =
      (Function.update s.subs p sub q).tailIndex
    by_cases hq : q = p
    · subst q
      rw [Function.update_self]
      exact h.length
    · rw [Function.update_of_ne hq]
      exact hs.length q
  case waiting =>
    intro q
    change ∀ i, (Function.update s.subs p sub q).headIndex ≤ i →
      i < (Function.update s.subs p sub q).tailIndex →
      (Function.update s.subs p sub q).elements i = (Function.update s.subs p sub q).enqueued[i]?
    by_cases hq : q = p
    · subst q
      rw [Function.update_self]
      exact h.waiting
    · rw [Function.update_of_ne hq]
      exact hs.waiting q
  case taking =>
    intro u q i hu
    change i < (Function.update s.subs p sub q).headIndex ∧
      (Function.update s.subs p sub q).elements i = (Function.update s.subs p sub q).enqueued[i]?
    by_cases hq : q = p
    · subst q
      rw [Function.update_self]
      rcases setPoint_cases hu with ⟨-, hx⟩ | ⟨hut, hx⟩
      · exact h.mine i hx
      · exact (h.others u i hut hx).2
    · rw [Function.update_of_ne hq]
      rcases setPoint_cases hu with ⟨-, hx⟩ | ⟨-, hx⟩
      · exact absurd hx ((h.elsewhere q hq).1 i)
      · exact hs.taking u q i hx
  case apart =>
    intro u v q i hu hv
    rcases setPoint_cases hu with ⟨hut, hx⟩ | ⟨hut, hx⟩
    · by_cases hq : q = p
      · subst q
        rcases setPoint_cases hv with ⟨hvt, -⟩ | ⟨hvt, hy⟩
        · exact hut.trans hvt.symm
        · exact absurd hx (h.others v i hvt hy).1
      · exact absurd hx ((h.elsewhere q hq).1 i)
    · rcases setPoint_cases hv with ⟨-, hy⟩ | ⟨-, hy⟩
      · by_cases hq : q = p
        · subst q
          exact absurd hy (h.others u i hut hx).1
        · exact absurd hy ((h.elsewhere q hq).1 i)
      · exact hs.apart u v q i hx hy
  case publishing =>
    intro u q y hu
    change (Function.update s.subs p sub q).elements (Function.update s.subs p sub q).tailIndex =
      some y
    have hcases := setPoint_cases (Q := fun x => x = .enqueuePublish q y) hu
    by_cases hq : q = p
    · subst q
      rw [Function.update_self]
      exact h.publishing u y hcases
    · rw [Function.update_of_ne hq]
      rcases hcases with ⟨-, hx⟩ | ⟨-, hx⟩
      · exact absurd hx ((h.elsewhere q hq).2 y)
      · exact hs.publishing u q y hx
  case producer =>
    exact fun u v q hu hv => hs.producer u v q (howner u q hu) (howner v q hv)

variable [DecidableEq P] {y : α} {max index stop actual : ℕ} {batch : List (P × α)}

theorem Stored.construct (hs : Stored s) (hx : s.points t = .enqueueConstruct p y)
    (hle : (s.subs p).headIndex ≤ (s.subs p).tailIndex) :
    Stored (s.setPoint t (Function.update s.subs p { s.subs p with
      elements := Function.update (s.subs p).elements (s.subs p).tailIndex (some y) })
      (.enqueuePublish p y)) := by
  have hsame : ∀ i, i < (s.subs p).tailIndex →
      Function.update (s.subs p).elements (s.subs p).tailIndex (some y) i =
        (s.subs p).elements i := fun i hi => Function.update_of_ne hi.ne ..
  apply hs.update
  constructor
  case length => exact hs.length p
  case waiting => exact fun i hhead htail => (hsame i htail).trans (hs.waiting p i hhead htail)
  case mine => exact fun _ h => h.elim
  case others =>
    intro u i _ hu
    obtain ⟨hi, hstored⟩ := hs.taking u p i hu
    exact ⟨id, hi, (hsame i (hi.trans_le hle)).trans hstored⟩
  case publishing =>
    rintro u z (⟨-, h⟩ | ⟨hut, h⟩)
    · cases h
      exact Function.update_self ..
    · refine absurd (hs.producer u t p ?_ ?_) hut
      · rw [h]
        rfl
      · rw [hx]
        rfl
  case elsewhere =>
    refine fun q hq => ⟨fun _ h => h.elim, fun z h => hq ?_⟩
    cases h
    rfl
  case producer =>
    intro q h
    rw [hx]
    exact h

theorem Stored.publish (hs : Stored s) (hx : s.points t = .enqueuePublish p y)
    (hle : (s.subs p).headIndex ≤ (s.subs p).tailIndex) :
    Stored (s.setPoint t (Function.update s.subs p { s.subs p with
      tailIndex := (s.subs p).tailIndex + 1, enqueued := (s.subs p).enqueued ++ [y] })
      (.enqueueReturn true)) := by
  have hsame : ∀ i, i < (s.subs p).tailIndex →
      ((s.subs p).enqueued ++ [y])[i]? = (s.subs p).enqueued[i]? :=
    fun i hi => List.getElem?_append_left (hi.trans_eq (hs.length p).symm)
  apply hs.update
  constructor
  case length => rw [List.length_append, List.length_singleton, hs.length p]
  case waiting =>
    intro i hhead htail
    rcases Nat.lt_succ_iff_lt_or_eq.mp htail with hi | rfl
    · exact (hs.waiting p i hhead hi).trans (hsame i hi).symm
    · have hlast : ((s.subs p).enqueued ++ [y])[(s.subs p).tailIndex]? = some y := by
        rw [← hs.length p, List.getElem?_concat_length]
      exact (hs.publishing t p y hx).trans hlast.symm
  case mine => exact fun _ h => h.elim
  case others =>
    intro u i _ hu
    obtain ⟨hi, hstored⟩ := hs.taking u p i hu
    exact ⟨id, hi, hstored.trans (hsame i (hi.trans_le hle)).symm⟩
  case publishing =>
    rintro u z (⟨-, h⟩ | ⟨hut, h⟩)
    · cases h
    · refine absurd (hs.producer u t p ?_ ?_) hut
      · rw [h]
        rfl
      · rw [hx]
        rfl
  case elsewhere => exact fun _ _ => ⟨fun _ h => h, nofun⟩
  case producer => nofun

/-- What a dequeue moves the head past has been waiting, and nobody else has it. -/
theorem Stored.claim (hs : Stored s)
    (hle : (s.subs p).headIndex + actual ≤ (s.subs p).tailIndex) :
    Stored (s.setPoint t (Function.update s.subs p { s.subs p with
      headIndex := (s.subs p).headIndex + actual })
      (.take p max batch (s.subs p).headIndex ((s.subs p).headIndex + actual))) := by
  apply hs.update
  constructor
  case length => exact hs.length p
  case waiting =>
    exact fun i hhead htail => hs.waiting p i ((Nat.le_add_right ..).trans hhead) htail
  case mine =>
    rintro i ⟨-, hhead, hi⟩
    exact ⟨hi, hs.waiting p i hhead (hi.trans_le hle)⟩
  case others =>
    intro u i _ hu
    obtain ⟨hi, hstored⟩ := hs.taking u p i hu
    exact ⟨fun h => absurd hi h.2.1.not_gt, hi.trans_le (Nat.le_add_right ..), hstored⟩
  case publishing =>
    rintro u z (⟨-, h⟩ | ⟨-, h⟩)
    · cases h
    · exact hs.publishing u p z h
  case elsewhere => exact fun q hq => ⟨fun _ h => hq h.1.symm, nofun⟩
  case producer => nofun

theorem Stored.take (hs : Stored s) (hx : s.points t = .take p max batch index stop)
    (hlt : index < stop) (hle : (s.subs p).headIndex ≤ (s.subs p).tailIndex) :
    Stored (s.setPoint t (Function.update s.subs p { s.subs p with
      elements := Function.update (s.subs p).elements index none })
      (.take p max (batch ++ [(p, y)]) (index + 1) stop)) := by
  have hheld : ∀ i, index ≤ i → i < stop → (s.points t).Holds p i := by
    intro i hi hi'
    rw [hx]
    exact ⟨rfl, hi, hi'⟩
  have hindex := (hs.taking t p index (hheld index le_rfl hlt)).1
  apply hs.update
  constructor
  case length => exact hs.length p
  case waiting =>
    intro i hhead htail
    exact (Function.update_of_ne (hindex.trans_le hhead).ne' ..).trans
      (hs.waiting p i hhead htail)
  case mine =>
    rintro i ⟨-, hi, hi'⟩
    obtain ⟨hhead, hstored⟩ := hs.taking t p i (hheld i (Nat.le_of_succ_le hi) hi')
    exact ⟨hhead, (Function.update_of_ne (Nat.lt_of_succ_le hi).ne' ..).trans hstored⟩
  case others =>
    intro u i hut hu
    obtain ⟨hhead, hstored⟩ := hs.taking u p i hu
    refine ⟨?_, hhead, (Function.update_of_ne ?_ ..).trans hstored⟩
    · rintro ⟨-, hi, hi'⟩
      exact hut (hs.apart u t p i hu (hheld i (Nat.le_of_succ_le hi) hi'))
    · rintro rfl
      exact hut (hs.apart u t p i hu (hheld i le_rfl hlt))
  case publishing =>
    rintro u z (⟨-, h⟩ | ⟨-, h⟩)
    · cases h
    · exact (Function.update_of_ne (hindex.trans_le hle).ne' ..).trans (hs.publishing u p z h)
  case elsewhere => exact fun q hq => ⟨fun _ h => hq h.1.symm, nofun⟩
  case producer => nofun

omit [DecidableEq T] in
theorem update_same {sub : Sub α} (h : sub.tailIndex = (subs p).tailIndex ∧
    sub.headIndex = (subs p).headIndex ∧ sub.elements = (subs p).elements ∧
    sub.enqueued = (subs p).enqueued) (q : P) :
    (Function.update subs p sub q).tailIndex = (subs q).tailIndex ∧
      (Function.update subs p sub q).headIndex = (subs q).headIndex ∧
      (Function.update subs p sub q).elements = (subs q).elements ∧
      (Function.update subs p sub q).enqueued = (subs q).enqueued := by
  by_cases hq : q = p
  · subst q
    rwa [Function.update_self]
  · rw [Function.update_of_ne hq]
    exact ⟨rfl, rfl, rfl, rfl⟩

theorem Moves.stored (h : Moves s.subs x subs' x') (hx : s.points t = x) (hs : Stored s)
    (hle : ∀ p, (s.subs p).headIndex ≤ (s.subs p).tailIndex)
    (hle' : ∀ p, (subs' p).headIndex ≤ (subs' p).tailIndex) :
    Stored (s.setPoint t subs' x') := by
  have hsame : ∀ p, (s.subs p).tailIndex = (s.subs p).tailIndex ∧
      (s.subs p).headIndex = (s.subs p).headIndex ∧ (s.subs p).elements = (s.subs p).elements ∧
      (s.subs p).enqueued = (s.subs p).enqueued := fun _ => ⟨rfl, rfl, rfl, rfl⟩
  cases h with
  | test p y =>
      refine hs.pass hsame (fun _ _ h => h.elim) nofun (fun q h => ?_)
      rw [hx]
      exact h
  | construct p y => exact hs.construct hx (hle p)
  | publish p y => exact hs.publish hx (hle p)
  | claim p max batch actual =>
      have hroom := hle' p
      rw [Function.update_self] at hroom
      exact hs.claim hroom
  | take p max batch index stop y hlt _ => exact hs.take hx hlt (hle p)
  | add | addSurplus | giveBack =>
      exact hs.pass (update_same ⟨rfl, rfl, rfl, rfl⟩) (fun _ _ h => h.elim) nofun nofun
  | _ => exact hs.pass hsame (fun _ _ h => h.elim) nofun nofun

variable [Fintype T] {a : Label T P α}

theorem Stored.next (hs : Stored s) (hle : ∀ p, (s.subs p).headIndex ≤ (s.subs p).tailIndex)
    {s' : State T P α} (hle' : ∀ p, (s'.subs p).headIndex ≤ (s'.subs p).tailIndex)
    (h : next s a = some s') : Stored s' := by
  rcases next_cases h with ⟨t, x, rfl, hx⟩ | ⟨t, choice, subs', x, rfl, hact, rfl⟩
  · rcases hx with ⟨p, y, -, -, hfree, rfl⟩ | ⟨max, -, -, -, rfl⟩ | ⟨-, -, rfl⟩
    · exact hs.call hfree
    · exact hs.pass (fun _ => ⟨rfl, rfl, rfl, rfl⟩) (fun _ _ h => h.elim) nofun nofun
    · exact hs.pass (fun _ => ⟨rfl, rfl, rfl, rfl⟩) (fun _ _ h => h.elim) nofun nofun
  · exact (moves_of_act hact).stored rfl hs hle hle'

theorem head_le_tail (h : (system T P α).ReachedBy InRange s) (p : P) :
    (s.subs p).headIndex ≤ (s.subs p).tailIndex :=
  (Nat.le_add_right ..).trans (claimed_le h p)

theorem stored_of_reachedBy (h : (system T P α).ReachedBy InRange s) : Stored s := by
  have hboth : (system T P α).ReachedBy InRange s ∧ Stored s := by
    induction h with
    | start => exact ⟨.start, stored_initial⟩
    | step hr ha hnext ih =>
        have hr' := hr.step ha hnext
        exact ⟨hr', ih.2.next (head_le_tail hr) (head_le_tail hr') hnext⟩
  exact hboth.2

/-- A dequeue finds every element that it has moved the head past, as it was enqueued. -/
theorem take_ready {t : T} {p : P} {max index stop : ℕ} {batch : List (P × α)}
    (h : (system T P α).ReachedBy InRange s) (hx : s.points t = .take p max batch index stop)
    (hlt : index < stop) :
    ∃ y, (s.subs p).enqueued[index]? = some y ∧ (s.subs p).elements index = some y := by
  have hs := stored_of_reachedBy h
  have hheld : (s.points t).Holds p index := by
    rw [hx]
    exact ⟨rfl, le_rfl, hlt⟩
  obtain ⟨hhead, hstored⟩ := hs.taking t p index hheld
  have hlength : index < (s.subs p).enqueued.length :=
    (hhead.trans_le (head_le_tail h p)).trans_eq (hs.length p).symm
  have hy : (s.subs p).enqueued[index]? = some (s.subs p).enqueued[index] :=
    List.getElem?_eq_getElem hlength
  exact ⟨_, hy, hstored.trans hy⟩

end Steps

/-! ### The bulk queue -/

/-- What a thread has taken since its call, or is going to take. -/
def Point.hand (subs : P → Sub α) : Point P α → List (P × α)
  | .dequeueReturn batch | .nextProducer _ batch | .loadTail _ _ batch
  | .loadOvercommit _ _ batch _ | .loadCount _ _ batch _ _ | .addCount _ _ batch _ _
  | .reloadTail _ _ batch _ _ _ | .addSurplus _ _ batch _ _ | .claim _ _ batch _
  | .giveBack _ _ batch _ => batch
  | .take p _ batch index stop =>
      batch ++ (((subs p).enqueued.drop index).take (stop - index)).map (Prod.mk p)
  | _ => []

def waiting (subs : P → Sub α) : ProducerQueue P α :=
  fun p => (subs p).enqueued.drop (subs p).headIndex

def State.bulk (s : State T P α) : BulkQueue T P α where
  waiting := waiting s.subs
  hand t := (s.points t).hand s.subs

/-- The elements that a dequeue moves the head past. -/
def part (subs : P → Sub α) (p : P) (actual : ℕ) : List (P × α) :=
  (((subs p).enqueued.drop (subs p).headIndex).take actual).map (Prod.mk p)

/-- What a step does to the bulk queue. -/
def observe (s : State T P α) : Label T P α → Option (BulkQueue.Action T P α)
  | .run t _ => match s.points t with
    | .enqueuePublish p x => some (.enqueue p x)
    | .claim p _ _ actual => some (.take t (part s.subs p actual))
    | _ => none
  | .ret t => match s.points t with
    | .dequeueReturn batch => some (.deliver t batch)
    | _ => none
  | _ => none

section Bulk

open ProducerQueue

variable [DecidableEq T] {s s' : State T P α} {t : T} {subs' : P → Sub α} {x x' : Point P α}
  {p : P}

theorem bulk_setPoint (s : State T P α) (t : T) (subs' : P → Sub α) (x' : Point P α) :
    (s.setPoint t subs' x').bulk =
      { waiting := waiting subs'
        hand := Function.update (fun u => (s.points u).hand subs') t (x'.hand subs') } := by
  refine BulkQueue.ext rfl (funext fun u => ?_)
  change ((s.setPoint t subs' x').points u).hand subs' =
    Function.update (fun u => (s.points u).hand subs') t (x'.hand subs') u
  by_cases hu : u = t
  · subst u
    rw [setPoint_self, Function.update_self]
  · rw [setPoint_ne _ _ _ hu, Function.update_of_ne hu]

omit [DecidableEq T] in
theorem hand_congr {subs : P → Sub α} (h : ∀ p, (subs' p).enqueued = (subs p).enqueued)
    (x : Point P α) : x.hand subs' = x.hand subs := by
  cases x with
  | take p max batch index stop => rw [Point.hand, Point.hand, h p]
  | _ => rfl

theorem bulk_eq (hsame : ∀ p, (subs' p).headIndex = (s.subs p).headIndex ∧
      (subs' p).enqueued = (s.subs p).enqueued)
    (hhand : x'.hand s.subs = (s.points t).hand s.subs) :
    (s.setPoint t subs' x').bulk = s.bulk := by
  have hself : Function.update s.bulk.hand t (s.bulk.hand t) = s.bulk.hand :=
    Function.update_eq_self ..
  rw [bulk_setPoint]
  refine BulkQueue.ext (funext fun p => ?_) ?_
  · change waiting subs' p = waiting s.subs p
    rw [waiting, waiting, (hsame p).1, (hsame p).2]
  · simp only [hand_congr (fun p => (hsame p).2), hhand]
    exact hself

omit [DecidableEq T] in
/-- An element behind the others changes nothing of those that a thread has. -/
theorem hand_publish [DecidableEq P] {subs : P → Sub α} {sub : Sub α} {y : α}
    (hsub : sub.enqueued = (subs p).enqueued ++ [y])
    (hx : ∀ i, x.Holds p i → i < (subs p).enqueued.length) :
    x.hand (Function.update subs p sub) = x.hand subs := by
  cases x with
  | take q max batch index stop =>
      rw [Point.hand, Point.hand]
      by_cases hq : q = p
      · subst q
        rw [Function.update_self, hsub]
        rcases Nat.lt_or_ge index stop with hlt | hge
        · have hlast := hx (stop - 1) ⟨rfl, Nat.le_sub_one_of_lt hlt, by omega⟩
          rw [List.drop_append_of_le_length (by omega),
            List.take_append_of_le_length (by rw [List.length_drop]; omega)]
        · rw [Nat.sub_eq_zero_of_le hge, List.take_zero, List.take_zero]
      · rw [Function.update_of_ne hq]
  | _ => rfl

omit [DecidableEq T] in
theorem hand_take {subs : P → Sub α} {max index stop : ℕ} {batch : List (P × α)} {y : α}
    (hlt : index < stop) (hy : (subs p).enqueued[index]? = some y) :
    (Point.take p max (batch ++ [(p, y)]) (index + 1) stop).hand subs =
      (Point.take p max batch index stop).hand subs := by
  obtain ⟨hlength, hget⟩ := List.getElem?_eq_some_iff.mp hy
  have hone : stop - index = stop - (index + 1) + 1 := by omega
  rw [Point.hand, Point.hand, List.drop_eq_getElem_cons hlength, hget, hone, List.take_succ_cons,
    List.map_cons, List.append_assoc]
  rfl

/-- An enqueue takes effect where it moves the tail. -/
theorem bulk_publish [DecidableEq P] {y : α} (hs : Stored s)
    (hx : s.points t = .enqueuePublish p y)
    (hle : ∀ p, (s.subs p).headIndex ≤ (s.subs p).tailIndex) :
    s.bulk.next (.enqueue p y) = some (s.setPoint t (Function.update s.subs p { s.subs p with
      tailIndex := (s.subs p).tailIndex + 1, enqueued := (s.subs p).enqueued ++ [y] })
      (.enqueueReturn true)).bulk := by
  rw [bulk_setPoint, BulkQueue.next, Option.some.injEq]
  refine BulkQueue.ext (funext fun q => ?_) (funext fun u => ?_)
  · change s.bulk.waiting.enqueue p y q = waiting _ q
    rw [waiting]
    by_cases hq : q = p
    · subst q
      rw [enqueue_self, Function.update_self]
      exact (List.drop_append_of_le_length ((hle _).trans_eq (hs.length _).symm)).symm
    · rw [enqueue_ne _ _ hq, Function.update_of_ne hq]
      rfl
  · by_cases hu : u = t
    · subst u
      simp only [Function.update_self]
      change (s.points t).hand s.subs = []
      rw [hx]
      rfl
    · simp only [Function.update_of_ne hu]
      refine (hand_publish rfl (fun i hi => ?_)).symm
      exact ((hs.taking u p i hi).1.trans_le (hle p)).trans_eq (hs.length p).symm

/-- A dequeue takes its part of a sub-queue where it moves the head. -/
theorem bulk_claim [DecidableEq P] {max actual : ℕ} {batch : List (P × α)} (hs : Stored s)
    (hx : s.points t = .claim p max batch actual)
    (hle : (s.subs p).headIndex + actual ≤ (s.subs p).tailIndex) :
    s.bulk.next (.take t (part s.subs p actual)) =
      some (s.setPoint t (Function.update s.subs p { s.subs p with
        headIndex := (s.subs p).headIndex + actual })
        (.take p max batch (s.subs p).headIndex ((s.subs p).headIndex + actual))).bulk := by
  have hlength : (((s.subs p).enqueued.drop (s.subs p).headIndex).take actual).length = actual := by
    rw [List.length_take, List.length_drop, hs.length p]
    omega
  have hoffers : s.bulk.waiting.Offers (part s.subs p actual) := by
    intro z hz
    obtain ⟨y, -, rfl⟩ := List.mem_map.mp hz
    rw [part, ofProducer_map_self]
    exact List.take_prefix ..
  have hsame : ∀ q, (Function.update s.subs p { s.subs p with
      headIndex := (s.subs p).headIndex + actual } q).enqueued = (s.subs q).enqueued := by
    intro q
    by_cases hq : q = p
    · subst q
      rw [Function.update_self]
    · rw [Function.update_of_ne hq]
  rw [bulk_setPoint, BulkQueue.next, if_pos hoffers, Option.some.injEq]
  refine BulkQueue.ext (funext fun q => ?_) ?_
  · change s.bulk.waiting.dequeue _ q = waiting _ q
    rw [dequeue, part, waiting, hsame q]
    by_cases hq : q = p
    · subst q
      rw [ofProducer_map_self, hlength, Function.update_self]
      exact List.drop_drop ..
    · rw [ofProducer_map_ne (Ne.symm hq), Function.update_of_ne hq]
      rfl
  · simp only [hand_congr hsame]
    change Function.update s.bulk.hand t ((s.points t).hand s.subs ++ _) = _
    rw [hx, Point.hand, Point.hand, Nat.add_sub_cancel_left]
    rfl

theorem Moves.bulk [DecidableEq P] (h : Moves s.subs x subs' x') (hx : s.points t = x)
    (hs : Stored s) (hle : ∀ p, (s.subs p).headIndex ≤ (s.subs p).tailIndex)
    (hle' : ∀ p, (subs' p).headIndex ≤ (subs' p).tailIndex) (choice : Choice P) :
    (BulkQueue.system T P α).exec s.bulk (observe s (.run t choice)).toList =
      some (s.setPoint t subs' x').bulk := by
  have hsame : ∀ p, (s.subs p).headIndex = (s.subs p).headIndex ∧
      (s.subs p).enqueued = (s.subs p).enqueued := fun _ => ⟨rfl, rfl⟩
  have hcontents : ∀ {sub : Sub α} {p : P}, sub.headIndex = (s.subs p).headIndex →
      sub.enqueued = (s.subs p).enqueued → ∀ q,
      (Function.update s.subs p sub q).headIndex = (s.subs q).headIndex ∧
        (Function.update s.subs p sub q).enqueued = (s.subs q).enqueued := by
    intro sub p hhead henqueued q
    by_cases hq : q = p
    · subst q
      rw [Function.update_self]
      exact ⟨hhead, henqueued⟩
    · rw [Function.update_of_ne hq]
      exact ⟨rfl, rfl⟩
  simp only [observe, hx]
  cases h with
  | publish p y => exact (exec_singleton ..).trans (bulk_publish hs hx hle)
  | claim p max batch actual =>
      have hroom := hle' p
      rw [Function.update_self] at hroom
      exact (exec_singleton ..).trans (bulk_claim hs hx hroom)
  | take p max batch index stop y hlt hy =>
      have hheld : (s.points t).Holds p index := by
        rw [hx]
        exact ⟨rfl, le_rfl, hlt⟩
      have henqueued := (hs.taking t p index hheld).2.symm.trans hy
      refine congrArg some (bulk_eq ?_ ?_).symm
      · exact hcontents rfl rfl
      · rw [hx]
        exact hand_take hlt henqueued
  | leave p max batch index stop hge =>
      have hnil : (Point.take p max batch index stop).hand s.subs = batch := by
        rw [Point.hand, Nat.sub_eq_zero_of_le (not_lt.mp hge), List.take_zero]
        exact List.append_nil _
      refine congrArg some (bulk_eq hsame ?_).symm
      rw [hx, hnil]
      rfl
  | construct | add | addSurplus | giveBack =>
      refine congrArg some (bulk_eq ?_ ?_).symm
      · exact hcontents rfl rfl
      · rw [hx]
        rfl
  | _ =>
      refine congrArg some (bulk_eq hsame ?_).symm
      rw [hx]
      rfl

variable [DecidableEq P] [Fintype T] {a : Label T P α}

theorem next_bulk (hs : Stored s) (hle : ∀ p, (s.subs p).headIndex ≤ (s.subs p).tailIndex)
    (hle' : ∀ p, (s'.subs p).headIndex ≤ (s'.subs p).tailIndex) (h : next s a = some s') :
    (BulkQueue.system T P α).exec s.bulk (observe s a).toList = some s'.bulk := by
  rcases next_cases h with ⟨t, x, rfl, hx⟩ | ⟨t, choice, subs', x, rfl, hact, rfl⟩
  · have hsame : ∀ p, (s.subs p).headIndex = (s.subs p).headIndex ∧
        (s.subs p).enqueued = (s.subs p).enqueued := fun _ => ⟨rfl, rfl⟩
    rcases hx with ⟨p, y, rfl, hout, -, rfl⟩ | ⟨max, rfl, hout, -, rfl⟩ | ⟨rfl, hret, rfl⟩
    · refine congrArg some (bulk_eq hsame ?_).symm
      rw [hout]
      rfl
    · refine congrArg some (bulk_eq hsame ?_).symm
      rw [hout]
      rfl
    · rcases hret with ⟨ok, hret⟩ | ⟨batch, hret⟩
      · simp only [observe, hret]
        refine congrArg some (bulk_eq hsame ?_).symm
        rw [hret]
        rfl
      · have hhand : s.bulk.hand t = batch := by
          change (s.points t).hand s.subs = batch
          rw [hret]
          rfl
        simp only [observe, hret]
        refine (exec_singleton ..).trans ?_
        rw [bulk_setPoint]
        exact if_pos hhand
  · exact (moves_of_act hact).bulk rfl hs hle hle' choice

/-- The code follows the bulk queue, whatever the order of the steps. -/
theorem exec_bulk {as : List (Label T P α)}
    (hrange : (system T P α).Along InRange (initial T P α) as)
    (h : (system T P α).exec (initial T P α) as = some s) :
    (BulkQueue.system T P α).exec (BulkQueue.system T P α).start
      ((system T P α).trace observe (initial T P α) as) = some s.bulk := by
  have hstep : ∀ (s : State T P α) a s' q, (system T P α).ReachedBy InRange s ∧ q = s.bulk →
      InRange s a → next s a = some s' →
      ∃ q', (BulkQueue.system T P α).exec q (observe s a).toList = some q' ∧
        (system T P α).ReachedBy InRange s' ∧ q' = s'.bulk := by
    rintro s a s' q ⟨hr, rfl⟩ ha hnext
    have hr' : (system T P α).ReachedBy InRange s' := hr.step ha hnext
    exact ⟨s'.bulk, next_bulk (stored_of_reachedBy hr) (head_le_tail hr) (head_le_tail hr') hnext,
      hr', rfl⟩
  obtain ⟨q, hq, -, rfl⟩ := exec_trace
    (R := fun s q => (system T P α).ReachedBy InRange s ∧ q = s.bulk) hstep ⟨.start, rfl⟩ hrange h
  exact hq

/-- What the producers have enqueued is what the dequeues have taken, in order, and what waits; and
each element taken is with one thread, once, which is given it or has it in hand. -/
theorem elements_once [DecidableEq α] {as : List (Label T P α)}
    (hrange : (system T P α).Along InRange (initial T P α) as)
    (h : (system T P α).exec (initial T P α) as = some s) :
    (∀ p, BulkQueue.enqueuedOf p ((system T P α).trace observe (initial T P α) as) =
      ofProducer p (BulkQueue.taken ((system T P α).trace observe (initial T P α) as)) ++
        (s.subs p).enqueued.drop (s.subs p).headIndex) ∧
    (∀ z : P × α, (BulkQueue.taken ((system T P α).trace observe (initial T P α) as)).count z =
      ∑ t, (BulkQueue.takenBy t ((system T P α).trace observe (initial T P α) as)).count z) ∧
    ∀ t, (BulkQueue.takenBy t ((system T P α).trace observe (initial T P α) as)).Sublist
        (BulkQueue.taken ((system T P α).trace observe (initial T P α) as)) ∧
      BulkQueue.takenBy t ((system T P α).trace observe (initial T P α) as) =
        BulkQueue.deliveredTo t ((system T P α).trace observe (initial T P α) as) ++
          (s.points t).hand s.subs := by
  have hexec := exec_bulk hrange h
  exact ⟨BulkQueue.enqueuedOf_eq hexec, fun z => BulkQueue.count_taken z _,
    fun t => ⟨BulkQueue.takenBy_sublist t _, BulkQueue.takenBy_eq hexec t⟩⟩

/-- The second element is enqueued behind the back of a dequeue, which takes the first. -/
def enqueueDuringDequeue (t u : T) (p : P) : List (Label T P ℕ) :=
  [.enqueue t p 7, .run t (.block true), .run t .go, .run t .go, .ret t, .enqueue t p 8,
    .run t .go, .tryDequeueBulk u 5, .run u (.visit p), .run u .go, .run u .go, .run u .go,
    .run t .go, .run u .go, .run u .go, .run t .go, .run u .go, .run u .go, .run u .go,
    .run u .finish, .ret u]

theorem elements_once_enqueueDuringDequeue :
    ∃ s : State (Fin 2) (Fin 2) ℕ,
      (system (Fin 2) (Fin 2) ℕ).exec (initial (Fin 2) (Fin 2) ℕ)
        (enqueueDuringDequeue 0 1 0) = some s ∧
      (s.subs 0).enqueued.drop (s.subs 0).headIndex = [8] ∧
      ∀ p, BulkQueue.enqueuedOf p ((system (Fin 2) (Fin 2) ℕ).trace observe
          (initial (Fin 2) (Fin 2) ℕ) (enqueueDuringDequeue 0 1 0)) =
        ofProducer p (BulkQueue.taken ((system (Fin 2) (Fin 2) ℕ).trace observe
          (initial (Fin 2) (Fin 2) ℕ) (enqueueDuringDequeue 0 1 0))) ++
          (s.subs p).enqueued.drop (s.subs p).headIndex := by
  have hrun : ((system (Fin 2) (Fin 2) ℕ).execWhile InRange (initial (Fin 2) (Fin 2) ℕ)
      (enqueueDuringDequeue 0 1 0)).any
      (fun s => (s.subs 0).enqueued.drop (s.subs 0).headIndex = [8]) = true := by decide
  obtain ⟨s, hexec, hrange, hrest⟩ := exists_exec_of_execWhile hrun
  exact ⟨s, hexec, of_decide_eq_true hrest, (elements_once hrange hexec).1⟩

end Bulk

/-! ### One consumer at a time -/

def Point.dequeuing : Point P α → Bool
  | .outside | .enqueueReturn _ | .enqueueTest _ _ | .enqueueConstruct _ _
  | .enqueuePublish _ _ => false
  | _ => true

/-- A thread begins to dequeue when no other is dequeuing. -/
def OneConsumer (s : State T P α) : Label T P α → Prop
  | .tryDequeueBulk _ _ => ∀ u, (s.points u).dequeuing = false
  | _ => True

instance [Fintype T] (s : State T P α) : (a : Label T P α) → Decidable (OneConsumer s a)
  | .tryDequeueBulk _ _ => inferInstanceAs (Decidable (∀ u, (s.points u).dequeuing = false))
  | .enqueue _ _ _ => instDecidableTrue
  | .run _ _ => instDecidableTrue
  | .ret _ => instDecidableTrue

/-- The enqueues where they take effect, and the dequeues where they return. -/
def observeAtomic (s : State T P α) (a : Label T P α) : Option (BulkQueue.Atomic P α) :=
  (observe s a).bind BulkQueue.Action.atomic

section Atomic

variable {s s' : State T P α} {t : T} {subs' : P → Sub α} {x x' : Point P α} {a : Label T P α}

theorem Moves.dequeuing [DecidableEq P] {subs : P → Sub α} (h : Moves subs x subs' x') :
    x'.dequeuing = true → x.dequeuing = true := by
  cases h <;> exact id

theorem hand_eq_nil {subs : P → Sub α} (h : x.dequeuing = false) : x.hand subs = [] := by
  cases x <;> first | rfl | cases h

variable [DecidableEq T] [DecidableEq P] [Fintype T]

theorem oneConsumer_next (hs : ∀ t u, (s.points t).dequeuing = true →
      (s.points u).dequeuing = true → t = u)
    (hone : OneConsumer s a) (h : next s a = some s') :
    ∀ t u, (s'.points t).dequeuing = true → (s'.points u).dequeuing = true → t = u := by
  have hpass : ∀ {t : T} {subs' : P → Sub α} {x' : Point P α},
      (x'.dequeuing = true → (s.points t).dequeuing = true) → ∀ u,
      ((s.setPoint t subs' x').points u).dequeuing = true → (s.points u).dequeuing = true := by
    intro t subs' x' hx u hu
    rcases setPoint_cases (Q := fun x => x.dequeuing = true) hu with ⟨rfl, hy⟩ | ⟨-, hy⟩
    · exact hx hy
    · exact hy
  have houtside : ∀ {Q : Prop}, false = true → Q := fun h => absurd h Bool.false_ne_true
  rcases next_cases h with ⟨t, x, rfl, hx⟩ | ⟨t, choice, subs', x, rfl, hact, rfl⟩
  · rcases hx with ⟨p, y, -, -, -, rfl⟩ | ⟨max, rfl, -, -, rfl⟩ | ⟨-, -, rfl⟩
    · exact fun u v hu hv => hs u v (hpass houtside u hu) (hpass houtside v hv)
    · have honly : ∀ u, ((s.setPoint t s.subs (.nextProducer max [])).points u).dequeuing = true →
          u = t := by
        intro u hu
        rcases setPoint_cases (Q := fun x => x.dequeuing = true) hu with ⟨hut, -⟩ | ⟨-, hy⟩
        · exact hut
        · rw [hone u] at hy
          cases hy
      exact fun u v hu hv => (honly u hu).trans (honly v hv).symm
    · exact fun u v hu hv => hs u v (hpass houtside u hu) (hpass houtside v hv)
  · have hmoves := (moves_of_act hact).dequeuing
    exact fun u v hu hv => hs u v (hpass hmoves u hu) (hpass hmoves v hv)

omit [DecidableEq T] [DecidableEq P] [Fintype T] in
/-- Whoever takes is dequeuing. -/
theorem alone_of_observe (hs : ∀ t u, (s.points t).dequeuing = true →
      (s.points u).dequeuing = true → t = u) {b : BulkQueue.Action T P α}
    (hb : observe s a = some b) : s.bulk.Alone b := by
  cases b with
  | take t batch =>
      intro u hu
      apply hand_eq_nil
      have ht : (s.points t).dequeuing = true := by
        cases a with
        | run v choice =>
            cases hv : s.points v <;> simp only [observe, hv, reduceCtorEq] at hb
            case enqueuePublish => cases hb
            case claim =>
              obtain ⟨rfl, -⟩ := BulkQueue.Action.take.inj (Option.some.inj hb)
              rw [hv]
              rfl
        | ret v =>
            cases hv : s.points v <;> simp only [observe, hv, reduceCtorEq] at hb
            cases hb
        | _ => cases hb
      by_contra hdequeuing
      exact hu (hs u t (by simpa using hdequeuing) ht)
  | _ => trivial

/-- With one consumer at a time, the enqueues and the results of the dequeues are those of a queue
whose dequeues take one step. What a dequeue has in hand waits there. -/
theorem refines_atomic [Nonempty T] {as : List (Label T P α)}
    (hrun : (system T P α).Along (fun s a => InRange s a ∧ OneConsumer s a) (initial T P α) as)
    (h : (system T P α).exec (initial T P α) as = some s) :
    ∃ w, (BulkQueue.atomicSystem P α).exec (BulkQueue.atomicSystem P α).start
        ((system T P α).trace observeAtomic (initial T P α) as) = some w ∧ s.bulk.Merged w := by
  have hstep : ∀ (s : State T P α) a s' w,
      ((system T P α).ReachedBy InRange s ∧ (∀ t u, (s.points t).dequeuing = true →
        (s.points u).dequeuing = true → t = u) ∧ s.bulk.Merged w) →
      InRange s a ∧ OneConsumer s a → next s a = some s' →
      ∃ w', (BulkQueue.atomicSystem P α).exec w (observeAtomic s a).toList = some w' ∧
        (system T P α).ReachedBy InRange s' ∧ (∀ t u, (s'.points t).dequeuing = true →
        (s'.points u).dequeuing = true → t = u) ∧ s'.bulk.Merged w' := by
    rintro s a s' w ⟨hr, hone, hw⟩ ⟨hrange, halone⟩ hnext
    have hr' : (system T P α).ReachedBy InRange s' := hr.step hrange hnext
    have hbulk := next_bulk (stored_of_reachedBy hr) (head_le_tail hr) (head_le_tail hr') hnext
    have hmerged : ∃ w', (BulkQueue.atomicSystem P α).exec w (observeAtomic s a).toList = some w' ∧
        s'.bulk.Merged w' := by
      rw [observeAtomic]
      cases hb : observe s a with
      | none =>
          rw [hb] at hbulk
          have hsame : s.bulk = s'.bulk := Option.some.inj hbulk
          exact ⟨w, rfl, hsame ▸ hw⟩
      | some b =>
          rw [hb, Option.toList_some, exec_singleton] at hbulk
          exact hw.next (alone_of_observe hone hb) hbulk
    obtain ⟨w', hexec, hw'⟩ := hmerged
    exact ⟨w', hexec, hr', oneConsumer_next hone halone hnext, hw'⟩
  have hstart : (initial T P α).bulk.Merged (BulkQueue.atomicSystem P α).start := by
    obtain ⟨t⟩ := ‹Nonempty T›
    exact ⟨t, fun _ _ => rfl, fun _ => rfl⟩
  obtain ⟨w, hexec, -, -, hw⟩ := exec_trace (R := fun s w => (system T P α).ReachedBy InRange s ∧
    (∀ t u, (s.points t).dequeuing = true → (s.points u).dequeuing = true → t = u) ∧
    s.bulk.Merged w) hstep ⟨.start, fun _ _ h => absurd h Bool.false_ne_true, hstart⟩ hrun h
  exact ⟨w, hexec, hw⟩

theorem refines_atomic_enqueueDuringDequeue :
    ∃ (s : State (Fin 2) (Fin 2) ℕ) (w : ProducerQueue (Fin 2) ℕ),
      (system (Fin 2) (Fin 2) ℕ).exec (initial (Fin 2) (Fin 2) ℕ)
        (enqueueDuringDequeue 0 1 0) = some s ∧
      (BulkQueue.atomicSystem (Fin 2) ℕ).exec (BulkQueue.atomicSystem (Fin 2) ℕ).start
        ((system (Fin 2) (Fin 2) ℕ).trace observeAtomic (initial (Fin 2) (Fin 2) ℕ)
          (enqueueDuringDequeue 0 1 0)) = some w ∧ s.bulk.Merged w := by
  have hrun : ((system (Fin 2) (Fin 2) ℕ).execWhile (fun s a => InRange s a ∧ OneConsumer s a)
      (initial (Fin 2) (Fin 2) ℕ) (enqueueDuringDequeue 0 1 0)).any (fun _ => true) = true := by
    decide
  obtain ⟨s, hexec, hguard, -⟩ := exists_exec_of_execWhile hrun
  obtain ⟨w, hw, hmerged⟩ := refines_atomic hguard hexec
  exact ⟨s, w, hexec, hw, hmerged⟩

end Atomic
end SocketLib.ConcurrentQueue
