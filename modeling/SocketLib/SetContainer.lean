import Mathlib.Data.Finset.Card
import Mathlib.Data.Finset.Filter
import Mathlib.Data.List.Pairwise
import Mathlib.Data.Finset.Erase
import Mathlib.Data.Finset.Insert

/-!
# Set containers and the keys that tell their elements apart

A set container takes an element in unless it finds one that it holds for the same, and removes what
it finds. A tree (`ordered`) compares and takes for the same what is less neither way; a hash table
(`hashed`) takes for the same what has an equal hash and is equal. What the container should hold is
a finite set of keys, one element for each (`Holds`).

A hash table keeps to the set of keys when equality of elements is equality of their keys and the
hash respects it. A tree does so just as long as it compares equal only what has equal keys.
-/

/-- The elements are kept in the order in which an iterator visits them. -/
structure SetContainer (α : Type*) where
  emplace : List α → α → List α
  erase : List α → α → List α

namespace SetContainer

variable {α κ ι η : Type*}

def orderedEmplace (lt : α → α → Bool) (x : α) : List α → List α
  | [] => [x]
  | y :: ys =>
      if lt x y then x :: y :: ys
      else if lt y x then y :: orderedEmplace lt x ys
      else y :: ys

def orderedErase (lt : α → α → Bool) (x : α) : List α → List α
  | [] => []
  | y :: ys =>
      if lt x y then y :: ys
      else if lt y x then y :: orderedErase lt x ys
      else ys

/-- A search tree. -/
def ordered (lt : α → α → Bool) : SetContainer α where
  emplace xs x := orderedEmplace lt x xs
  erase xs x := orderedErase lt x xs

/-- A hash table. A new element may come to stand anywhere; here it is the first. -/
def hashed [DecidableEq η] (hash : α → η) (eq : α → α → Bool) : SetContainer α where
  emplace xs x := if xs.any (fun y => hash y = hash x && eq y x) then xs else x :: xs
  erase xs x := xs.eraseP (fun y => hash y = hash x && eq y x)

/-! ### Elements and keys -/

/-- The elements are one for each of the keys. -/
def Holds (key : α → κ) (xs : List α) (S : Finset κ) : Prop := (↑(xs.map key) : Multiset κ) = S.val

section Holds

variable {key : α → κ} {xs ys : List α} {S T : Finset κ} {x : α} {k : κ}

theorem holds_nil : Holds key [] ∅ := rfl

theorem Holds.mem_iff (h : Holds key xs S) : k ∈ S ↔ ∃ x ∈ xs, key x = k := by
  rw [← Finset.mem_val, ← show _ = S.val from h, Multiset.mem_coe, List.mem_map]

theorem Holds.length_eq (h : Holds key xs S) : xs.length = S.card := by
  rw [Finset.card_def, ← show _ = S.val from h, Multiset.coe_card, List.length_map]

theorem Holds.unique (h : Holds key xs S) (h' : Holds key xs T) : S = T :=
  Finset.val_injective ((show _ = S.val from h).symm.trans h')

theorem Holds.perm (h : Holds key xs S) (hperm : xs.Perm ys) : Holds key ys S :=
  (Multiset.coe_eq_coe.mpr (hperm.map key)).symm.trans h

theorem Holds.filter [DecidableEq κ] (h : Holds key xs S) (p : κ → Prop) [DecidablePred p] :
    Holds key (xs.filter fun x => p (key x)) (S.filter p) := by
  rw [Holds, Finset.filter_val, ← show _ = S.val from h, Multiset.filter_coe, List.filter_map]
  rfl

variable [DecidableEq κ]

theorem Holds.cons (h : Holds key xs S) (hx : key x ∉ S) :
    Holds key (x :: xs) (insert (key x) S) := by
  rw [Holds, Finset.insert_val_of_notMem hx, ← show _ = S.val from h]
  rfl

theorem Holds.insert_of_mem (h : Holds key xs S) (hx : key x ∈ S) :
    Holds key xs (insert (key x) S) := by rwa [Finset.insert_eq_of_mem hx]

end Holds

/-! ### Hash tables -/

section Hashed

variable [DecidableEq κ] [DecidableEq η] {hash : α → η} {eq : α → α → Bool} {key : α → κ}
  {xs : List α} {S : Finset κ}

/-- Where equality goes by the keys and the hash respects it, so does the search. -/
theorem hashed_found (heq : ∀ x y, eq x y = true ↔ key x = key y)
    (hhash : ∀ x y, key x = key y → hash x = hash y) (x y : α) :
    (decide (hash y = hash x) && eq y x) = decide (key y = key x) := by
  by_cases hkey : key y = key x
  · rw [decide_eq_true (hhash y x hkey), (heq y x).mpr hkey, decide_eq_true hkey]
    rfl
  · rw [Bool.eq_false_iff.mpr (mt (heq y x).mp hkey), Bool.and_false, decide_eq_false hkey]

theorem hashed_emplace_holds (heq : ∀ x y, eq x y = true ↔ key x = key y)
    (hhash : ∀ x y, key x = key y → hash x = hash y) (h : Holds key xs S) (x : α) :
    Holds key ((hashed hash eq).emplace xs x) (insert (key x) S) := by
  have hany : xs.any (fun y => decide (hash y = hash x) && eq y x) = true ↔ key x ∈ S := by
    simp only [hashed_found heq hhash, List.any_eq_true, decide_eq_true_eq, h.mem_iff]
  rw [hashed]
  by_cases hx : key x ∈ S
  · simpa only [if_pos (hany.mpr hx)] using h.insert_of_mem hx
  · simpa only [if_neg (mt hany.mp hx)] using h.cons hx

theorem hashed_erase_holds (heq : ∀ x y, eq x y = true ↔ key x = key y)
    (hhash : ∀ x y, key x = key y → hash x = hash y) (h : Holds key xs S) (x : α) :
    Holds key ((hashed hash eq).erase xs x) (S.erase (key x)) := by
  have herase : (xs.eraseP fun y => decide (hash y = hash x) && eq y x).map key =
      (xs.map key).erase (key x) := by
    rw [List.erase_eq_eraseP', List.eraseP_map]
    simp only [hashed_found heq hhash]
    rfl
  rw [Holds, Finset.erase_val, ← show _ = S.val from h, Multiset.coe_erase, ← herase]
  rfl

end Hashed

/-! ### Search trees -/

section Ordered

variable [LinearOrder ι] {lt : α → α → Bool} {rank : α → ι} {key : α → κ} {xs : List α}
  {S : Finset κ} {x : α}

/-- The elements ascend. -/
abbrev Ascending (rank : α → ι) (xs : List α) : Prop := xs.Pairwise fun x y => rank x < rank y

theorem Ascending.eq_of_rank {x y : α} (hxs : Ascending rank xs) (hx : x ∈ xs) (hy : y ∈ xs)
    (h : rank x = rank y) : x = y := by
  induction xs with
  | nil => cases hx
  | cons z zs ih =>
      obtain ⟨hz, hzs⟩ := List.pairwise_cons.mp hxs
      rcases List.mem_cons.mp hx with rfl | hxs'
      · rcases List.mem_cons.mp hy with rfl | hys'
        · rfl
        · exact absurd h (hz y hys').ne
      · rcases List.mem_cons.mp hy with rfl | hys'
        · exact absurd h (hz x hxs').ne'
        · exact ih hzs hxs' hys'

theorem orderedEmplace_subset : ∀ y ∈ orderedEmplace lt x xs, y = x ∨ y ∈ xs := by
  induction xs with
  | nil => exact fun y hy => Or.inl (List.mem_singleton.mp hy)
  | cons z zs ih =>
      intro y hy
      rw [orderedEmplace] at hy
      split_ifs at hy
      · exact List.mem_cons.mp hy
      · rcases List.mem_cons.mp hy with rfl | hy
        · exact Or.inr List.mem_cons_self
        · exact (ih y hy).imp_right (List.mem_cons_of_mem z)
      · exact Or.inr hy

section Places

variable (hlt : ∀ x y, lt x y = true ↔ rank x < rank y)
include hlt

theorem orderedEmplace_perm (hnew : ∀ y ∈ xs, rank y ≠ rank x) :
    (orderedEmplace lt x xs).Perm (x :: xs) := by
  induction xs with
  | nil => exact .refl _
  | cons y ys ih =>
      rw [orderedEmplace]
      split
      · exact .refl _
      · rename_i hxy
        have hyx : rank y < rank x := by
          rw [hlt, not_lt] at hxy
          exact lt_of_le_of_ne hxy (hnew y List.mem_cons_self)
        rw [if_pos ((hlt y x).mpr hyx)]
        have htail := ih fun z hz => hnew z (List.mem_cons_of_mem y hz)
        exact (htail.cons y).trans (.swap x y ys)

theorem orderedEmplace_ascending (hxs : Ascending rank xs) :
    Ascending rank (orderedEmplace lt x xs) := by
  induction xs with
  | nil => exact List.pairwise_singleton ..
  | cons y ys ih =>
      obtain ⟨hy, hys⟩ := List.pairwise_cons.mp hxs
      rw [orderedEmplace]
      split_ifs with hxy hyx
      · rw [hlt] at hxy
        refine List.pairwise_cons.mpr ⟨fun z hz => ?_, hxs⟩
        rcases List.mem_cons.mp hz with rfl | hz
        · exact hxy
        · exact hxy.trans (hy z hz)
      · refine List.pairwise_cons.mpr ⟨fun z hz => ?_, ih hys⟩
        rcases orderedEmplace_subset z hz with rfl | hz
        · exact (hlt y z).mp hyx
        · exact hy z hz
      · exact hxs

/-- An element of the same rank is in the way. -/
theorem orderedEmplace_of_mem {y : α} (hxs : Ascending rank xs) (hy : y ∈ xs)
    (h : rank y = rank x) : orderedEmplace lt x xs = xs := by
  induction xs with
  | nil => cases hy
  | cons z zs ih =>
      obtain ⟨hz, hzs⟩ := List.pairwise_cons.mp hxs
      have hle : rank z ≤ rank x := by
        rcases List.mem_cons.mp hy with rfl | hy
        · exact h.le
        · exact h ▸ (hz y hy).le
      rw [orderedEmplace, if_neg (mt (hlt x z).mp hle.not_gt)]
      split
      · rename_i hzx
        rw [hlt] at hzx
        have hyz : y ∈ zs := by
          refine (List.mem_cons.mp hy).resolve_left ?_
          rintro rfl
          exact hzx.ne h
        rw [ih hzs hyz]
      · rfl

theorem orderedErase_eq_filter (hxs : Ascending rank xs) :
    orderedErase lt x xs = xs.filter fun y => rank y ≠ rank x := by
  induction xs with
  | nil => rfl
  | cons y ys ih =>
      obtain ⟨hy, hys⟩ := List.pairwise_cons.mp hxs
      rw [orderedErase]
      rcases lt_trichotomy (rank x) (rank y) with hxy | hxy | hxy
      · rw [if_pos ((hlt x y).mpr hxy)]
        symm
        rw [List.filter_eq_self]
        intro z hz
        apply decide_eq_true
        rcases List.mem_cons.mp hz with rfl | hz
        · exact hxy.ne'
        · exact (hxy.trans (hy z hz)).ne'
      · rw [if_neg (mt (hlt x y).mp hxy.not_lt), if_neg (mt (hlt y x).mp hxy.symm.not_lt)]
        have hkeep : ∀ z ∈ ys, decide (rank z ≠ rank x) = true := by
          intro z hz
          exact decide_eq_true (hxy ▸ (hy z hz).ne')
        rw [List.filter_cons_of_neg (by simpa using hxy.symm), List.filter_eq_self.mpr hkeep]
      · rw [if_neg (mt (hlt x y).mp hxy.not_gt), if_pos ((hlt y x).mpr hxy), ih hys,
          List.filter_cons_of_pos (by simpa using hxy.ne)]

theorem orderedErase_ascending (hxs : Ascending rank xs) :
    Ascending rank (orderedErase lt x xs) := by
  rw [orderedErase_eq_filter hlt hxs]
  exact hxs.filter _

variable [DecidableEq κ] (hrank : ∀ x y, key x = key y → rank x = rank y)
include hrank

/-- A tree takes a new key in just when no element of its rank has another one. -/
theorem ordered_emplace_holds_iff (hxs : Ascending rank xs) (h : Holds key xs S) (x : α) :
    Holds key ((ordered lt).emplace xs x) (insert (key x) S) ↔
      ∀ y ∈ xs, rank y = rank x → key y = key x := by
  change Holds key (orderedEmplace lt x xs) _ ↔ _
  by_cases hnew : ∀ y ∈ xs, rank y ≠ rank x
  · refine iff_of_true ?_ fun y hy hyx => absurd hyx (hnew y hy)
    have hx : key x ∉ S := by
      rw [h.mem_iff]
      rintro ⟨y, hy, hkey⟩
      exact hnew y hy (hrank y x hkey)
    exact (h.cons hx).perm (orderedEmplace_perm hlt hnew).symm
  · push Not at hnew
    obtain ⟨y, hy, hyx⟩ := hnew
    rw [orderedEmplace_of_mem hlt hxs hy hyx]
    constructor
    · intro hinsert z hz hzx
      have hmem : key x ∈ S := by
        rw [h.unique hinsert]
        exact Finset.mem_insert_self (key x) S
      obtain ⟨w, hw, hkey⟩ := h.mem_iff.mp hmem
      rw [hxs.eq_of_rank hz hw (hzx.trans (hrank w x hkey).symm), hkey]
    · intro hkey
      exact h.insert_of_mem (h.mem_iff.mpr ⟨y, hy, hkey y hy hyx⟩)

/-- A tree removes the key it should just when no element of its rank has another one. -/
theorem ordered_erase_holds_iff (hxs : Ascending rank xs) (h : Holds key xs S) (x : α) :
    Holds key ((ordered lt).erase xs x) (S.erase (key x)) ↔
      ∀ y ∈ xs, rank y = rank x → key y = key x := by
  change Holds key (orderedErase lt x xs) _ ↔ _
  rw [orderedErase_eq_filter hlt hxs]
  constructor
  · intro herase y hy hyx
    by_contra hne
    have hmem : key y ∈ S.erase (key x) := Finset.mem_erase.mpr ⟨hne, h.mem_iff.mpr ⟨y, hy, rfl⟩⟩
    obtain ⟨z, hz, hkey⟩ := herase.mem_iff.mp hmem
    have hzx := of_decide_eq_true (List.mem_filter.mp hz).2
    exact hzx ((hrank z y hkey).trans hyx)
  · intro hall
    have hsame : xs.filter (fun y => decide (rank y ≠ rank x)) =
        xs.filter (fun y => decide (key y ≠ key x)) := by
      apply List.filter_congr
      intro y hy
      exact decide_eq_decide.mpr (not_congr ⟨hall y hy, hrank y x⟩)
    rw [hsame, ← Finset.filter_ne']
    exact h.filter (· ≠ key x)

end Places
end Ordered

/-! ### Nothing comes in but what is put in -/

structure Contained (C : SetContainer α) : Prop where
  emplace : ∀ xs x, (C.emplace xs x).Subperm (x :: xs)
  erase : ∀ xs x, (C.erase xs x).Sublist xs

theorem Contained.mem_emplace {C : SetContainer α} (h : C.Contained) {xs : List α} {x y : α}
    (hy : y ∈ C.emplace xs x) : y = x ∨ y ∈ xs :=
  List.mem_cons.mp ((h.emplace xs x).subset hy)

theorem Contained.length_emplace_le {C : SetContainer α} (h : C.Contained) (xs : List α) (x : α) :
    (C.emplace xs x).length ≤ xs.length + 1 :=
  (h.emplace xs x).length_le

theorem orderedEmplace_subperm (lt : α → α → Bool) (xs : List α) (x : α) :
    (orderedEmplace lt x xs).Subperm (x :: xs) := by
  induction xs with
  | nil => exact .refl _
  | cons y ys ih =>
      rw [orderedEmplace]
      split_ifs
      · exact .refl _
      · exact ((List.subperm_cons y).mpr ih).trans (List.Perm.swap x y ys).subperm
      · exact (List.sublist_cons_self x (y :: ys)).subperm

theorem orderedErase_sublist (lt : α → α → Bool) (xs : List α) (x : α) :
    (orderedErase lt x xs).Sublist xs := by
  induction xs with
  | nil => exact .slnil
  | cons y ys ih =>
      rw [orderedErase]
      split_ifs
      · exact .refl _
      · exact ih.cons_cons y
      · exact List.sublist_cons_self y ys

theorem ordered_contained (lt : α → α → Bool) : (ordered lt).Contained :=
  ⟨orderedEmplace_subperm lt, orderedErase_sublist lt⟩

theorem hashed_contained [DecidableEq η] (hash : α → η) (eq : α → α → Bool) :
    (hashed hash eq).Contained where
  emplace xs x := by
    rw [hashed]
    dsimp only
    split_ifs
    · exact (List.sublist_cons_self x xs).subperm
    · exact .refl _
  erase xs x := List.eraseP_sublist

end SetContainer
