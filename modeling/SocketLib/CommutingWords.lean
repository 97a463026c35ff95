import Mathlib.Data.List.Basic
import Mathlib.Tactic

/-!
# Words that commute

Two words can be appended in either order exactly when both are repetitions of one word. The proof
cuts the shorter word off the front of the longer one, which leaves two words that commute again.
-/

namespace CommutingWords

variable {α : Type*}

def repeated (word : List α) (n : ℕ) : List α := (List.replicate n word).flatten

@[simp] theorem repeated_zero (word : List α) : repeated word 0 = [] := rfl

theorem repeated_add (word : List α) (k l : ℕ) :
    repeated word (k + l) = repeated word k ++ repeated word l := by
  rw [repeated, List.replicate_add, List.flatten_append, repeated, repeated]

theorem repeated_one (word : List α) : repeated word 1 = word := by
  rw [repeated, List.replicate_one, List.flatten_singleton]

/-- Two words are repetitions of one word. -/
def ShareWord (xs ys : List α) : Prop :=
  ∃ word k l, xs = repeated word k ∧ ys = repeated word l

theorem shareWord_nil_left (ys : List α) : ShareWord [] ys :=
  ⟨ys, 0, 1, rfl, (repeated_one ys).symm⟩

theorem ShareWord.symm {xs ys : List α} (h : ShareWord xs ys) : ShareWord ys xs := by
  obtain ⟨word, k, l, hxs, hys⟩ := h
  exact ⟨word, l, k, hys, hxs⟩

theorem ShareWord.append_left {xs ys : List α} (h : ShareWord xs ys) : ShareWord xs (xs ++ ys) := by
  obtain ⟨word, k, l, rfl, rfl⟩ := h
  exact ⟨word, k, k + l, rfl, (repeated_add word k l).symm⟩

theorem ShareWord.append_comm {xs ys : List α} (h : ShareWord xs ys) : xs ++ ys = ys ++ xs := by
  obtain ⟨word, k, l, rfl, rfl⟩ := h
  rw [← repeated_add, ← repeated_add, Nat.add_comm]

/-- The shorter of two commuting words is a prefix of the longer one, and commutes with the rest. -/
theorem exists_append_of_comm {xs ys : List α} (h : xs ++ ys = ys ++ xs)
    (hle : xs.length ≤ ys.length) : ∃ zs, ys = xs ++ zs ∧ xs ++ zs = zs ++ xs := by
  have hprefix : xs <+: ys :=
    List.prefix_of_prefix_length_le (h ▸ List.prefix_append xs ys) (List.prefix_append ys xs) hle
  obtain ⟨zs, rfl⟩ := hprefix
  refine ⟨zs, rfl, ?_⟩
  rw [List.append_assoc] at h
  exact List.append_cancel_left h

theorem shareWord_of_comm {xs ys : List α} (h : xs ++ ys = ys ++ xs) : ShareWord xs ys := by
  induction hn : xs.length + ys.length using Nat.strong_induction_on generalizing xs ys with
  | _ n ih =>
      wlog hle : xs.length ≤ ys.length generalizing xs ys
      · exact (this h.symm (by omega) (by omega)).symm
      rcases eq_or_ne xs [] with rfl | hne
      · exact shareWord_nil_left ys
      · obtain ⟨zs, rfl, hzs⟩ := exists_append_of_comm h hle
        have hpos := List.length_pos_iff.mpr hne
        have hlt : xs.length + zs.length < n := by
          rw [← hn, List.length_append]
          omega
        exact (ih _ hlt hzs rfl).append_left

theorem append_comm_iff {xs ys : List α} : xs ++ ys = ys ++ xs ↔ ShareWord xs ys :=
  ⟨shareWord_of_comm, ShareWord.append_comm⟩

end CommutingWords
