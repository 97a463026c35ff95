import Mathlib.Data.Nat.Notation
import Mathlib.Logic.Function.Basic

/-!
# Buffers with one owner each

A heap maps addresses to buffers. `new` puts a buffer at an address, `delete` takes one away through
a pointer; to delete a null pointer does nothing, to delete where no buffer is only counts. A family
of owners with a pointer each owns the heap when every pointer is null or goes to a live buffer of
its own, no buffer is left without an owner, and nothing was deleted in vain. Allocation for an
owner without a buffer, deletion of an owner's buffer and the transfer of one to an owner without
keep it so, and they leave the buffers of the others alone.
-/

structure BufferHeap (A β : Type*) where
  buffers : A → Option (List β)
  badDeletes : ℕ

namespace BufferHeap

variable {A β O : Type*}

def empty : BufferHeap A β := ⟨fun _ => none, 0⟩

/-- Every owner with a pointer has a live buffer for itself, and every buffer has an owner. -/
structure Owned (h : BufferHeap A β) (ptr : O → Option A) : Prop where
  live : ∀ o a, ptr o = some a → (h.buffers a).isSome
  apart : ∀ o o' a, ptr o = some a → ptr o' = some a → o = o'
  covered : ∀ a, (h.buffers a).isSome → ∃ o, ptr o = some a
  noBadDelete : h.badDeletes = 0

theorem owned_empty : (empty : BufferHeap A β).Owned (fun _ : O => none) :=
  ⟨nofun, nofun, nofun, rfl⟩

variable {h : BufferHeap A β} {ptr : O → Option A} {o o' : O}

/-- The buffer of one owner becomes that of another that has none. -/
theorem Owned.transfer [DecidableEq O] (hown : h.Owned ptr) (ho : ptr o = none) (hne : o ≠ o') :
    h.Owned (Function.update (Function.update ptr o (ptr o')) o' none) := by
  -- who had the buffers
  have hold : ∀ o₁ a, Function.update (Function.update ptr o (ptr o')) o' none o₁ = some a →
      (o₁ = o ∧ ptr o' = some a) ∨ (o₁ ≠ o' ∧ o₁ ≠ o ∧ ptr o₁ = some a) := by
    intro o₁ a h₁
    by_cases heq' : o₁ = o'
    · subst o₁
      rw [Function.update_self] at h₁
      cases h₁
    · rw [Function.update_of_ne heq'] at h₁
      by_cases heq : o₁ = o
      · subst o₁
        rw [Function.update_self] at h₁
        exact Or.inl ⟨rfl, h₁⟩
      · rw [Function.update_of_ne heq] at h₁
        exact Or.inr ⟨heq', heq, h₁⟩
  refine ⟨?_, ?_, ?_, hown.noBadDelete⟩
  · intro o₁ a h₁
    rcases hold o₁ a h₁ with ⟨-, h₁⟩ | ⟨-, -, h₁⟩
    · exact hown.live o' a h₁
    · exact hown.live o₁ a h₁
  · intro o₁ o₂ a h₁ h₂
    rcases hold o₁ a h₁ with ⟨rfl, hp₁⟩ | ⟨hne₁, -, hp₁⟩
    · rcases hold o₂ a h₂ with ⟨rfl, -⟩ | ⟨hne₂, -, hp₂⟩
      · rfl
      · exact absurd (hown.apart o₂ o' a hp₂ hp₁) hne₂
    · rcases hold o₂ a h₂ with ⟨-, hp₂⟩ | ⟨-, -, hp₂⟩
      · exact absurd (hown.apart o₁ o' a hp₁ hp₂) hne₁
      · exact hown.apart o₁ o₂ a hp₁ hp₂
  · intro a ha
    obtain ⟨o₁, h₁⟩ := hown.covered a ha
    by_cases heq' : o₁ = o'
    · subst o₁
      exact ⟨o, by rw [Function.update_of_ne hne, Function.update_self, h₁]⟩
    · have heq : o₁ ≠ o := by
        rintro rfl
        rw [ho] at h₁
        cases h₁
      exact ⟨o₁, by rw [Function.update_of_ne heq', Function.update_of_ne heq, h₁]⟩

variable [DecidableEq A]

def new (h : BufferHeap A β) (a : A) (buffer : List β) : BufferHeap A β :=
  { h with buffers := Function.update h.buffers a (some buffer) }

def delete (h : BufferHeap A β) : Option A → BufferHeap A β
  | none => h
  | some a =>
      if (h.buffers a).isSome then { h with buffers := Function.update h.buffers a none }
      else { h with badDeletes := h.badDeletes + 1 }

variable {a a' : A} {buffer : List β}

@[simp] theorem delete_none : h.delete none = h := rfl

@[simp] theorem new_buffers_self : (h.new a buffer).buffers a = some buffer :=
  Function.update_self ..

theorem new_buffers_of_ne (hne : a' ≠ a) : (h.new a buffer).buffers a' = h.buffers a' :=
  Function.update_of_ne hne ..

@[simp] theorem new_new (buffer' : List β) : (h.new a buffer).new a buffer' = h.new a buffer' := by
  simp only [new, Function.update_idem]

theorem delete_of_live (hlive : (h.buffers a).isSome) :
    h.delete (some a) = { h with buffers := Function.update h.buffers a none } := if_pos hlive

theorem delete_buffers_of_ne {p : Option A} (hne : p ≠ some a) :
    (h.delete p).buffers a = h.buffers a := by
  cases p with
  | none => rfl
  | some b =>
      have hab : a ≠ b := by
        rintro rfl
        exact hne rfl
      rw [delete]
      split
      · exact Function.update_of_ne hab ..
      · rfl

/-- A live buffer is overwritten. -/
theorem Owned.overwrite (hown : h.Owned ptr) (ha : (h.buffers a).isSome) :
    (h.new a buffer).Owned ptr := by
  have hlive : ∀ a', ((h.new a buffer).buffers a').isSome ↔ (h.buffers a').isSome := by
    intro a'
    by_cases heq : a' = a
    · subst a'
      simp only [new_buffers_self, Option.isSome_some, ha]
    · rw [new_buffers_of_ne heq]
  exact ⟨fun o a' ho => (hlive a').mpr (hown.live o a' ho), hown.apart,
    fun a' ha' => hown.covered a' ((hlive a').mp ha'), hown.noBadDelete⟩

variable [DecidableEq O]

/-- The buffer of an owner goes, and its pointer with it. -/
theorem Owned.delete (hown : h.Owned ptr) (o : O) :
    (h.delete (ptr o)).Owned (Function.update ptr o none) := by
  have hother : ∀ o' a, Function.update ptr o none o' = some a → o' ≠ o ∧ ptr o' = some a := by
    intro o' a ho'
    by_cases heq : o' = o
    · subst o'
      rw [Function.update_self] at ho'
      cases ho'
    · rw [Function.update_of_ne heq] at ho'
      exact ⟨heq, ho'⟩
  have hbuffers : ∀ a, ptr o ≠ some a → (h.delete (ptr o)).buffers a = h.buffers a :=
    fun a hne => delete_buffers_of_ne hne
  refine ⟨?_, ?_, ?_, ?_⟩
  · intro o' a ho'
    obtain ⟨hne, ho'⟩ := hother o' a ho'
    rw [hbuffers a (fun ho => hne (hown.apart o' o a ho' ho))]
    exact hown.live o' a ho'
  · intro o₁ o₂ a h₁ h₂
    exact hown.apart o₁ o₂ a (hother o₁ a h₁).2 (hother o₂ a h₂).2
  · intro a ha
    by_cases ho : ptr o = some a
    · simp [ho, delete_of_live (hown.live o a ho)] at ha
    · rw [hbuffers a ho] at ha
      obtain ⟨o', ho'⟩ := hown.covered a ha
      have hne : o' ≠ o := by
        rintro rfl
        exact ho ho'
      exact ⟨o', by rwa [Function.update_of_ne hne]⟩
  · cases ho : ptr o with
    | none => exact hown.noBadDelete
    | some a =>
        rw [delete_of_live (hown.live o a ho)]
        exact hown.noBadDelete

/-- A new buffer for an owner that has none. -/
theorem Owned.new (hown : h.Owned ptr) (ho : ptr o = none) (ha : h.buffers a = none) :
    (h.new a buffer).Owned (Function.update ptr o (some a)) := by
  have hptr : ∀ o' a', Function.update ptr o (some a) o' = some a' →
      (o' = o ∧ a' = a) ∨ (o' ≠ o ∧ a' ≠ a ∧ ptr o' = some a') := by
    intro o' a' ho'
    by_cases heq : o' = o
    · subst o'
      rw [Function.update_self] at ho'
      exact Or.inl ⟨rfl, (Option.some.inj ho').symm⟩
    · rw [Function.update_of_ne heq] at ho'
      refine Or.inr ⟨heq, ?_, ho'⟩
      rintro rfl
      have hlive := hown.live o' a' ho'
      rw [ha] at hlive
      cases hlive
  refine ⟨?_, ?_, ?_, hown.noBadDelete⟩
  · intro o' a' ho'
    rcases hptr o' a' ho' with ⟨-, rfl⟩ | ⟨-, hne, hold⟩
    · rw [new_buffers_self]
      rfl
    · rw [new_buffers_of_ne hne]
      exact hown.live o' a' hold
  · intro o₁ o₂ a' h₁ h₂
    rcases hptr o₁ a' h₁ with ⟨rfl, rfl⟩ | ⟨-, hne, h₁⟩
    · rcases hptr o₂ a' h₂ with ⟨rfl, -⟩ | ⟨-, hne, -⟩
      · rfl
      · exact absurd rfl hne
    · rcases hptr o₂ a' h₂ with ⟨-, rfl⟩ | ⟨-, -, h₂⟩
      · exact absurd rfl hne
      · exact hown.apart o₁ o₂ a' h₁ h₂
  · intro a' ha'
    by_cases heq : a' = a
    · exact ⟨o, by rw [Function.update_self, heq]⟩
    · rw [new_buffers_of_ne heq] at ha'
      obtain ⟨o', ho'⟩ := hown.covered a' ha'
      have hne : o' ≠ o := by
        rintro rfl
        rw [ho] at ho'
        cases ho'
      exact ⟨o', by rwa [Function.update_of_ne hne]⟩

end BufferHeap
