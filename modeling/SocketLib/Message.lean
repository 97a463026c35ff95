import SocketLib.BufferHeap
import SocketLib.TransitionSystem

/-!
# Programs over `Message` variables

A `Message` is a pointer `_data` and a length `_len`, which `init` and `move` set one after the
other. A variable comes into being by a constructor and goes by the destructor; in between it is
assigned to, moved from, and written to through `data()`. `new byte[len]` takes an address that is
free at the moment, perhaps one used before, or throws. By then `init` has stored the length, and
the copy assignment has deleted the old buffer.

As long as no copy assignment is left half done (`NothingHalfDone`), every variable with a pointer
has a buffer of its own that is as long as it says (`Sound`). Without failures none is left half
done; with failures none is, as long as the target of a failed assignment keeps what it had.
-/

namespace SocketLib.Messages

/-- A byte of a buffer, or `none` when nobody has written it yet. -/
abbrev Cell := Option UInt8

abbrev Heap (A : Type*) := BufferHeap A Cell

structure Message (A : Type*) where
  len : ℕ
  data : Option A
  deriving DecidableEq

/-- What a `const byte *` points to: a buffer of a message, or what the caller has in memory. -/
inductive Pointer (A : Type*)
  | null
  | buffer (a : A)
  | memory (cells : List Cell)

/-- The constructors but for the copying and the moving one, with what their arguments point to. -/
inductive Source
  | default
  | length (len : ℕ)
  | pointer (data : Option (List Cell)) (len : ℕ)
  | span (data : List Cell)
  | vector (data : List Cell)
  | stringView (data : List Cell)

/-- One statement of a program. An allocation, if there is one, takes the given address, or throws.
-/
inductive Op (V A : Type*)
  | construct (x : V) (source : Source) (alloc : Option A)
  | copyConstruct (x y : V) (alloc : Option A)
  | moveConstruct (x y : V)
  | copyAssign (x y : V) (alloc : Option A)
  | moveAssign (x y : V)
  | move (x y : V)
  | write (x : V) (i : ℕ) (value : UInt8)
  | destroy (x : V)

/-- What `init` leaves in the heap and in the message, and whether it threw. -/
structure Result (A : Type*) where
  heap : Heap A
  message : Message A
  threw : Bool

/-- The members before a constructor runs. -/
def Message.fresh {A : Type*} : Message A := ⟨0, none⟩

def Message.pointer {A : Type*} (msg : Message A) : Pointer A := msg.data.elim .null .buffer

def Pointer.isNull {A : Type*} : Pointer A → Bool
  | .null => true
  | _ => false

theorem Message.pointer_isNull {A : Type*} {msg : Message A} :
    msg.pointer.isNull ↔ msg.data = none := by
  cases hdata : msg.data with
  | none => simp [Message.pointer, hdata, Pointer.isNull]
  | some a => simp [Message.pointer, hdata, Pointer.isNull]

/-- The memory that a pointer and a length describe is there. -/
def Source.valid : Source → Bool
  | .pointer (some data) len => len ≤ data.length
  | _ => true

section Functions

variable {A : Type*} [DecidableEq A]

/-- What `memcpy` reads. A deleted buffer holds anything. -/
def readCells (h : Heap A) (len : ℕ) : Pointer A → List Cell
  | .null => []
  | .buffer a => ((h.buffers a).getD (List.replicate len none)).take len
  | .memory cells => cells.take len

namespace Message

def init (msg : Message A) (h : Heap A) (len : ℕ) (alloc : Option A) : Result A :=
  if len = 0 then ⟨h, ⟨0, none⟩, false⟩
  else
    match alloc with
    | none => ⟨h, { msg with len := len }, true⟩
    | some a => ⟨h.new a (List.replicate len none), ⟨len, some a⟩, false⟩

def initCopy (msg : Message A) (h : Heap A) (data : Pointer A) (len : ℕ) (alloc : Option A) :
    Result A :=
  if data.isNull ∨ len = 0 then ⟨h, ⟨0, none⟩, false⟩
  else
    match alloc with
    | none => ⟨h, { msg with len := len }, true⟩
    | some a =>
        let h' := h.new a (List.replicate len none)
        ⟨h'.new a (readCells h' len data), ⟨len, some a⟩, false⟩

def construct (h : Heap A) (alloc : Option A) : Source → Result A
  | .default => ⟨h, fresh, false⟩
  | .length len => fresh.init h len alloc
  | .pointer none len => fresh.initCopy h .null len alloc
  | .pointer (some data) len => fresh.initCopy h (.memory data) len alloc
  | .span data => fresh.initCopy h (.memory data) data.length alloc
  | .vector data => fresh.initCopy h (.memory data) data.length alloc
  | .stringView data => fresh.initCopy h (.memory data) data.length alloc

def copyConstruct (h : Heap A) (msg : Message A) (alloc : Option A) : Result A :=
  fresh.initCopy h msg.pointer msg.len alloc

/-- `operator=` past its test for self-assignment. -/
def copyAssign (this : Message A) (h : Heap A) (msg : Message A) (alloc : Option A) : Result A :=
  this.initCopy (h.delete this.data) msg.pointer msg.len alloc

/-- `move` past its test for the same object: the heap, the message and the other one. -/
def move (this : Message A) (h : Heap A) (other : Message A) : Heap A × Message A × Message A :=
  (h.delete this.data, ⟨other.len, other.data⟩, { other with data := none })

end Message
end Functions

/-! ### Programs -/

structure State (V A : Type*) where
  heap : Heap A
  vars : V → Option (Message A)

section Programs

variable {V A : Type*} [DecidableEq V] [DecidableEq A]

/-- The allocator gives out free addresses only. -/
def isFree (h : Heap A) (alloc : Option A) : Bool := alloc.all (fun a => (h.buffers a).isNone)

/-- A constructor that throws leaves no object behind. -/
def State.constructed (s : State V A) (x : V) (r : Result A) : State V A × Bool :=
  if r.threw then ({ s with heap := r.heap }, true)
  else (⟨r.heap, Function.update s.vars x (some r.message)⟩, false)

def State.moved (s : State V A) (x y : V) (this other : Message A) : State V A :=
  let r := this.move s.heap other
  ⟨r.1, Function.update (Function.update s.vars x (some r.2.1)) y (some r.2.2)⟩

def State.moveAssigned (s : State V A) (x y : V) : Option (State V A × Bool) :=
  match s.vars x, s.vars y with
  | some this, some other => some (if x = y then s else s.moved x y this other, false)
  | _, _ => none

/-- The state after a statement, and whether it threw. A statement that uses a variable that is not
alive, or memory that is not there, is not one of a program. -/
def outcome (s : State V A) : Op V A → Option (State V A × Bool)
  | .construct x source alloc =>
      if (s.vars x).isNone ∧ source.valid ∧ isFree s.heap alloc then
        some (s.constructed x (Message.construct s.heap alloc source))
      else none
  | .copyConstruct x y alloc =>
      match s.vars x, s.vars y with
      | none, some msg =>
          if isFree s.heap alloc then
            some (s.constructed x (Message.copyConstruct s.heap msg alloc))
          else none
      | _, _ => none
  | .moveConstruct x y =>
      match s.vars x, s.vars y with
      | none, some other => some (s.moved x y .fresh other, false)
      | _, _ => none
  | .copyAssign x y alloc =>
      match s.vars x, s.vars y with
      | some this, some msg =>
          if x = y then some (s, false)
          else if isFree (s.heap.delete this.data) alloc then
            let r := this.copyAssign s.heap msg alloc
            some (⟨r.heap, Function.update s.vars x (some r.message)⟩, r.threw)
          else none
      | _, _ => none
  | .moveAssign x y | .move x y => s.moveAssigned x y
  | .write x i value =>
      match s.vars x with
      | some ⟨len, some a⟩ =>
          match s.heap.buffers a with
          | some cells =>
              if i < len then
                some ({ s with heap := s.heap.new a (cells.set i (some value)) }, false)
              else none
          | none => none
      | _ => none
  | .destroy x =>
      match s.vars x with
      | some msg => some (⟨s.heap.delete msg.data, Function.update s.vars x none⟩, false)
      | none => none

def next (s : State V A) (op : Op V A) : Option (State V A) := (outcome s op).map Prod.fst

def threw (s : State V A) (op : Op V A) : Bool := (outcome s op).any Prod.snd

/-- Programs that begin without variables. -/
def system (V A : Type*) [DecidableEq V] [DecidableEq A] : TransitionSystem (State V A) (Op V A) :=
  ⟨⟨.empty, fun _ => none⟩, next⟩

end Programs

/-! ### What a statement can do -/

section Outcome

variable {V A : Type*} [DecidableEq V] [DecidableEq A] {s t : State V A} {x y : V}
  {alloc : Option A} {b : Bool}

theorem outcome_construct {source : Source}
    (h : outcome s (.construct x source alloc) = some (t, b)) :
    s.vars x = none ∧ source.valid ∧ isFree s.heap alloc ∧
      s.constructed x (Message.construct s.heap alloc source) = (t, b) := by
  rw [outcome] at h
  split_ifs at h with hargs
  obtain ⟨hx, hvalid, hfree⟩ := hargs
  exact ⟨Option.isNone_iff_eq_none.mp hx, hvalid, hfree, Option.some.inj h⟩

theorem outcome_copyConstruct (h : outcome s (.copyConstruct x y alloc) = some (t, b)) :
    ∃ msg, s.vars x = none ∧ s.vars y = some msg ∧ isFree s.heap alloc ∧
      s.constructed x (Message.copyConstruct s.heap msg alloc) = (t, b) := by
  rw [outcome] at h
  split at h
  · rename_i msg hx hy
    split_ifs at h with hfree
    exact ⟨msg, hx, hy, hfree, Option.some.inj h⟩
  · cases h

theorem outcome_moveConstruct (h : outcome s (.moveConstruct x y) = some (t, b)) :
    ∃ other, s.vars x = none ∧ s.vars y = some other ∧ x ≠ y ∧ t = s.moved x y .fresh other ∧
      b = false := by
  rw [outcome] at h
  split at h
  · rename_i other hx hy
    obtain ⟨rfl, rfl⟩ := Prod.mk.inj (Option.some.inj h)
    refine ⟨other, hx, hy, ?_, rfl, rfl⟩
    rintro rfl
    rw [hx] at hy
    cases hy
  · cases h

theorem outcome_copyAssign (h : outcome s (.copyAssign x y alloc) = some (t, b)) :
    ∃ this msg, s.vars x = some this ∧ s.vars y = some msg ∧
      (x = y ∧ t = s ∧ b = false ∨
        x ≠ y ∧ isFree (s.heap.delete this.data) alloc ∧
          t = ⟨(this.copyAssign s.heap msg alloc).heap,
            Function.update s.vars x (some (this.copyAssign s.heap msg alloc).message)⟩ ∧
          b = (this.copyAssign s.heap msg alloc).threw) := by
  rw [outcome] at h
  split at h
  · rename_i this msg hx hy
    split_ifs at h with hxy hfree
    · obtain ⟨rfl, rfl⟩ := Prod.mk.inj (Option.some.inj h)
      exact ⟨this, msg, hx, hy, Or.inl ⟨hxy, rfl, rfl⟩⟩
    · obtain ⟨rfl, rfl⟩ := Prod.mk.inj (Option.some.inj h)
      exact ⟨this, msg, hx, hy, Or.inr ⟨hxy, hfree, rfl, rfl⟩⟩
  · cases h

theorem moveAssigned_eq_some (h : s.moveAssigned x y = some (t, b)) :
    ∃ this other, s.vars x = some this ∧ s.vars y = some other ∧
      (x = y ∧ t = s ∨ x ≠ y ∧ t = s.moved x y this other) ∧ b = false := by
  rw [State.moveAssigned] at h
  split at h
  · rename_i this other hx hy
    obtain ⟨rfl, rfl⟩ := Prod.mk.inj (Option.some.inj h)
    refine ⟨this, other, hx, hy, ?_, rfl⟩
    by_cases hxy : x = y
    · exact Or.inl ⟨hxy, if_pos hxy⟩
    · exact Or.inr ⟨hxy, if_neg hxy⟩
  · cases h

theorem outcome_write {i : ℕ} {value : UInt8} (h : outcome s (.write x i value) = some (t, b)) :
    ∃ len a cells, s.vars x = some ⟨len, some a⟩ ∧ s.heap.buffers a = some cells ∧
      t = { s with heap := s.heap.new a (cells.set i (some value)) } ∧ b = false := by
  rw [outcome] at h
  split at h
  · rename_i len a hx
    split at h
    · rename_i cells hcells
      split_ifs at h
      obtain ⟨rfl, rfl⟩ := Prod.mk.inj (Option.some.inj h)
      exact ⟨len, a, cells, hx, hcells, rfl, rfl⟩
    · cases h
  · cases h

theorem outcome_destroy (h : outcome s (.destroy x) = some (t, b)) :
    ∃ msg, s.vars x = some msg ∧
      t = ⟨s.heap.delete msg.data, Function.update s.vars x none⟩ ∧ b = false := by
  rw [outcome] at h
  split at h
  · rename_i msg hx
    obtain ⟨rfl, rfl⟩ := Prod.mk.inj (Option.some.inj h)
    exact ⟨msg, hx, rfl, rfl⟩
  · cases h

end Outcome

/-! ### Who owns which buffer -/

/-- The bytes that a constructor's arguments stand for. -/
def Source.value : Source → List Cell
  | .default | .pointer none _ => []
  | .length len => List.replicate len none
  | .pointer (some data) len => data.take len
  | .span data | .vector data | .stringView data => data

/-- How a call of `init` for these bytes ends: with nothing to hold, with a new buffer, or in an
exception with the length stored. -/
inductive Inits {A : Type*} [DecidableEq A] (msg : Message A) (h : Heap A) :
    Option A → List Cell → Result A → Prop
  | empty (alloc : Option A) : Inits msg h alloc [] ⟨h, ⟨0, none⟩, false⟩
  | fills (a : A) (cells : List Cell) (hcells : cells ≠ []) :
      Inits msg h (some a) cells ⟨h.new a cells, ⟨cells.length, some a⟩, false⟩
  | throws (cells : List Cell) : Inits msg h none cells ⟨h, ⟨cells.length, msg.data⟩, true⟩

section Init

variable {A : Type*} [DecidableEq A] {msg : Message A} {h : Heap A} {len : ℕ} {alloc : Option A}
  {a : A} {data : Pointer A}

theorem init_inits : Inits msg h alloc (List.replicate len none) (msg.init h len alloc) := by
  by_cases hlen : len = 0
  · subst len
    exact .empty alloc
  · cases alloc with
    | none =>
        have hthrows : Inits msg h none (List.replicate len none) ⟨h, ⟨_, msg.data⟩, true⟩ :=
          .throws _
        rw [List.length_replicate] at hthrows
        rwa [Message.init.eq_def, if_neg hlen]
    | some a =>
        have hne : List.replicate len (none : Cell) ≠ [] := by simpa using hlen
        have hfills : Inits msg h (some a) _ ⟨h.new a _, ⟨_, some a⟩, false⟩ := .fills a _ hne
        rw [List.length_replicate] at hfills
        rwa [Message.init.eq_def, if_neg hlen]

theorem initCopy_empty (hempty : data.isNull ∨ len = 0) :
    msg.initCopy h data len alloc = ⟨h, ⟨0, none⟩, false⟩ := if_pos hempty

theorem initCopy_none (hdata : ¬ (data.isNull ∨ len = 0)) :
    msg.initCopy h data len none = ⟨h, { msg with len := len }, true⟩ := if_neg hdata

theorem initCopy_some (hdata : ¬ (data.isNull ∨ len = 0)) :
    msg.initCopy h data len (some a) =
      ⟨h.new a (readCells (h.new a (List.replicate len none)) len data), ⟨len, some a⟩, false⟩ := by
  rw [Message.initCopy, if_neg hdata]
  simp only [BufferHeap.new_new]

theorem initCopy_threw :
    (msg.initCopy h data len alloc).threw = true ↔ alloc = none ∧ ¬ (data.isNull ∨ len = 0) := by
  by_cases hdata : data.isNull ∨ len = 0
  · rw [initCopy_empty hdata]
    simp [hdata]
  · cases alloc with
    | none =>
        rw [initCopy_none hdata]
        simp [hdata]
    | some a =>
        rw [initCopy_some hdata]
        simp

/-- `init` copies what the pointer leads to, as long as `memcpy` finds that much. -/
theorem initCopy_inits {cells : List Cell} (hnull : data.isNull → cells = [])
    (hlen : data.isNull = false → cells.length = len)
    (hread : ∀ a, alloc = some a → data.isNull = false →
      readCells (h.new a (List.replicate len none)) len data = cells) :
    Inits msg h alloc cells (msg.initCopy h data len alloc) := by
  by_cases hdata : data.isNull ∨ len = 0
  · have hcells : cells = [] := by
      rcases hisNull : data.isNull with - | -
      · have hzero := hdata.resolve_left (by simp [hisNull])
        exact List.length_eq_zero_iff.mp ((hlen hisNull).trans hzero)
      · exact hnull hisNull
    rw [initCopy_empty hdata, hcells]
    exact .empty alloc
  · have hisNull : data.isNull = false := by simpa using fun hnull => hdata (Or.inl hnull)
    have hlength := hlen hisNull
    cases alloc with
    | none =>
        rw [initCopy_none hdata, ← hlength]
        exact .throws cells
    | some a =>
        have hne : cells ≠ [] := by
          rintro rfl
          exact hdata (Or.inr hlength.symm)
        rw [initCopy_some hdata, hread a rfl hisNull, ← hlength]
        exact .fills a cells hne

theorem construct_inits {source : Source} (hvalid : source.valid) :
    Inits .fresh h alloc source.value (Message.construct h alloc source) := by
  have hmemory : ∀ (cells : List Cell) len, len ≤ cells.length →
      Inits .fresh h alloc (cells.take len)
        (Message.fresh.initCopy h (.memory cells) len alloc) := by
    intro cells len hlen
    exact initCopy_inits nofun (fun _ => List.length_take_of_le hlen) (fun _ _ _ => rfl)
  have hwhole : ∀ data : List Cell, Inits .fresh h alloc data
      (Message.fresh.initCopy h (.memory data) data.length alloc) := by
    intro data
    have hdata := hmemory data data.length le_rfl
    rwa [List.take_length] at hdata
  cases source with
  | default => exact .empty alloc
  | length len => exact init_inits
  | pointer data len =>
      cases data with
      | none =>
          rw [Message.construct, initCopy_empty (Or.inl rfl)]
          exact .empty alloc
      | some cells => exact hmemory cells len (of_decide_eq_true hvalid)
  | span data => exact hwhole data
  | vector data => exact hwhole data
  | stringView data => exact hwhole data

end Init

section Ownership

variable {V A : Type*}

/-- `data()` of the variables that are alive. -/
def State.pointer (s : State V A) (x : V) : Option A := (s.vars x).bind Message.data

/-- Every variable with a pointer has a buffer of its own, as long as it says. -/
structure Sound (s : State V A) : Prop where
  owned : s.heap.Owned s.pointer
  sized : ∀ x msg a, s.vars x = some msg → msg.data = some a →
    ∃ cells, s.heap.buffers a = some cells ∧ cells.length = msg.len

theorem pointer_eq {s : State V A} {x : V} {msg : Message A} (hx : s.vars x = some msg) :
    s.pointer x = msg.data := by rw [State.pointer, hx, Option.bind_some]

theorem sound_start : Sound (⟨.empty, fun _ => none⟩ : State V A) :=
  ⟨BufferHeap.owned_empty, nofun⟩

variable {s s' : State V A} {x y : V} {msg this other : Message A} {alloc : Option A}
  {cells : List Cell} {r : Result A} {op : Op V A}

theorem Sound.readCells_length (hs : Sound s) (hy : s.vars y = some other)
    (hdata : other.pointer.isNull = false) :
    (readCells s.heap other.len other.pointer).length = other.len := by
  cases hother : other.data with
  | none =>
      rw [Message.pointer, hother] at hdata
      cases hdata
  | some b =>
      obtain ⟨cells, hcells, hlength⟩ := hs.sized y other b hy hother
      rw [Message.pointer, hother, Option.elim_some, readCells, hcells, Option.getD_some, ← hlength,
        List.take_length]

/-- `init` can copy what another variable holds: its buffer is long enough, and it is not the new
one. -/
theorem Sound.initCopy_inits [DecidableEq A] (hs : Sound s) (hy : s.vars y = some other)
    (hfree : isFree s.heap alloc) (this : Message A) :
    Inits this s.heap alloc (readCells s.heap other.len other.pointer)
      (this.initCopy s.heap other.pointer other.len alloc) := by
  apply Messages.initCopy_inits
  · intro hnull
    rw [Message.pointer_isNull] at hnull
    rw [Message.pointer, hnull]
    rfl
  · exact hs.readCells_length hy
  · rintro a rfl hnull
    have ha : s.heap.buffers a = none := by simpa [isFree] using hfree
    cases hdata : other.data with
    | none =>
        rw [Message.pointer, hdata] at hnull
        cases hnull
    | some b =>
        obtain ⟨cells, hcells, -⟩ := hs.sized y other b hy hdata
        have hne : b ≠ a := by
          rintro rfl
          rw [ha] at hcells
          cases hcells
        rw [Message.pointer, hdata, Option.elim_some, readCells, readCells,
          BufferHeap.new_buffers_of_ne hne]

/-- A live buffer keeps its length when it is written to. -/
theorem Sound.write [DecidableEq A] {a : A} {cells cells' : List Cell} (hs : Sound s)
    (ha : s.heap.buffers a = some cells) (hlength : cells'.length = cells.length) :
    Sound { s with heap := s.heap.new a cells' } := by
  have hlive : (s.heap.buffers a).isSome := by rw [ha]; rfl
  refine ⟨hs.owned.overwrite hlive, fun x msg b hx hb => ?_⟩
  obtain ⟨old, hold, hlen⟩ := hs.sized x msg b hx hb
  by_cases hba : b = a
  · subst b
    obtain rfl := Option.some.inj (ha.symm.trans hold)
    exact ⟨cells', BufferHeap.new_buffers_self, hlength.trans hlen⟩
  · exact ⟨old, (BufferHeap.new_buffers_of_ne hba).trans hold, hlen⟩

variable [DecidableEq V]

theorem pointer_update (h : Heap A) (vars : V → Option (Message A)) (x : V)
    (m : Option (Message A)) :
    (⟨h, Function.update vars x m⟩ : State V A).pointer =
      Function.update (⟨h, vars⟩ : State V A).pointer x (m.bind Message.data) := by
  funext y
  by_cases hy : y = x
  · subst y
    simp only [State.pointer, Function.update_self]
  · simp only [State.pointer, Function.update_of_ne hy]

/-- A variable without a pointer may get another length or go. -/
theorem Sound.forget (hs : Sound s) (hx : s.pointer x = none) (m : Option (Message A))
    (hm : m.bind Message.data = none) : Sound ⟨s.heap, Function.update s.vars x m⟩ := by
  refine ⟨?_, fun y msg a hy ha => ?_⟩
  · rw [pointer_update, hm, ← hx, Function.update_eq_self]
    exact hs.owned
  · by_cases hyx : y = x
    · subst y
      obtain rfl : m = some msg := by simpa only [Function.update_self] using hy
      rw [Option.bind_some, ha] at hm
      cases hm
    · exact hs.sized y msg a (by simpa only [Function.update_of_ne hyx] using hy) ha

/-- A variable without a pointer gets the one of another variable. -/
theorem Sound.take (hs : Sound s) (hx : s.pointer x = none) (hne : x ≠ y)
    (hy : s.vars y = some other) :
    Sound ⟨s.heap, Function.update (Function.update s.vars x (some ⟨other.len, other.data⟩)) y
      (some { other with data := none })⟩ := by
  refine ⟨?_, fun z msg a hz ha => ?_⟩
  · rw [pointer_update, pointer_update, Option.bind_some, Option.bind_some, ← pointer_eq hy]
    exact hs.owned.transfer hx hne
  · by_cases hzy : z = y
    · subst z
      simp only [Function.update_self] at hz
      obtain rfl := Option.some.inj hz
      cases ha
    · simp only [Function.update_of_ne hzy] at hz
      by_cases hzx : z = x
      · subst z
        simp only [Function.update_self] at hz
        obtain rfl := Option.some.inj hz
        exact hs.sized y other a hy ha
      · simp only [Function.update_of_ne hzx] at hz
        exact hs.sized z msg a hz ha

variable [DecidableEq A]

/-- The buffer of a variable is deleted, and the variable is gone. -/
theorem Sound.release (hs : Sound s) (hx : s.vars x = some msg) :
    Sound ⟨s.heap.delete msg.data, Function.update s.vars x none⟩ := by
  have hpointer := pointer_eq hx
  refine ⟨?_, fun y other a hy ha => ?_⟩
  · rw [pointer_update, ← hpointer]
    exact hs.owned.delete x
  · have hyx : y ≠ x := by
      rintro rfl
      simp [Function.update_self] at hy
    simp only [Function.update_of_ne hyx] at hy
    have hne : msg.data ≠ some a := by
      intro hmsg
      exact hyx (hs.owned.apart y x a ((pointer_eq hy).trans ha) (hpointer.trans hmsg))
    rw [BufferHeap.delete_buffers_of_ne hne]
    exact hs.sized y other a hy ha

/-- A variable without a pointer gets what `init` made. -/
theorem Sound.fill (hs : Sound s) (hx : s.pointer x = none) (hfree : isFree s.heap alloc)
    (hr : Inits msg s.heap alloc cells r) (hthrew : r.threw = false) :
    Sound ⟨r.heap, Function.update s.vars x (some r.message)⟩ := by
  cases hr with
  | empty => exact hs.forget hx _ rfl
  | throws => cases hthrew
  | fills a cells =>
      have ha : s.heap.buffers a = none := by simpa [isFree] using hfree
      refine ⟨?_, fun y other b hy hb => ?_⟩
      · rw [pointer_update]
        exact hs.owned.new hx ha
      · by_cases hyx : y = x
        · subst y
          obtain rfl : _ = other := by simpa only [Function.update_self, Option.some.injEq] using hy
          obtain rfl := Option.some.inj hb
          exact ⟨cells, BufferHeap.new_buffers_self, rfl⟩
        · simp only [Function.update_of_ne hyx] at hy
          obtain ⟨old, hold, hlength⟩ := hs.sized y other b hy hb
          have hne : b ≠ a := by
            rintro rfl
            rw [ha] at hold
            cases hold
          exact ⟨old, (BufferHeap.new_buffers_of_ne hne).trans hold, hlength⟩

theorem Sound.constructed (hs : Sound s) (hx : s.vars x = none) (hfree : isFree s.heap alloc)
    (hr : Inits .fresh s.heap alloc cells r) : Sound (s.constructed x r).1 := by
  have hpointer : s.pointer x = none := by rw [State.pointer, hx, Option.bind_none]
  rw [State.constructed]
  cases hthrew : r.threw with
  | true =>
      cases hr with
      | throws => exact hs
      | _ => cases hthrew
  | false => exact hs.fill hpointer hfree hr hthrew

theorem Sound.moved (hs : Sound s) (hx : s.vars x = some this) (hne : x ≠ y)
    (hy : s.vars y = some other) : Sound (s.moved x y this other) := by
  have hrelease := hs.release hx
  have hnone : State.pointer ⟨s.heap.delete this.data, Function.update s.vars x none⟩ x = none := by
    simp only [State.pointer, Function.update_self, Option.bind_none]
  have htake := hrelease.take hnone hne (by simpa only [Function.update_of_ne hne.symm] using hy)
  rw [Function.update_idem] at htake
  exact htake

/-- An exception on the way leaves the variable as it was, or the assignment is left half done. -/
theorem Sound.copyAssigned (hs : Sound s) (hx : s.vars x = some this) (hy : s.vars y = some msg)
    (hne : x ≠ y) (hfree : isFree (s.heap.delete this.data) alloc)
    (hno : alloc = none → msg.data = none ∨ msg.len = 0 ∨ this.data = none ∧ this.len = msg.len) :
    Sound ⟨(this.copyAssign s.heap msg alloc).heap,
      Function.update s.vars x (some (this.copyAssign s.heap msg alloc).message)⟩ := by
  have hrelease := hs.release hx
  have hnone : State.pointer ⟨s.heap.delete this.data, Function.update s.vars x none⟩ x = none := by
    simp only [State.pointer, Function.update_self, Option.bind_none]
  have hinits := hrelease.initCopy_inits (y := y)
    (by simpa only [Function.update_of_ne hne.symm] using hy) hfree this
  cases hthrew : (this.copyAssign s.heap msg alloc).threw with
  | false =>
      have hfill := hrelease.fill hnone hfree hinits hthrew
      rw [Function.update_idem] at hfill
      exact hfill
  | true =>
      obtain ⟨rfl, hdata⟩ := initCopy_threw.mp hthrew
      rcases hno rfl with hnull | hlen | ⟨hthis, hlen⟩
      · exact absurd (Or.inl (Message.pointer_isNull.mpr hnull)) hdata
      · exact absurd (Or.inr hlen) hdata
      · have hsame : this.copyAssign s.heap msg none = ⟨s.heap, this, true⟩ := by
          have hmessage : { this with len := msg.len } = this := by rw [← hlen]
          rw [Message.copyAssign, initCopy_none hdata, hmessage, hthis]
          rfl
        rwa [hsame, ← hx, Function.update_eq_self]

/-- The statement is no copy assignment that deletes the buffer of its target, or stores another
length there, and then cannot allocate. -/
def NothingHalfDone (s : State V A) : Op V A → Prop
  | .copyAssign x y none => x = y ∨ ∀ this msg, s.vars x = some this → s.vars y = some msg →
      msg.data = none ∨ msg.len = 0 ∨ this.data = none ∧ this.len = msg.len
  | _ => True

theorem Sound.moveAssigned {t : State V A} {b : Bool} (hs : Sound s)
    (h : s.moveAssigned x y = some (t, b)) : Sound t := by
  obtain ⟨this, other, hx, hy, ⟨-, rfl⟩ | ⟨hxy, rfl⟩, -⟩ := moveAssigned_eq_some h
  · exact hs
  · exact hs.moved hx hxy hy

theorem Sound.next (hs : Sound s) (hno : NothingHalfDone s op) (h : next s op = some s') :
    Sound s' := by
  obtain ⟨⟨t, b⟩, ht, rfl⟩ := Option.map_eq_some_iff.mp h
  cases op with
  | construct x source alloc =>
      obtain ⟨hx, hvalid, hfree, hr⟩ := outcome_construct ht
      have hconstructed := hs.constructed hx hfree (construct_inits hvalid)
      rwa [hr] at hconstructed
  | copyConstruct x y alloc =>
      obtain ⟨msg, hx, hy, hfree, hr⟩ := outcome_copyConstruct ht
      have hconstructed := hs.constructed hx hfree (hs.initCopy_inits hy hfree .fresh)
      rw [Message.copyConstruct] at hr
      rwa [hr] at hconstructed
  | moveConstruct x y =>
      obtain ⟨other, hx, hy, hxy, rfl, -⟩ := outcome_moveConstruct ht
      have hpointer : s.pointer x = none := by rw [State.pointer, hx, Option.bind_none]
      exact hs.take hpointer hxy hy
  | copyAssign x y alloc =>
      obtain ⟨this, msg, hx, hy, ⟨-, rfl, -⟩ | ⟨hxy, hfree, rfl, -⟩⟩ := outcome_copyAssign ht
      · exact hs
      · refine hs.copyAssigned hx hy hxy hfree ?_
        rintro rfl
        exact hno.resolve_left hxy this msg hx hy
  | moveAssign x y => exact hs.moveAssigned ht
  | move x y => exact hs.moveAssigned ht
  | write x i value =>
      obtain ⟨len, a, cells, hx, hcells, rfl, -⟩ := outcome_write ht
      exact hs.write hcells (List.length_set ..)
  | destroy x =>
      obtain ⟨msg, hx, rfl, -⟩ := outcome_destroy ht
      exact hs.release hx

/-- A copy assignment throws when it deletes the old buffer, stores the new length and then gets no
new buffer. -/
theorem copyAssign_throws {t : State V A} :
    outcome s (.copyAssign x y alloc) = some (t, true) ↔
      ∃ this msg, s.vars x = some this ∧ s.vars y = some msg ∧ x ≠ y ∧ alloc = none ∧
        msg.data ≠ none ∧ msg.len ≠ 0 ∧
        t = ⟨s.heap.delete this.data, Function.update s.vars x (some ⟨msg.len, this.data⟩)⟩ := by
  constructor
  · intro h
    obtain ⟨this, msg, hx, hy, ⟨-, -, hfalse⟩ | ⟨hxy, -, rfl, hthrew⟩⟩ := outcome_copyAssign h
    · cases hfalse
    · obtain ⟨rfl, hdata⟩ := initCopy_threw.mp hthrew.symm
      have hresult : this.copyAssign s.heap msg none = ⟨s.heap.delete this.data, _, true⟩ :=
        initCopy_none hdata
      obtain ⟨hnull, hlen⟩ := not_or.mp hdata
      refine ⟨this, msg, hx, hy, hxy, rfl, mt Message.pointer_isNull.mpr hnull, hlen, ?_⟩
      rw [hresult]
  · rintro ⟨this, msg, hx, hy, hxy, rfl, hnull, hlen, rfl⟩
    have hdata : ¬ (msg.pointer.isNull ∨ msg.len = 0) :=
      not_or.mpr ⟨mt Message.pointer_isNull.mp hnull, hlen⟩
    have hresult : this.copyAssign s.heap msg none = ⟨s.heap.delete this.data, _, true⟩ :=
      initCopy_none hdata
    have hfree : isFree (s.heap.delete this.data) (none : Option A) = true := rfl
    simp only [outcome, hx, hy, if_neg hxy, hfree, if_true, hresult]

/-- Only a copy assignment that throws can be left half done. -/
theorem nothingHalfDone_of_not_threw (hthrew : threw s op = false) : NothingHalfDone s op := by
  cases op with
  | copyAssign x y alloc =>
      cases alloc with
      | some a => trivial
      | none =>
          refine or_iff_not_imp_left.mpr fun hxy this msg hx hy => ?_
          by_contra! hno
          obtain ⟨hnull, hlen, -⟩ := hno
          have hthrows := copyAssign_throws.mpr ⟨this, msg, hx, hy, hxy, rfl, hnull, hlen, rfl⟩
          rw [threw, hthrows] at hthrew
          cases hthrew
  | _ => trivial

end Ownership

/-! ### Programs whose allocations succeed -/

section Ownership

variable {V A : Type*}

/-- No two variables share a buffer, none has one that is gone, none was deleted in vain, and the
buffers go with the variables. -/
structure UniqueOwnership (s : State V A) : Prop where
  apart : ∀ x y a, s.pointer x = some a → s.pointer y = some a → x = y
  live : ∀ x a, s.pointer x = some a → (s.heap.buffers a).isSome
  noBadDelete : s.heap.badDeletes = 0
  noneLeft : (∀ x, s.vars x = none) → ∀ a, s.heap.buffers a = none

theorem Sound.owners_apart {s : State V A} (hs : Sound s) : UniqueOwnership s := by
  refine ⟨hs.owned.apart, hs.owned.live, hs.owned.noBadDelete, fun hgone a => ?_⟩
  by_contra ha
  obtain ⟨x, hx⟩ := hs.owned.covered a (Option.isSome_iff_ne_none.mpr ha)
  rw [State.pointer, hgone x, Option.bind_none] at hx
  cases hx

variable [DecidableEq V] [DecidableEq A]

theorem sound_of_reachedBy {s : State V A}
    (h : (system V A).ReachedBy (fun s op => threw s op = false) s) : Sound s :=
  h.invariant sound_start
    fun _ _ _ _ hs hthrew hs' => hs.next (nothingHalfDone_of_not_threw hthrew) hs'

theorem uniqueOwnership {s : State V A}
    (h : (system V A).ReachedBy (fun s op => threw s op = false) s) : UniqueOwnership s :=
  (sound_of_reachedBy h).owners_apart

/-- Two variables, a copy over a moved-from one, and a new buffer where the old one was. -/
theorem uniqueOwnership_two_messages :
    ∃ s : State Bool ℕ, (system Bool ℕ).ReachedBy (fun s op => threw s op = false) s ∧
      s.heap.buffers 0 = some [some 7] ∧ UniqueOwnership s := by
  have hrun : (((system Bool ℕ).execWhile (fun s op => threw s op = false) (system Bool ℕ).start
      [.construct true (.vector [some 7]) (some 0), .moveConstruct false true,
        .copyAssign true false (some 1), .moveAssign false true,
        .copyAssign true false (some 0)]).any
      fun s => s.heap.buffers 0 == some [some 7]) = true := by decide
  obtain ⟨s, hs, hbuffer⟩ := TransitionSystem.exists_reachedBy_of_execWhile hrun
  exact ⟨s, hs, eq_of_beq hbuffer, uniqueOwnership hs⟩

end Ownership

/-! ### Programs whose allocations may fail -/

section Failure

variable {V A : Type*}

/-- The bytes that a variable's pointer leads to. -/
def State.contents (s : State V A) (x : V) : Option (List Cell) := (s.pointer x).bind s.heap.buffers

/-- Every pointer leads to a live buffer of the right length, and nothing was deleted in vain. -/
def Intact (s : State V A) : Prop :=
  (∀ x msg a, s.vars x = some msg → msg.data = some a →
    ∃ cells, s.heap.buffers a = some cells ∧ cells.length = msg.len) ∧ s.heap.badDeletes = 0

variable [DecidableEq V] [DecidableEq A] {s s' : State V A} {op : Op V A}

/-- A copy assignment that throws leaves its target with its pointer, its length and its bytes. -/
def TargetKept (s : State V A) : Op V A → Prop
  | .copyAssign x y alloc => ∀ s', outcome s (.copyAssign x y alloc) = some (s', true) →
      s'.vars x = s.vars x ∧ s'.contents x = s.contents x
  | _ => True

theorem targetKept_iff (hs : Sound s) : TargetKept s op ↔ NothingHalfDone s op := by
  cases op with
  | copyAssign x y alloc =>
      cases alloc with
      | some a =>
          refine iff_of_true (fun t ht => ?_) trivial
          obtain ⟨_, _, -, -, -, halloc, -⟩ := copyAssign_throws.mp ht
          cases halloc
      | none =>
          constructor
          · intro hkept
            refine or_iff_not_imp_left.mpr fun hxy this msg hx hy => ?_
            refine or_iff_not_imp_left.mpr fun hnull => or_iff_not_imp_left.mpr fun hlen => ?_
            have hthrows := copyAssign_throws.mpr ⟨this, msg, hx, hy, hxy, rfl, hnull, hlen, rfl⟩
            obtain ⟨hvar, hcontents⟩ := hkept _ hthrows
            simp only [Function.update_self, hx, Option.some.injEq] at hvar
            refine ⟨?_, (congrArg Message.len hvar).symm⟩
            -- a buffer would be gone with its bytes
            cases hdata : this.data with
            | none => rfl
            | some a =>
                obtain ⟨cells, hcells, -⟩ := hs.sized x this a hx hdata
                have hlive : (s.heap.buffers a).isSome := by rw [hcells]; rfl
                simp [State.contents, State.pointer, hx, hdata, hcells,
                  BufferHeap.delete_of_live hlive] at hcontents
          · intro hno t ht
            obtain ⟨this, msg, hx, hy, hxy, -, hnull, hlen, rfl⟩ := copyAssign_throws.mp ht
            obtain ⟨hthis, hsame⟩ :=
              (((hno.resolve_left hxy) this msg hx hy).resolve_left hnull).resolve_left hlen
            have hmessage : (⟨msg.len, this.data⟩ : Message A) = this := by rw [← hsame]
            rw [hmessage, hthis, BufferHeap.delete_none, ← hx, Function.update_eq_self]
            exact ⟨rfl, rfl⟩
  | _ => exact Iff.rfl

theorem assignmentSafe_iff (ops : List (Op V A)) :
    (system V A).Along TargetKept (system V A).start ops ∧
        (system V A).Throughout Intact (system V A).start ops ↔
      (system V A).Along NothingHalfDone (system V A).start ops := by
  constructor
  · rintro ⟨hkept, -⟩
    exact hkept.imp (I := Sound) (fun s op s' hs hk hs' => hs.next ((targetKept_iff hs).mp hk) hs')
      (fun s op hs => (targetKept_iff hs).mp) sound_start
  · intro hno
    have hstep : ∀ (s : State V A) op s', Sound s → NothingHalfDone s op →
        (system V A).next s op = some s' → Sound s' := fun s op s' hs => hs.next
    refine ⟨hno.imp hstep (fun s op hs => (targetKept_iff hs).mpr) sound_start, ?_⟩
    exact (hno.throughout hstep sound_start).mono fun s hs => ⟨hs.sized, hs.owned.noBadDelete⟩

/-- A copy over a variable with a buffer of its own finds no memory: the buffer is gone, the pointer
is still there, and the destructor deletes it again. -/
theorem not_assignmentSafe :
    ¬ ∀ ops : List (Op Bool ℕ),
      (system Bool ℕ).Along TargetKept (system Bool ℕ).start ops ∧
        (system Bool ℕ).Throughout Intact (system Bool ℕ).start ops := by
  intro hall
  have hthroughout := (hall [.construct true (.vector [some 7]) (some 0),
    .construct false (.vector [some 8, some 9]) (some 1), .copyAssign true false none,
    .destroy true]).2
  have hlast : ((system Bool ℕ).exec (system Bool ℕ).start
      [.construct true (.vector [some 7]) (some 0),
        .construct false (.vector [some 8, some 9]) (some 1), .copyAssign true false none,
        .destroy true]).any (fun s => s.heap.badDeletes = 1) = true := by decide
  obtain ⟨s, hs, hbad⟩ := (Option.any_eq_true _ _).mp hlast
  have hgood : s.heap.badDeletes = 0 := (hthroughout.last hs).2
  rw [of_decide_eq_true hbad] at hgood
  cases hgood

end Failure
end SocketLib.Messages
