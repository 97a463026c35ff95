import SocketLib.Message

/-!
# What a `Message` stands for

Seen from outside a `Message` is a byte string: a constructor sets it, a copy takes the bytes of
its source, a move takes them away. Programs run on both levels at once, their allocations
succeeding. A move that takes from another variable leaves the length of what it took, so the two
levels part there, and only there, unless there was nothing to take.
-/

namespace SocketLib.Messages

/-! ### Byte strings -/

/-- The variables that are alive, each with its bytes. -/
abbrev Values (V : Type*) := V → Option (List Cell)

section Values

variable {V A : Type*} [DecidableEq V]

def Values.moved (vals : Values V) (x y : V) : Values V :=
  if x = y then vals else Function.update (Function.update vals x (vals y)) y (some [])

def Values.next (vals : Values V) : Op V A → Values V
  | .construct x source _ => Function.update vals x (some source.value)
  | .copyConstruct x y _ | .copyAssign x y _ => Function.update vals x (vals y)
  | .moveConstruct x y | .moveAssign x y | .move x y => vals.moved x y
  | .write x i value => Function.update vals x ((vals x).map fun bytes => bytes.set i (some value))
  | .destroy x => Function.update vals x none

/-- The target and the source of a statement that moves. -/
def Op.moves : Op V A → Option (V × V)
  | .moveConstruct x y | .moveAssign x y | .move x y => some (x, y)
  | _ => none

end Values

/-! ### Both levels -/

section Agrees

variable {A : Type*}

/-- What a reader of `toSpan` gets to see, when all of it is there. -/
def Message.toSpan (msg : Message A) (h : Heap A) : Option (List Cell) :=
  match msg.data with
  | none => if msg.len = 0 then some [] else none
  | some a =>
      (h.buffers a).bind fun cells =>
        if msg.len ≤ cells.length then some (cells.take msg.len) else none

/-- A message and the byte string it should be. -/
structure Agrees (h : Heap A) (msg : Message A) (bytes : List Cell) : Prop where
  null_iff : msg.data = none ↔ msg.len = 0
  sized : ∀ a, msg.data = some a → ∃ cells, h.buffers a = some cells ∧ cells.length = msg.len
  toSpan : msg.toSpan h = some bytes

variable {h h' : Heap A} {msg : Message A} {bytes : List Cell} {a : A}

theorem agrees_empty : Agrees h ⟨0, none⟩ [] := ⟨iff_of_true rfl rfl, nofun, rfl⟩

theorem agrees_buffer (hbytes : bytes ≠ []) (ha : h.buffers a = some bytes) :
    Agrees h ⟨bytes.length, some a⟩ bytes := by
  have hlen : bytes.length ≠ 0 := mt List.length_eq_zero_iff.mp hbytes
  refine ⟨iff_of_false nofun hlen, ?_, ?_⟩
  · intro b hb
    obtain rfl := Option.some.inj hb
    exact ⟨bytes, ha, rfl⟩
  · simp [Message.toSpan, ha]

/-- An empty message has no buffer, and another has one that holds just its bytes. -/
theorem Agrees.shape (hag : Agrees h msg bytes) :
    msg = ⟨0, none⟩ ∧ bytes = [] ∨
      ∃ a, msg = ⟨bytes.length, some a⟩ ∧ bytes ≠ [] ∧ h.buffers a = some bytes := by
  obtain ⟨len, data⟩ := msg
  cases data with
  | none =>
      obtain rfl : len = 0 := hag.null_iff.mp rfl
      exact Or.inl ⟨rfl, (Option.some.inj hag.toSpan).symm⟩
  | some a =>
      obtain ⟨cells, hcells, rfl⟩ := hag.sized a rfl
      have hspan := hag.toSpan
      simp only [Message.toSpan, hcells, Option.bind_some, le_refl, if_true, List.take_length,
        Option.some.injEq] at hspan
      subst hspan
      refine Or.inr ⟨a, rfl, ?_, hcells⟩
      rintro rfl
      cases hag.null_iff.mpr rfl

theorem Agrees.frame (hag : Agrees h msg bytes)
    (hframe : ∀ a, msg.data = some a → h'.buffers a = h.buffers a) : Agrees h' msg bytes := by
  rcases hag.shape with ⟨rfl, rfl⟩ | ⟨a, rfl, hbytes, ha⟩
  · exact agrees_empty
  · exact agrees_buffer hbytes ((hframe a rfl).trans ha)

theorem Agrees.frame_rel {m : Option (Message A)} {v : Option (List Cell)}
    (hrel : Option.Rel (Agrees h) m v)
    (hframe : ∀ msg a, m = some msg → msg.data = some a → h'.buffers a = h.buffers a) :
    Option.Rel (Agrees h') m v := by
  cases hrel with
  | none => exact .none
  | some hag => exact .some (hag.frame fun a => hframe _ a rfl)

theorem Agrees.readCells_eq (hag : Agrees h msg bytes) :
    readCells h msg.len msg.pointer = bytes := by
  rcases hag.shape with ⟨rfl, rfl⟩ | ⟨a, rfl, -, ha⟩
  · rfl
  · simp [Message.pointer, readCells, ha]

/-- `init` makes a message of the bytes it is given. -/
theorem Inits.agrees [DecidableEq A] {this : Message A} {alloc : Option A} {r : Result A}
    (hr : Inits this h alloc bytes r) (hthrew : r.threw = false) :
    Agrees r.heap r.message bytes := by
  cases hr with
  | empty => exact agrees_empty
  | fills a cells hcells => exact agrees_buffer hcells BufferHeap.new_buffers_self
  | throws => cases hthrew

end Agrees

structure Paired (V A : Type*) where
  state : State V A
  vals : Values V

section Paired

variable {V A : Type*}

/-- The same variables are alive on both levels, and they agree. -/
def Refines (p : Paired V A) : Prop :=
  ∀ x, Option.Rel (Agrees p.state.heap) (p.state.vars x) (p.vals x)

variable {s : State V A} {vals : Values V} {x y : V} {this other : Message A}

theorem Refines.alive (hr : Refines ⟨s, vals⟩) (hx : s.vars x = some this) :
    ∃ bytes, vals x = some bytes ∧ Agrees s.heap this bytes := by
  have h := hr x
  simp only [hx] at h
  cases hv : vals x with
  | none => rw [hv] at h; cases h
  | some bytes =>
      rw [hv] at h
      cases h with
      | some hag => exact ⟨bytes, rfl, hag⟩

/-- One variable changes on both levels, and the buffers of the others stay. -/
theorem Refines.update [DecidableEq V] {h' : Heap A} {m : Option (Message A)}
    {v : Option (List Cell)} (hr : Refines ⟨s, vals⟩)
    (hframe : ∀ y, y ≠ x → ∀ a, s.pointer y = some a → h'.buffers a = s.heap.buffers a)
    (hx : Option.Rel (Agrees h') m v) :
    Refines ⟨⟨h', Function.update s.vars x m⟩, Function.update vals x v⟩ := by
  intro y
  by_cases hyx : y = x
  · subst y
    simpa only [Function.update_self] using hx
  · simp only [Function.update_of_ne hyx]
    exact Agrees.frame_rel (hr y) fun msg a hmsg ha => hframe y hyx a ((pointer_eq hmsg).trans ha)

/-- A move from another variable keeps to the byte strings just when there is nothing to take. -/
theorem refines_take_iff [DecidableEq V] (hr : Refines ⟨s, vals⟩) (hy : s.vars y = some other) :
    Refines ⟨⟨s.heap, Function.update (Function.update s.vars x (some other)) y
        (some ⟨other.len, none⟩)⟩,
      Function.update (Function.update vals x (vals y)) y (some [])⟩ ↔ other.len = 0 := by
  constructor
  · intro hrefines
    have hy' := hrefines y
    simp only [Function.update_self] at hy'
    cases hy' with
    | some hag => exact hag.null_iff.mp rfl
  · intro hlen
    obtain ⟨bytes, hbytes, hag⟩ := hr.alive hy
    have hx' := hr.update (x := x) (fun _ _ _ _ => rfl) (.some hag)
    rw [hbytes, hlen]
    exact hx'.update (fun _ _ _ _ => rfl) (.some agrees_empty)

variable [DecidableEq V] [DecidableEq A]

def pairedNext (p : Paired V A) (op : Op V A) : Option (Paired V A) :=
  if threw p.state op then none
  else (next p.state op).map fun s => ⟨s, p.vals.next op⟩

def paired (V A : Type*) [DecidableEq V] [DecidableEq A] :
    TransitionSystem (Paired V A) (Op V A) :=
  ⟨⟨(system V A).start, fun _ => none⟩, pairedNext⟩

/-- What the statement moves away from another variable is nothing. -/
def MovesEmpty (p : Paired V A) (op : Op V A) : Prop :=
  ∀ x y other, op.moves = some (x, y) → (next p.state op).isSome → x ≠ y →
    p.state.vars y = some other → other.len = 0

/-! ### One statement -/

theorem Refines.release (hs : Sound s) (hr : Refines ⟨s, vals⟩) (hx : s.vars x = some this) :
    Refines ⟨⟨s.heap.delete this.data, Function.update s.vars x none⟩,
      Function.update vals x none⟩ := by
  refine hr.update (fun y hyx a hy => BufferHeap.delete_buffers_of_ne ?_) .none
  intro hthis
  exact hyx (hs.owned.apart y x a hy ((pointer_eq hx).trans hthis))

theorem Refines.fill {alloc : Option A} {bytes : List Cell} {r : Result A} (hs : Sound s)
    (hr : Refines ⟨s, vals⟩) (hfree : isFree s.heap alloc)
    (hinits : Inits this s.heap alloc bytes r) (hthrew : r.threw = false) (x : V) :
    Refines ⟨⟨r.heap, Function.update s.vars x (some r.message)⟩,
      Function.update vals x (some bytes)⟩ := by
  refine hr.update (fun y _ a hy => ?_) (.some (hinits.agrees hthrew))
  cases hinits with
  | empty => rfl
  | throws => rfl
  | fills b _ _ =>
      have hb : s.heap.buffers b = none := by simpa [isFree] using hfree
      apply BufferHeap.new_buffers_of_ne
      rintro rfl
      have hlive := hs.owned.live y a hy
      rw [hb] at hlive
      cases hlive

/-- Past its test for the same object `move` lets go of what the target has, and takes. -/
theorem refines_moved_iff (hs : Sound s) (hr : Refines ⟨s, vals⟩) (hx : s.vars x = some this)
    (hne : x ≠ y) (hy : s.vars y = some other) :
    Refines ⟨s.moved x y this other, vals.moved x y⟩ ↔ other.len = 0 := by
  have htake := refines_take_iff (x := x) (y := y) (hr.release hs hx)
    (by simpa only [Function.update_of_ne hne.symm] using hy)
  simp only [Function.update_idem, Function.update_of_ne hne.symm] at htake
  rw [Values.moved, if_neg hne]
  exact htake

/-- The first half lets the old buffer go, and the second one fills the target again. -/
theorem Refines.copyAssigned {alloc : Option A} {bytes : List Cell} (hs : Sound s)
    (hr : Refines ⟨s, vals⟩) (hx : s.vars x = some this) (hy : s.vars y = some other) (hne : x ≠ y)
    (hbytes : vals y = some bytes) (hfree : isFree (s.heap.delete this.data) alloc)
    (hthrew : (this.copyAssign s.heap other alloc).threw = false) :
    Refines ⟨⟨(this.copyAssign s.heap other alloc).heap,
        Function.update s.vars x (some (this.copyAssign s.heap other alloc).message)⟩,
      Function.update vals x (some bytes)⟩ := by
  have hrelease := hs.release hx
  have hvals := hr.release hs hx
  have hy' : Function.update s.vars x none y = some other := by
    rwa [Function.update_of_ne hne.symm]
  obtain ⟨bytes', hbytes', hag⟩ := hvals.alive hy'
  obtain rfl : bytes = bytes' := by
    rw [Function.update_of_ne hne.symm, hbytes] at hbytes'
    exact Option.some.inj hbytes'
  have hinits := hrelease.initCopy_inits hy' hfree this
  rw [hag.readCells_eq] at hinits
  have hfill := hvals.fill hrelease hfree hinits hthrew x
  simp only [Function.update_idem] at hfill
  exact hfill

theorem Refines.write {len : ℕ} {a : A} {cells : List Cell} (hs : Sound s)
    (hr : Refines ⟨s, vals⟩) (hx : s.vars x = some ⟨len, some a⟩)
    (ha : s.heap.buffers a = some cells) (i : ℕ) (value : UInt8) :
    Refines ⟨{ s with heap := s.heap.new a (cells.set i (some value)) },
      Function.update vals x ((vals x).map fun bytes => bytes.set i (some value))⟩ := by
  have hupdate : Refines ⟨⟨s.heap.new a (cells.set i (some value)),
      Function.update s.vars x (s.vars x)⟩,
      Function.update vals x ((vals x).map fun bytes => bytes.set i (some value))⟩ := by
    apply hr.update
    · intro y hyx b hy
      apply BufferHeap.new_buffers_of_ne
      rintro rfl
      exact hyx (hs.owned.apart y x b hy (pointer_eq hx))
    · obtain ⟨bytes, hbytes, hag⟩ := hr.alive hx
      rcases hag.shape with ⟨hempty, -⟩ | ⟨b, hmsg, hne, hb⟩
      · cases hempty
      · obtain ⟨rfl, hab⟩ := Message.mk.inj hmsg
        obtain rfl := Option.some.inj hab
        obtain rfl := Option.some.inj (ha.symm.trans hb)
        have hset : cells.set i (some value) ≠ [] := by simpa using hne
        have hagrees := agrees_buffer hset (BufferHeap.new_buffers_self (h := s.heap) (a := a))
        rw [List.length_set] at hagrees
        rw [hx, hbytes, Option.map_some]
        exact .some hagrees
  rwa [Function.update_eq_self] at hupdate

/-- A statement that throws nothing and moves nothing keeps to the byte strings. -/
theorem Refines.next {t : State V A} {op : Op V A} (hs : Sound s) (hr : Refines ⟨s, vals⟩)
    (hmoves : op.moves = none) (h : outcome s op = some (t, false)) :
    Refines ⟨t, vals.next op⟩ := by
  have hconstructed : ∀ {x alloc cells r}, isFree s.heap alloc → Inits .fresh s.heap alloc cells r →
      s.constructed x r = (t, false) → Refines ⟨t, Function.update vals x (some cells)⟩ := by
    intro x alloc cells r hfree hinits hr'
    rw [State.constructed] at hr'
    split_ifs at hr' with hthrew
    · cases hr'
    · obtain ⟨rfl, -⟩ := Prod.mk.inj hr'
      exact hr.fill hs hfree hinits (Bool.eq_false_iff.mpr hthrew) x
  cases op with
  | construct x source alloc =>
      obtain ⟨-, hvalid, hfree, hr'⟩ := outcome_construct h
      exact hconstructed hfree (construct_inits hvalid) hr'
  | copyConstruct x y alloc =>
      obtain ⟨msg, -, hy, hfree, hr'⟩ := outcome_copyConstruct h
      obtain ⟨bytes, hbytes, hag⟩ := hr.alive hy
      have hinits := hs.initCopy_inits hy hfree .fresh
      rw [hag.readCells_eq] at hinits
      rw [Values.next, hbytes]
      exact hconstructed hfree hinits hr'
  | copyAssign x y alloc =>
      obtain ⟨this, msg, hx, hy, hassign⟩ := outcome_copyAssign h
      obtain ⟨bytes, hbytes, -⟩ := hr.alive hy
      rw [Values.next, hbytes]
      rcases hassign with ⟨rfl, rfl, -⟩ | ⟨hxy, hfree, rfl, hthrew⟩
      · rwa [← hbytes, Function.update_eq_self]
      · exact hr.copyAssigned hs hx hy hxy hbytes hfree hthrew.symm
  | write x i value =>
      obtain ⟨len, a, cells, hx, hcells, rfl, -⟩ := outcome_write h
      exact hr.write hs hx hcells i value
  | destroy x =>
      obtain ⟨msg, hx, rfl, -⟩ := outcome_destroy h
      exact hr.release hs hx
  | _ => cases hmoves

theorem pairedNext_eq_some {p p' : Paired V A} {op : Op V A} :
    pairedNext p op = some p' ↔
      outcome p.state op = some (p'.state, false) ∧ p'.vals = p.vals.next op := by
  obtain ⟨t, vals'⟩ := p'
  rw [pairedNext, Messages.next, threw]
  rcases outcome p.state op with - | ⟨t', threw⟩
  · simp
  · cases threw with
    | false => simp [eq_comm]
    | true => simp

theorem refines_of_moves {t : State V A} {op : Op V A} {b : Bool} (hs : Sound s)
    (hr : Refines ⟨s, vals⟩) (hmoves : op.moves = some (x, y)) (h : outcome s op = some (t, b)) :
    b = false ∧ (Refines ⟨t, vals.next op⟩ ↔
      (x ≠ y → ∀ other, s.vars y = some other → other.len = 0)) := by
  have honly : ∀ {P : Message A → Prop} {other}, s.vars y = some other →
      (P other ↔ ∀ other, s.vars y = some other → P other) := by
    intro P other hy
    refine ⟨fun hP other' hy' => ?_, fun hall => hall other hy⟩
    rwa [← Option.some.inj (hy.symm.trans hy')]
  have hassigned : s.moveAssigned x y = some (t, b) → b = false ∧ (Refines ⟨t, vals.moved x y⟩ ↔
      (x ≠ y → ∀ other, s.vars y = some other → other.len = 0)) := by
    intro h
    obtain ⟨this, other, hx, hy, ⟨hxy, rfl⟩ | ⟨hxy, rfl⟩, rfl⟩ := moveAssigned_eq_some h
    · rw [Values.moved, if_pos hxy]
      exact ⟨rfl, iff_of_true hr fun hne => absurd hxy hne⟩
    · rw [refines_moved_iff hs hr hx hxy hy, honly (P := (·.len = 0)) hy]
      exact ⟨rfl, (imp_iff_right hxy).symm⟩
  cases op with
  | moveConstruct x y =>
      obtain ⟨rfl, rfl⟩ := Prod.mk.inj (Option.some.inj hmoves)
      obtain ⟨other, hx, hy, hxy, rfl, rfl⟩ := outcome_moveConstruct h
      have htake := refines_take_iff (x := x) hr hy
      rw [honly (P := (·.len = 0)) hy] at htake
      rw [Values.next, Values.moved, if_neg hxy]
      exact ⟨rfl, htake.trans (imp_iff_right hxy).symm⟩
  | moveAssign x y =>
      obtain ⟨rfl, rfl⟩ := Prod.mk.inj (Option.some.inj hmoves)
      exact hassigned h
  | move x y =>
      obtain ⟨rfl, rfl⟩ := Prod.mk.inj (Option.some.inj hmoves)
      exact hassigned h
  | _ => cases hmoves

/-- A statement keeps to the byte strings just when it moves nothing away from another variable. -/
theorem movesEmpty_iff {p : Paired V A} {op : Op V A} (hs : Sound p.state) (hr : Refines p) :
    MovesEmpty p op ↔ ∀ p', pairedNext p op = some p' → Refines p' := by
  obtain ⟨s, vals⟩ := p
  cases hmoves : op.moves with
  | none =>
      refine iff_of_true (fun x y other h => ?_) (fun p' hp' => ?_)
      · rw [hmoves] at h
        cases h
      · obtain ⟨hstate, hvals⟩ := pairedNext_eq_some.mp hp'
        obtain ⟨t, vals'⟩ := p'
        rw [show vals' = _ from hvals]
        exact hr.next hs hmoves hstate
  | some xy =>
      obtain ⟨x, y⟩ := xy
      constructor
      · intro hempty p' hp'
        obtain ⟨hstate, hvals⟩ := pairedNext_eq_some.mp hp'
        obtain ⟨t, vals'⟩ := p'
        rw [show vals' = _ from hvals]
        refine (refines_of_moves hs hr hmoves hstate).2.mpr fun hne other hy => ?_
        exact hempty x y other hmoves (by rw [next, hstate]; rfl) hne hy
      · intro hrefines x' y' other hmoves' hnext hne hy
        obtain ⟨rfl, rfl⟩ := Prod.mk.inj (Option.some.inj (hmoves.symm.trans hmoves'))
        obtain ⟨t, ht⟩ := Option.isSome_iff_exists.mp hnext
        obtain ⟨⟨t', b⟩, hout, -⟩ := Option.map_eq_some_iff.mp ht
        obtain ⟨rfl, hiff⟩ := refines_of_moves hs hr hmoves hout
        have hnext := hrefines ⟨t', vals.next op⟩ (pairedNext_eq_some.mpr ⟨hout, rfl⟩)
        exact hiff.mp hnext hne other hy

theorem sound_pairedNext {p p' : Paired V A} {op : Op V A} (hs : Sound p.state)
    (h : pairedNext p op = some p') : Sound p'.state := by
  obtain ⟨hstate, -⟩ := pairedNext_eq_some.mp h
  have hthrew : threw p.state op = false := by rw [threw, hstate]; rfl
  exact hs.next (nothingHalfDone_of_not_threw hthrew) (by rw [next, hstate]; rfl)

theorem refines_iff_movesEmpty (ops : List (Op V A)) :
    (paired V A).Throughout Refines (paired V A).start ops ↔
      (paired V A).Along MovesEmpty (paired V A).start ops :=
  TransitionSystem.throughout_iff_along_of_keeps (J := fun p => Sound p.state)
    (fun _ _ _ hs h => sound_pairedNext hs h) (fun _ _ hs hr => movesEmpty_iff hs hr)
    sound_start (fun _ => .none) ops

/-- A message of one byte is moved from, and still says that it is one byte long. -/
theorem not_refines :
    ¬ ∀ ops : List (Op Bool ℕ), (paired Bool ℕ).Throughout Refines (paired Bool ℕ).start ops := by
  intro hall
  have hthroughout := hall [.construct true (.vector [some 7]) (some 0), .moveConstruct false true]
  have hlast : ((paired Bool ℕ).exec (paired Bool ℕ).start
      [.construct true (.vector [some 7]) (some 0), .moveConstruct false true]).any
      (fun p => p.state.vars true = some ⟨1, none⟩) = true := by decide
  obtain ⟨p, hp, htrue⟩ := (Option.any_eq_true _ _).mp hlast
  obtain ⟨bytes, -, hag⟩ := Refines.alive (hthroughout.last hp) (of_decide_eq_true htrue)
  cases hag.null_iff.mp rfl

end Paired
end SocketLib.Messages
