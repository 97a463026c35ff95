import SocketLib.TransitionSystem

/-!
# `ConcurrentQueue`

A queue is one sub-queue for each producer. Only the producer enqueues in its sub-queue: it
constructs the element behind the others and then moves `tailIndex`. A dequeue goes round the
producers; in each sub-queue it adds to `dequeueOptimisticCount` what it wants, and compares with
the tail what the count was before, less the overcommit it has read. If that leaves enough it moves
`headIndex` on and takes the elements it has moved past; what it had added in vain it adds to
`dequeueOvercommit`.

The indices are kept as what they have counted. The code has the last 64 bits of them (`index`) and
compares those around the circle. An element is found by its index here; which block it lies in is
left to the allocation, which may fail. In which order a dequeue goes round the producers, and how
far, is left to the label: it is that of the list of producers, or that of a consumer token. An
enqueue without a token has the calling thread for a producer, so a producer belongs to one thread
at a time. Next to its fields the state keeps what each producer has enqueued.
-/

namespace SocketLib.ConcurrentQueue

def blockSize : ℕ := 32

/-- What the code has of an index. -/
def index (n : ℕ) : BitVec 64 := BitVec.ofNat 64 n

def circularLessThan (a b : BitVec 64) : Bool := (BitVec.ofNat 64 (2 ^ 63)).ult (a - b)

/-- `ProducerBase`, with the elements that are constructed. -/
structure Sub (α : Type*) where
  tailIndex : ℕ
  headIndex : ℕ
  dequeueOptimisticCount : ℕ
  dequeueOvercommit : ℕ
  elements : ℕ → Option α
  enqueued : List α

inductive Point (P α : Type*)
  | outside
  | enqueueReturn (ok : Bool)
  | dequeueReturn (batch : List (P × α))
  -- enqueue
  | enqueueTest (p : P) (x : α)
  | enqueueConstruct (p : P) (x : α)
  | enqueuePublish (p : P) (x : α)
  -- try_dequeue_bulk
  | nextProducer (max : ℕ) (batch : List (P × α))
  -- dequeue_bulk
  | loadTail (p : P) (max : ℕ) (batch : List (P × α))
  | loadOvercommit (p : P) (max : ℕ) (batch : List (P × α)) (tail : ℕ)
  | loadCount (p : P) (max : ℕ) (batch : List (P × α)) (tail overcommit : ℕ)
  | addCount (p : P) (max : ℕ) (batch : List (P × α)) (desired overcommit : ℕ)
  | reloadTail (p : P) (max : ℕ) (batch : List (P × α)) (desired overcommit mine : ℕ)
  | addSurplus (p : P) (max : ℕ) (batch : List (P × α)) (surplus actual : ℕ)
  | claim (p : P) (max : ℕ) (batch : List (P × α)) (actual : ℕ)
  | take (p : P) (max : ℕ) (batch : List (P × α)) (index stop : ℕ)
  | giveBack (p : P) (max : ℕ) (batch : List (P × α)) (desired : ℕ)
  deriving DecidableEq

/-- What a step leaves to the blocks there are, to the constructor of an element, and to the order of
the producers. -/
inductive Choice (P : Type*)
  | go
  | reuse
  | block (ok : Bool)
  | throw
  | visit (p : P)
  | finish

variable {T P α : Type*}

/-- The producer in whose sub-queue a thread is enqueuing. -/
def Point.producer : Point P α → Option P
  | .enqueueTest p _ | .enqueueConstruct p _ | .enqueuePublish p _ => some p
  | _ => none

/-- `static_cast<size_t>(tail - (count - overcommit))`. -/
def ahead (tail count overcommit : ℕ) : BitVec 64 := index tail - (index count - index overcommit)

section Steps

variable [DecidableEq P]

def act (subs : P → Sub α) : Point P α → Choice P → Option ((P → Sub α) × Point P α)
  -- enqueue
  | .enqueueTest p x, .go =>
      if (subs p).tailIndex % blockSize = 0 then none
      else some (subs, .enqueueConstruct p x)
  -- the empty block ahead of an explicit producer, or a new one
  | .enqueueTest p x, .reuse =>
      if (subs p).tailIndex % blockSize = 0 then some (subs, .enqueueConstruct p x) else none
  | .enqueueTest p x, .block ok =>
      if (subs p).tailIndex % blockSize = 0 then
        some (subs, if circularLessThan (index (subs p).headIndex)
            (index ((subs p).tailIndex + blockSize)) && ok
          then .enqueueConstruct p x else .enqueueReturn false)
      else none
  | .enqueueConstruct p x, .go =>
      some (Function.update subs p { subs p with
        elements := Function.update (subs p).elements (subs p).tailIndex (some x) },
        .enqueuePublish p x)
  | .enqueueConstruct _ _, .throw => some (subs, .outside)
  | .enqueuePublish p x, .go =>
      some (Function.update subs p { subs p with
        tailIndex := (subs p).tailIndex + 1
        enqueued := (subs p).enqueued ++ [x] }, .enqueueReturn true)
  -- try_dequeue_bulk
  | .nextProducer max batch, .visit p =>
      if batch.length = max then none else some (subs, .loadTail p max batch)
  | .nextProducer _ batch, .finish => some (subs, .dequeueReturn batch)
  -- dequeue_bulk
  | .loadTail p max batch, .go => some (subs, .loadOvercommit p max batch (subs p).tailIndex)
  | .loadOvercommit p max batch tail, .go =>
      some (subs, .loadCount p max batch tail (subs p).dequeueOvercommit)
  | .loadCount p max batch tail overcommit, .go =>
      some (subs, if circularLessThan 0 (ahead tail (subs p).dequeueOptimisticCount overcommit)
        then .addCount p max batch
          (min (ahead tail (subs p).dequeueOptimisticCount overcommit).toNat (max - batch.length))
          overcommit
        else .nextProducer max batch)
  | .addCount p max batch desired overcommit, .go =>
      some (Function.update subs p { subs p with
        dequeueOptimisticCount := (subs p).dequeueOptimisticCount + desired },
        .reloadTail p max batch desired overcommit (subs p).dequeueOptimisticCount)
  | .reloadTail p max batch desired overcommit mine, .go =>
      some (subs, if circularLessThan 0 (ahead (subs p).tailIndex mine overcommit) then
          if (ahead (subs p).tailIndex mine overcommit).toNat < desired then
            .addSurplus p max batch (desired - (ahead (subs p).tailIndex mine overcommit).toNat)
              (ahead (subs p).tailIndex mine overcommit).toNat
          else .claim p max batch desired
        else .giveBack p max batch desired)
  | .addSurplus p max batch surplus actual, .go =>
      some (Function.update subs p { subs p with
        dequeueOvercommit := (subs p).dequeueOvercommit + surplus }, .claim p max batch actual)
  | .claim p max batch actual, .go =>
      some (Function.update subs p { subs p with headIndex := (subs p).headIndex + actual },
        .take p max batch (subs p).headIndex ((subs p).headIndex + actual))
  | .take p max batch index stop, .go =>
      if index < stop then
        match (subs p).elements index with
        | some x =>
            some (Function.update subs p { subs p with
              elements := Function.update (subs p).elements index none },
              .take p max (batch ++ [(p, x)]) (index + 1) stop)
        | none => none
      else some (subs, .nextProducer max batch)
  | .giveBack p max batch desired, .go =>
      some (Function.update subs p { subs p with
        dequeueOvercommit := (subs p).dequeueOvercommit + desired }, .nextProducer max batch)
  | _, _ => none

end Steps

/-! ### The system -/

structure State (T P α : Type*) where
  subs : P → Sub α
  points : T → Point P α

inductive Label (T P α : Type*)
  | enqueue (t : T) (p : P) (x : α)
  | tryDequeueBulk (t : T) (max : ℕ)
  | run (t : T) (choice : Choice P)
  | ret (t : T)

variable [DecidableEq T]

def State.setPoint (s : State T P α) (t : T) (subs : P → Sub α) (p : Point P α) : State T P α :=
  ⟨subs, Function.update s.points t p⟩

theorem setPoint_self (s : State T P α) (t : T) (subs : P → Sub α) (p : Point P α) :
    (s.setPoint t subs p).points t = p := Function.update_self ..

theorem setPoint_ne (s : State T P α) {t u : T} (subs : P → Sub α) (p : Point P α) (h : u ≠ t) :
    (s.setPoint t subs p).points u = s.points u := Function.update_of_ne h ..

variable [DecidableEq P] [Fintype T]

/-- The calls of a thread outside the queue, and the returns of one inside. -/
def enter (s : State T P α) : Label T P α → Point P α → Option (Point P α)
  | .enqueue _ p x, .outside =>
      if ∀ u, (s.points u).producer ≠ some p then some (.enqueueTest p x) else none
  | .tryDequeueBulk _ max, .outside => if 0 < max then some (.nextProducer max []) else none
  | .ret _, .enqueueReturn _ => some .outside
  | .ret _, .dequeueReturn _ => some .outside
  | _, _ => none

def Label.thread : Label T P α → T
  | .enqueue t _ _ | .tryDequeueBulk t _ | .run t _ | .ret t => t

def next (s : State T P α) : Label T P α → Option (State T P α)
  | .run t choice =>
      (act s.subs (s.points t) choice).map (fun r => s.setPoint t r.1 r.2)
  | a => (enter s a (s.points a.thread)).map (s.setPoint a.thread s.subs)

variable (T P α) in
def initial : State T P α := ⟨fun _ => ⟨0, 0, 0, 0, fun _ => none, []⟩, fun _ => .outside⟩

variable (T P α) in
def system : TransitionSystem (State T P α) (Label T P α) := ⟨initial T P α, next⟩

/-- A thread calls a function of the queue, returns from one, or takes a step in one. -/
theorem next_cases {s s' : State T P α} {a : Label T P α} (h : next s a = some s') :
    (∃ t x, s' = s.setPoint t s.subs x ∧
      ((∃ p y, a = .enqueue t p y ∧ s.points t = .outside ∧
          (∀ u, (s.points u).producer ≠ some p) ∧ x = .enqueueTest p y) ∨
        (∃ max, a = .tryDequeueBulk t max ∧ s.points t = .outside ∧ 0 < max ∧
          x = .nextProducer max []) ∨
        (a = .ret t ∧ ((∃ ok, s.points t = .enqueueReturn ok) ∨
          ∃ batch, s.points t = .dequeueReturn batch) ∧ x = .outside))) ∨
      ∃ t choice subs x, a = .run t choice ∧ act s.subs (s.points t) choice = some (subs, x) ∧
        s' = s.setPoint t subs x := by
  cases a with
  | run t choice =>
      obtain ⟨⟨subs, x⟩, hact, rfl⟩ := Option.map_eq_some_iff.mp h
      exact Or.inr ⟨t, choice, subs, x, rfl, hact, rfl⟩
  | enqueue t p y =>
      obtain ⟨x, henter, rfl⟩ := Option.map_eq_some_iff.mp h
      refine Or.inl ⟨t, x, rfl, Or.inl ⟨p, y, rfl, ?_⟩⟩
      simp only [Label.thread] at henter
      cases hx : s.points t <;> simp only [hx, enter, reduceCtorEq] at henter
      split_ifs at henter with hfree
      exact ⟨rfl, hfree, (Option.some.inj henter).symm⟩
  | tryDequeueBulk t max =>
      obtain ⟨x, henter, rfl⟩ := Option.map_eq_some_iff.mp h
      refine Or.inl ⟨t, x, rfl, Or.inr (Or.inl ⟨max, rfl, ?_⟩)⟩
      simp only [Label.thread] at henter
      cases hx : s.points t <;> simp only [hx, enter, reduceCtorEq] at henter
      split_ifs at henter with hpos
      exact ⟨rfl, hpos, (Option.some.inj henter).symm⟩
  | ret t =>
      obtain ⟨x, henter, rfl⟩ := Option.map_eq_some_iff.mp h
      refine Or.inl ⟨t, x, rfl, Or.inr (Or.inr ⟨rfl, ?_⟩)⟩
      simp only [Label.thread] at henter
      cases hx : s.points t <;> simp only [hx, enter, reduceCtorEq] at henter
      case enqueueReturn ok => exact ⟨Or.inl ⟨ok, rfl⟩, (Option.some.inj henter).symm⟩
      case dequeueReturn batch => exact ⟨Or.inr ⟨batch, rfl⟩, (Option.some.inj henter).symm⟩

end SocketLib.ConcurrentQueue
