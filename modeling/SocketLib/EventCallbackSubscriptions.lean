import SocketLib.EventCallback
import SocketLib.TransitionSystem

/-!
# Who is called after a run of subscriptions

What is subscribed is a set of pairs of an instance and a `ptr()`, as `operator==` tells them apart.
The hash table keeps to this set. The tree compares by `ptr()` alone: of the instances that
subscribe one member function it keeps the first, and it drops that one when any of them
unsubscribes.

`operator+=` and `operator-=` take a layer by value, and the constructor template of the layer is in
the way of its copy constructor. A layer that is passed as a named object of its own is never
copied: the constructor calls itself until the stack is used up (`ThinVirtualLayer.passed`).

A conversion to `std::function` has the address of its argument for a `ptr()`, and the argument is
gone at the next registration. Which lambdas are heard is up to the addresses (`heard_iff`).
-/

namespace SocketLib.EventCallback

/-- An instance and a `ptr()`. -/
abbrev Key := Address × Address

def ThinVirtualLayer.key {L : Type*} (layer : ThinVirtualLayer L) : Key := (layer.inst, layer.ptr)

/-- What kind of expression a layer is passed as. A const rvalue comes with the `std::function` that
is made of it. -/
inductive ValueCategory (L : Type*)
  | lvalue
  | constLvalue
  | rvalue
  | constRvalue (held : L) (handle : Address)

/-- The parameter of `operator+=` and `operator-=`. For a non-const lvalue `ThinVirtualLayer(F &&)`
is a better match than the copy constructor: it puts the layer into a `std::function`, which copies
it from a non-const lvalue again, and there is no end to this. It is a better match for a const
rvalue too, and then what is put into the `std::function` is a copy. -/
def ThinVirtualLayer.passed {L : Type*} (layer : ThinVirtualLayer L) :
    ValueCategory L → Option (ThinVirtualLayer L)
  | .lvalue => none
  | .constLvalue | .rvalue => some layer
  | .constRvalue held handle => some (.ofFunction held handle)

/-- The member functions that change a callback. -/
inductive Op (L : Type*)
  | addCallback (callback : ThinVirtualLayer L)
  | addFunction (callback : Address)
  | addMember (callback : MemberPointer) (inst : Address)
  | removeCallback (callback : ThinVirtualLayer L)
  | removeFunction (callback : Address)
  | removeMember (callback : MemberPointer)
  | clear

/-- What can be done to a callback from outside. -/
inductive Request (L : Type*)
  | call (op : Op L)
  | addAssign (callback : ThinVirtualLayer L) (category : ValueCategory L)
  | subAssign (callback : ThinVirtualLayer L) (category : ValueCategory L)

/-- The call that the operators make once they have their parameter. -/
def Request.op {L : Type*} : Request L → Option (Op L)
  | .call op => some op
  | .addAssign callback category => (callback.passed category).map .addCallback
  | .subAssign callback category => (callback.passed category).map .removeCallback

/-- The call for the layer that the operators are given. -/
def Request.meant {L : Type*} : Request L → Op L
  | .call op => op
  | .addAssign callback _ => .addCallback callback
  | .subAssign callback _ => .removeCallback callback

section Runs

variable {L : Type*}

/-- The subscription that is added. -/
def Op.added : Op L → Option (ThinVirtualLayer L)
  | .addCallback callback => some callback
  | .addFunction callback => some ⟨.pointer callback⟩
  | .addMember callback inst => some ⟨.member callback inst⟩
  | _ => none

/-- The subscription that is removed. -/
def Op.removed : Op L → Option (ThinVirtualLayer L)
  | .removeCallback callback => some callback
  | .removeFunction callback => some ⟨.pointer callback⟩
  | _ => none

theorem Op.added_or_removed (op : Op L) : (∃ callback, op.added = some callback) ∨
    (∃ callback, op.removed = some callback) ∨ (∃ callback, op = .removeMember callback) ∨
    op = .clear := by
  cases op with
  | addCallback _ | addFunction _ | addMember _ _ => exact Or.inl ⟨_, rfl⟩
  | removeCallback _ | removeFunction _ => exact Or.inr (Or.inl ⟨_, rfl⟩)
  | removeMember callback => exact Or.inr (Or.inr (Or.inl ⟨callback, rfl⟩))
  | clear => exact Or.inr (Or.inr (Or.inr rfl))

theorem Op.removed_of_added {op : Op L} {callback : ThinVirtualLayer L}
    (h : op.added = some callback) : op.removed = none := by
  cases op with
  | addCallback _ | addFunction _ | addMember _ _ => rfl
  | _ => cases h

namespace ThreadSafeEventCallback

variable {C : SetContainer (ThinVirtualLayer L)}

def apply (event : ThreadSafeEventCallback C) : Op L → ThreadSafeEventCallback C
  | .addCallback callback => event.addCallback callback
  | .addFunction callback => event.addFunction callback
  | .addMember callback inst => event.addMember callback inst
  | .removeCallback callback => event.removeCallback callback
  | .removeFunction callback => event.removeFunction callback
  | .removeMember callback => event.removeMember callback
  | .clear => event.clear

/-- The subscriptions that the next `invoke` calls, when none of them throws. -/
def called (event : ThreadSafeEventCallback C) : List (ThinVirtualLayer L) :=
  (event.invoke (fun callback () =>
    (⟨[⟨callback⟩], .returned ()⟩ : Run (ThinVirtualLayer L) (Thrown Empty) Unit)) ()).trace

theorem called_eq (event : ThreadSafeEventCallback C) : event.called = event.callbacks := by
  rw [called, invoke_of_returned fun _ _ => rfl]
  exact List.flatMap_singleton' event.callbacks

theorem apply_of_added {event : ThreadSafeEventCallback C} {op : Op L}
    {callback : ThinVirtualLayer L} (h : op.added = some callback) :
    event.apply op = event.addCallback callback := by
  cases op with
  | addCallback _ | addFunction _ | addMember _ _ =>
      obtain rfl := Option.some.inj h
      rfl
  | _ => cases h

theorem apply_of_removed {event : ThreadSafeEventCallback C} {op : Op L}
    {callback : ThinVirtualLayer L} (h : op.removed = some callback) :
    event.apply op = event.removeCallback callback := by
  cases op with
  | removeCallback _ | removeFunction _ =>
      obtain rfl := Option.some.inj h
      rfl
  | _ => cases h

end ThreadSafeEventCallback

/-- The subscriptions that were added and not since removed. -/
def subscribed (keys : Finset Key) : Op L → Finset Key
  | .addCallback callback => insert callback.key keys
  | .addFunction callback => insert (0, callback) keys
  | .addMember callback inst => insert (inst, callback.word) keys
  | .removeCallback callback => keys.erase callback.key
  | .removeFunction callback => keys.erase (0, callback)
  | .removeMember callback => keys.filter fun key => key.2 ≠ callback.word
  | .clear => ∅

variable {keys : Finset Key} {op : Op L} {callback : ThinVirtualLayer L}

theorem subscribed_of_added (h : op.added = some callback) :
    subscribed keys op = insert callback.key keys := by
  cases op with
  | addCallback _ | addFunction _ | addMember _ _ =>
      obtain rfl := Option.some.inj h
      rfl
  | _ => cases h

theorem subscribed_of_removed (h : op.removed = some callback) :
    subscribed keys op = keys.erase callback.key := by
  cases op with
  | removeCallback _ | removeFunction _ =>
      obtain rfl := Option.some.inj h
      rfl
  | _ => cases h

/-- The two kinds of callback after the same calls, and what is subscribed. -/
structure Subscriptions (L : Type*) (hashPointer : Address → UInt64) where
  ordered : OrderedEventCallback L
  unordered : UnorderedEventCallback L hashPointer
  keys : Finset Key

variable {hashPointer : Address → UInt64}

/-- There are no callbacks any more once the stack is used up. -/
def next (s : Option (Subscriptions L hashPointer)) (request : Request L) :
    Option (Option (Subscriptions L hashPointer)) :=
  some do
    let s ← s
    let op ← request.op
    pure ⟨s.ordered.apply op, s.unordered.apply op, subscribed s.keys request.meant⟩

variable (L hashPointer) in
def system : TransitionSystem (Option (Subscriptions L hashPointer)) (Request L) :=
  ⟨some ⟨⟨[]⟩, ⟨[]⟩, ∅⟩, next⟩

/-- Both kinds call every subscription once and nothing else, and hence the same ones. -/
structure Agrees (s : Subscriptions L hashPointer) : Prop where
  ordered : SetContainer.Holds ThinVirtualLayer.key s.ordered.called s.keys
  unordered : SetContainer.Holds ThinVirtualLayer.key s.unordered.called s.keys
  same : (s.ordered.called.map ThinVirtualLayer.key).Perm
    (s.unordered.called.map ThinVirtualLayer.key)

/-- There is a next `invoke`, and it does so. -/
def CallsSubscribed (s : Option (Subscriptions L hashPointer)) : Prop := ∃ t, s = some t ∧ Agrees t

/-- What is added or removed is not a subscribed function with another instance. -/
def OneInstance (keys : Finset Key) (op : Op L) : Prop :=
  ∀ callback, op.added = some callback ∨ op.removed = some callback →
    ∀ key ∈ keys, key.2 = callback.ptr → key.1 = callback.inst

/-- The layer is not passed as a non-const lvalue, what has become of it makes the same difference
to what is subscribed, and it is not a subscribed function with another instance. -/
def Carries (s : Option (Subscriptions L hashPointer)) (request : Request L) : Prop :=
  ∀ t, s = some t → ∃ op, request.op = some op ∧
    subscribed t.keys op = subscribed t.keys request.meant ∧ OneInstance t.keys op

/-- What the tree sees to by itself. -/
def Kept (s : Option (Subscriptions L hashPointer)) : Prop :=
  ∀ t, s = some t → SetContainer.Ascending ThinVirtualLayer.ptr t.ordered.callbacks

/-! ### One call -/

theorem key_eq_iff {a b : ThinVirtualLayer L} : a.key = b.key ↔ a.inst = b.inst ∧ a.ptr = b.ptr :=
  Prod.mk.injEq .. ▸ Iff.rfl

theorem eq_iff_key (a b : ThinVirtualLayer L) : a.eq b = true ↔ a.key = b.key := by
  rw [key_eq_iff, ThinVirtualLayer.eq, FunctionWrapper.eq, Bool.and_eq_true, decide_eq_true_eq,
    decide_eq_true_eq]
  rfl

theorem lt_iff_ptr (a b : ThinVirtualLayer L) : a.lt b = true ↔ a.ptr < b.ptr := decide_eq_true_iff

theorem ptr_eq_of_key (a b : ThinVirtualLayer L) (h : a.key = b.key) : a.ptr = b.ptr :=
  (key_eq_iff.mp h).2

theorem hash_eq_of_key (a b : ThinVirtualLayer L) (h : a.key = b.key) :
    a.hash hashPointer = b.hash hashPointer := by
  obtain ⟨hinst, hptr⟩ := key_eq_iff.mp h
  have hseed : a.func.inst = b.func.inst := hinst
  have hpointer : a.func.ptr = b.func.ptr := hptr
  rw [ThinVirtualLayer.hash, ThinVirtualLayer.hash, FunctionWrapper.hash, FunctionWrapper.hash,
    hseed, hpointer]

variable {s : Subscriptions L hashPointer}

theorem agrees_iff_holds
    (hs : SetContainer.Holds ThinVirtualLayer.key s.unordered.callbacks s.keys) :
    Agrees s ↔ SetContainer.Holds ThinVirtualLayer.key s.ordered.callbacks s.keys := by
  constructor
  · intro h
    rw [← s.ordered.called_eq]
    exact h.ordered
  · intro h
    have hordered : SetContainer.Holds ThinVirtualLayer.key s.ordered.called s.keys := by
      rwa [s.ordered.called_eq]
    have hunordered : SetContainer.Holds ThinVirtualLayer.key s.unordered.called s.keys := by
      rw [s.unordered.called_eq]
      exact hs
    exact ⟨hordered, hunordered, Multiset.coe_eq_coe.mp (hordered.trans hunordered.symm)⟩

theorem Agrees.unordered_holds (h : Agrees s) :
    SetContainer.Holds ThinVirtualLayer.key s.unordered.callbacks s.keys := by
  rw [← s.unordered.called_eq]
  exact h.unordered

/-- The hash table keeps to what is subscribed. -/
theorem unordered_apply_holds
    (hs : SetContainer.Holds ThinVirtualLayer.key s.unordered.callbacks s.keys) (op : Op L) :
    SetContainer.Holds ThinVirtualLayer.key (s.unordered.apply op).callbacks
      (subscribed s.keys op) := by
  rcases op.added_or_removed with ⟨callback, hop⟩ | ⟨callback, hop⟩ | ⟨callback, rfl⟩ | rfl
  · rw [ThreadSafeEventCallback.apply_of_added hop, subscribed_of_added hop]
    exact SetContainer.hashed_emplace_holds eq_iff_key hash_eq_of_key hs callback
  · rw [ThreadSafeEventCallback.apply_of_removed hop, subscribed_of_removed hop]
    exact SetContainer.hashed_erase_holds eq_iff_key hash_eq_of_key hs callback
  · exact hs.filter fun key => key.2 ≠ callback.word
  · exact SetContainer.holds_nil

theorem ordered_apply_ascending {event : OrderedEventCallback L}
    (h : SetContainer.Ascending ThinVirtualLayer.ptr event.callbacks) (op : Op L) :
    SetContainer.Ascending ThinVirtualLayer.ptr (event.apply op).callbacks := by
  rcases op.added_or_removed with ⟨callback, hop⟩ | ⟨callback, hop⟩ | ⟨callback, rfl⟩ | rfl
  · rw [ThreadSafeEventCallback.apply_of_added hop]
    exact SetContainer.orderedEmplace_ascending lt_iff_ptr h
  · rw [ThreadSafeEventCallback.apply_of_removed hop]
    exact SetContainer.orderedErase_ascending lt_iff_ptr h
  · exact h.filter _
  · exact List.Pairwise.nil

/-- No subscription of the same `ptr()` has another instance. -/
theorem oneInstance_iff (h : SetContainer.Holds ThinVirtualLayer.key s.ordered.callbacks s.keys)
    (hop : op.added = some callback ∨ op.removed = some callback) :
    OneInstance s.keys op ↔
      ∀ other ∈ s.ordered.callbacks, other.ptr = callback.ptr → other.key = callback.key := by
  have honly : ∀ c, op.added = some c ∨ op.removed = some c → c = callback := by
    intro c hc
    rcases hop with hop | hop
    · rcases hc with hc | hc
      · exact Option.some.inj (hc.symm.trans hop)
      · rw [Op.removed_of_added hop] at hc
        cases hc
    · rcases hc with hc | hc
      · rw [Op.removed_of_added hc] at hop
        cases hop
      · exact Option.some.inj (hc.symm.trans hop)
  constructor
  · intro hone other hother hptr
    have hkey : other.key ∈ s.keys := h.mem_iff.mpr ⟨other, hother, rfl⟩
    exact key_eq_iff.mpr ⟨hone callback hop other.key hkey hptr, hptr⟩
  · intro hall c hc key hkey hptr
    obtain rfl := honly c hc
    obtain ⟨other, hother, rfl⟩ := h.mem_iff.mp hkey
    exact (key_eq_iff.mp (hall other hother hptr)).1

/-- A call keeps the tree at what is subscribed just when it is about no function that another
instance subscribes. -/
theorem oneInstance_iff_holds
    (hascending : SetContainer.Ascending ThinVirtualLayer.ptr s.ordered.callbacks)
    (hholds : SetContainer.Holds ThinVirtualLayer.key s.ordered.callbacks s.keys) :
    OneInstance s.keys op ↔ SetContainer.Holds ThinVirtualLayer.key (s.ordered.apply op).callbacks
      (subscribed s.keys op) := by
  rcases op.added_or_removed with ⟨callback, hop⟩ | ⟨callback, hop⟩ | ⟨callback, rfl⟩ | rfl
  · rw [oneInstance_iff hholds (Or.inl hop), ThreadSafeEventCallback.apply_of_added hop,
      subscribed_of_added hop]
    exact (SetContainer.ordered_emplace_holds_iff lt_iff_ptr ptr_eq_of_key hascending
      hholds callback).symm
  · rw [oneInstance_iff hholds (Or.inr hop), ThreadSafeEventCallback.apply_of_removed hop,
      subscribed_of_removed hop]
    exact (SetContainer.ordered_erase_holds_iff lt_iff_ptr ptr_eq_of_key hascending
      hholds callback).symm
  · exact iff_of_true (fun c hc => by rcases hc with hc | hc <;> cases hc)
      (hholds.filter fun key => key.2 ≠ callback.word)
  · exact iff_of_true (fun c hc => by rcases hc with hc | hc <;> cases hc) SetContainer.holds_nil

/-! ### One request -/

variable {state state' : Option (Subscriptions L hashPointer)} {request : Request L}

theorem next_some (hop : request.op = some op) :
    next (some s) request =
      some (some ⟨s.ordered.apply op, s.unordered.apply op, subscribed s.keys request.meant⟩) := by
  rw [next, Option.bind_eq_bind, Option.bind_some, hop]
  rfl

theorem next_overflow (hop : request.op = none) : next (some s) request = some none := by
  rw [next, Option.bind_eq_bind, Option.bind_some, hop]
  rfl

theorem Kept.next (hs : Kept state) (h : next state request = some state') : Kept state' := by
  rintro t rfl
  cases state with
  | none => cases h
  | some s =>
      cases hop : request.op with
      | none =>
          rw [next_overflow hop] at h
          cases h
      | some op =>
          rw [next_some hop] at h
          obtain rfl := Option.some.inj (Option.some.inj h)
          exact ordered_apply_ascending (hs s rfl) op

/-- A call that makes another difference to what is subscribed than the one that was meant leaves
the hash table with something else. -/
theorem carries_iff_callsSubscribed (hs : Kept state) (h : CallsSubscribed state) :
    Carries state request ↔ ∀ state', next state request = some state' →
      CallsSubscribed state' := by
  obtain ⟨s, rfl, hagrees⟩ := h
  have hunordered := hagrees.unordered_holds
  have hholds := (agrees_iff_holds hunordered).mp hagrees
  have hascending := hs s rfl
  constructor
  · intro hcarries state' hnext
    obtain ⟨op, hop, hmeant, hone⟩ := hcarries s rfl
    rw [next_some hop, ← hmeant] at hnext
    obtain rfl := Option.some.inj hnext
    exact ⟨_, rfl, (agrees_iff_holds (unordered_apply_holds hunordered op)).mpr
      ((oneInstance_iff_holds hascending hholds).mp hone)⟩
  · rintro hall t ht
    obtain rfl := Option.some.inj ht
    cases hop : request.op with
    | none =>
        obtain ⟨t, ht, -⟩ := hall none (next_overflow hop)
        cases ht
    | some op =>
        obtain ⟨t, ht, hagrees'⟩ := hall _ (next_some hop)
        obtain rfl := Option.some.inj ht
        have hmeant : subscribed s.keys op = subscribed s.keys request.meant :=
          (unordered_apply_holds hunordered op).unique hagrees'.unordered_holds
        have hordered := (agrees_iff_holds hagrees'.unordered_holds).mp hagrees'
        refine ⟨op, rfl, hmeant, (oneInstance_iff_holds hascending hholds).mpr ?_⟩
        rw [hmeant]
        exact hordered

theorem callsSubscribed_iff (requests : List (Request L)) :
    (system L hashPointer).Throughout CallsSubscribed (system L hashPointer).start requests ↔
      (system L hashPointer).Along Carries (system L hashPointer).start requests := by
  apply TransitionSystem.throughout_iff_along_of_keeps (J := Kept)
    (fun _ _ _ hs h => hs.next h) (fun _ _ hs h => carries_iff_callsSubscribed hs h)
  · rintro t ht
    obtain rfl := Option.some.inj ht
    exact List.Pairwise.nil
  · exact ⟨_, rfl, SetContainer.holds_nil, SetContainer.holds_nil, .refl _⟩

/-- Two instances subscribe one member function, and only the first is called. -/
theorem not_callsSubscribed :
    ¬ ∀ requests : List (Request Unit),
      (system Unit fun address => UInt64.ofNat address).Throughout CallsSubscribed
        (system Unit fun address => UInt64.ofNat address).start requests := by
  intro hall
  have hthroughout := hall [.call (.addMember ⟨1, 0⟩ 2), .call (.addMember ⟨1, 0⟩ 3)]
  obtain ⟨t, ht, hlast⟩ := (hthroughout.2 _ rfl).2 _ rfl
  obtain rfl := Option.some.inj ht
  have hsame := hlast.same.length_eq
  cases hsame

end Runs

/-! ### Callables that are converted on registration -/

section Callables

variable {L : Type*}

/-- One `+=` after the other, each with the address that the temporary `std::function` has. -/
def subscribeAll (event : OrderedEventCallback L) :
    List (L × Address) → OrderedEventCallback L
  | [] => event
  | (held, handle) :: rest => subscribeAll (event.addCallback (.ofFunction held handle)) rest

def ThinVirtualLayer.callable? (layer : ThinVirtualLayer L) : Option L :=
  match layer.func with
  | .function held _ => some held
  | _ => none

/-- The next `invoke` calls every registered callable once. -/
def Heard (event : OrderedEventCallback L) (registered : List (L × Address)) : Prop :=
  (event.called.filterMap ThinVirtualLayer.callable?).Perm (registered.map Prod.fst)

variable {event : OrderedEventCallback L} {registered : List (L × Address)} {S : Finset Address}

/-- There is one subscription for each address. -/
theorem subscribeAll_holds
    (hevent : SetContainer.Ascending ThinVirtualLayer.ptr event.callbacks)
    (h : SetContainer.Holds ThinVirtualLayer.ptr event.callbacks S) :
    SetContainer.Holds ThinVirtualLayer.ptr (subscribeAll event registered).callbacks
      (S ∪ (registered.map Prod.snd).toFinset) := by
  induction registered generalizing event S with
  | nil => simpa [subscribeAll] using h
  | cons r rest ih =>
      obtain ⟨held, handle⟩ := r
      have hplaces := SetContainer.ordered_emplace_holds_iff lt_iff_ptr (fun _ _ => id) hevent h
        (ThinVirtualLayer.ofFunction held handle)
      have hstep := ih (SetContainer.orderedEmplace_ascending lt_iff_ptr hevent)
        (hplaces.mpr fun _ _ hptr => hptr)
      rw [Finset.insert_union, ← Finset.union_insert] at hstep
      rwa [List.map_cons, List.toFinset_cons]

/-- At new addresses every callable gets its own subscription. -/
theorem subscribeAll_perm (haddresses : (registered.map Prod.snd).Nodup)
    (hnew : ∀ layer ∈ event.callbacks, layer.ptr ∉ registered.map Prod.snd) :
    (subscribeAll event registered).callbacks.Perm
      ((registered.map fun r => ThinVirtualLayer.ofFunction r.1 r.2) ++ event.callbacks) := by
  induction registered generalizing event with
  | nil => exact .refl _
  | cons r rest ih =>
      obtain ⟨held, handle⟩ := r
      obtain ⟨hhandle, hrest⟩ := List.nodup_cons.mp haddresses
      have hadded : (event.addCallback (.ofFunction held handle)).callbacks.Perm
          (.ofFunction held handle :: event.callbacks) := by
        apply SetContainer.orderedEmplace_perm lt_iff_ptr
        intro layer hlayer hptr
        exact hnew layer hlayer (hptr ▸ List.mem_cons_self)
      have hfresh : ∀ layer ∈ (event.addCallback (.ofFunction held handle)).callbacks,
          layer.ptr ∉ rest.map Prod.snd := by
        intro layer hlayer hmem
        rcases List.mem_cons.mp (hadded.subset hlayer) with rfl | hold
        · exact hhandle hmem
        · exact hnew layer hold (List.mem_cons_of_mem _ hmem)
      exact (ih hrest hfresh).trans
        ((hadded.append_left _).trans List.perm_middle)

/-- A callable is lost when two of the temporaries have had one address, and only then. -/
theorem heard_iff (registered : List (L × Address)) :
    Heard (subscribeAll ⟨[]⟩ registered) registered ↔ (registered.map Prod.snd).Nodup := by
  constructor
  · intro hheard
    rw [Heard, ThreadSafeEventCallback.called_eq] at hheard
    have hholds : SetContainer.Holds ThinVirtualLayer.ptr (subscribeAll ⟨[]⟩ registered).callbacks
        (∅ ∪ (registered.map Prod.snd).toFinset) :=
      subscribeAll_holds List.Pairwise.nil SetContainer.holds_nil
    rw [Finset.empty_union] at hholds
    -- as many are called as there are different addresses
    have hcalled : registered.length ≤ (subscribeAll ⟨[]⟩ registered).callbacks.length := by
      rw [← List.length_map (f := Prod.fst), ← hheard.length_eq]
      exact List.length_filterMap_le _ _
    rw [hholds.length_eq, List.card_toFinset, ← List.length_map (f := Prod.snd)] at hcalled
    have hdedup := (List.dedup_sublist (registered.map Prod.snd)).eq_of_length_le hcalled
    rw [← hdedup]
    exact List.nodup_dedup _
  · intro haddresses
    have hperm : (subscribeAll ⟨[]⟩ registered).callbacks.Perm
        ((registered.map fun r => ThinVirtualLayer.ofFunction r.1 r.2) ++ []) :=
      subscribeAll_perm haddresses nofun
    rw [List.append_nil] at hperm
    rw [Heard, ThreadSafeEventCallback.called_eq]
    refine (hperm.filterMap ThinVirtualLayer.callable?).trans ?_
    rw [List.filterMap_map]
    have hcallable : ThinVirtualLayer.callable? ∘
        (fun r : L × Address => ThinVirtualLayer.ofFunction r.1 r.2) = fun r => some r.1 := rfl
    rw [hcallable, ← Function.comp_def some, List.filterMap_eq_map]

/-- The second lambda is converted where the first one was. -/
theorem not_heard :
    ¬ ∀ registered : List (Bool × Address), Heard (subscribeAll ⟨[]⟩ registered) registered := by
  intro hall
  have hlength := (hall [(true, 8), (false, 8)]).length_eq
  cases hlength

end Callables
end SocketLib.EventCallback
