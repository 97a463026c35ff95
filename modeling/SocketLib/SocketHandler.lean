import SocketLib.TransitionSystem
import Mathlib.Data.Finset.Card
import Mathlib.Data.List.AList

/-!
# The socket registry of `SocketHandler`

`createServerSocket`, `createClientSocket` and `destroySocket` keep the map `sockets` from ids to
the sockets they own. A socket object is told apart by its `address`, the number of objects
constructed before it. The outcome of a constructor is an argument of the call: `some what` when it
throws an exception with that text.

Each create gives its socket the id in `nextId` and then moves `nextId` by a rule of its own.
`emplace` keeps an entry that is already there, so a create that finds `nextId` taken returns the
older socket. A create is fresh exactly when `nextId` is not the id of a live socket
(`createFresh_iff`).

The three rules put `nextId` to the number of live sockets, to the id just destroyed, or one further
(`Numbering`). So the ids of a stretch of server sockets go up from where the last client or destroy
has put them, and a sequence of calls is fresh exactly when they never run into one that was in use
there (`runFresh_iff_keepsOff`). When all creates succeed and nothing is destroyed, a client can
only be the last (`runFresh_creates_iff`).
-/

namespace SocketLib.SocketHandler

inductive SocketKind
  | server
  | client
  deriving DecidableEq

structure Socket where
  address : ℕ
  kind : SocketKind
  id : UInt32
  deriving DecidableEq

structure Handler where
  nextId : UInt32
  active : Bool
  sockets : AList (fun _ : UInt32 => Socket)
  constructed : ℕ

inductive Call
  | createServerSocket (failure : Option String)
  | createClientSocket (failure : Option String)
  | destroySocket (id : UInt32)

/-- `unordered_map::emplace` with `first->second` of its result: an existing entry stays. -/
def emplace (sockets : AList (fun _ : UInt32 => Socket)) (id : UInt32) (socket : Socket) :
    AList (fun _ : UInt32 => Socket) × Socket :=
  match sockets.lookup id with
  | some existing => (sockets, existing)
  | none => (sockets.insert id socket, socket)

def inactiveMessage : String := "Socket handler is no longer active!"

/-- The body the two creates share: the socket of the given kind is constructed with the id `nextId`
had, after `nextId` has got the new value. -/
def create (h : Handler) (kind : SocketKind) (nextId : UInt32) (failure : Option String) :
    Handler × Except String Socket :=
  if h.active then
    let id := h.nextId
    let h := { h with nextId := nextId }
    match failure with
    | some what => (h, .error what)
    | none =>
        let placed := emplace h.sockets id ⟨h.constructed, kind, id⟩
        ({ h with sockets := placed.1, constructed := h.constructed + 1 }, .ok placed.2)
  else (h, .error inactiveMessage)

def createServerSocket (h : Handler) (failure : Option String) : Handler × Except String Socket :=
  create h .server (h.nextId + 1) failure

/-- `nextId` becomes the size of the map before the insertion. -/
def createClientSocket (h : Handler) (failure : Option String) : Handler × Except String Socket :=
  create h .client (UInt32.ofNat h.sockets.entries.length) failure

def destroySocket (h : Handler) (id : UInt32) : Handler :=
  match h.sockets.lookup id with
  | some _ => { h with sockets := h.sockets.erase id, nextId := id }
  | none => h

/-- The handler as its constructor leaves it. -/
def initial : Handler := ⟨0, true, ∅, 0⟩

/-- The state after a call, with what the call returns; a destroy returns no socket. -/
def perform (h : Handler) : Call → Handler × Option (Except String Socket)
  | .createServerSocket failure => (createServerSocket h failure).map id some
  | .createClientSocket failure => (createClientSocket h failure).map id some
  | .destroySocket id => (destroySocket h id, none)

def system : TransitionSystem Handler Call := ⟨initial, fun h c => some (perform h c).1⟩

/-- The sockets that the creates of a run return. -/
def returned (h : Handler) : List Call → List Socket
  | [] => []
  | c :: cs =>
      match (perform h c).2 with
      | some (.ok socket) => socket :: returned (perform h c).1 cs
      | _ => returned (perform h c).1 cs

/-! ### What is claimed of a create, and when it holds -/

def Call.kind? : Call → Option SocketKind
  | .createServerSocket _ => some .server
  | .createClientSocket _ => some .client
  | .destroySocket _ => none

/-- A create that returns gives the socket constructed by this call, under an id that no live socket
had, and every other live socket stays registered under its id. -/
def CreateFresh (h : Handler) (c : Call) : Prop :=
  ∀ socket, (perform h c).2 = some (.ok socket) →
    socket.address = h.constructed ∧ c.kind? = some socket.kind ∧
      h.sockets.lookup socket.id = none ∧
      (perform h c).1.sockets.lookup socket.id = some socket ∧
      ∀ id other, h.sockets.lookup id = some other →
        (perform h c).1.sockets.lookup id = some other

/-- The id a create is about to use is not the id of a live socket; nothing is asked of a create
whose constructor throws. -/
def NextIdFree (h : Handler) : Call → Prop
  | .createServerSocket none | .createClientSocket none => h.sockets.lookup h.nextId = none
  | _ => True

/-- Every socket in the map was constructed before and is registered under its own id. -/
structure Registered (h : Handler) : Prop where
  active : h.active = true
  older : ∀ id socket, h.sockets.lookup id = some socket → socket.address < h.constructed
  ownId : ∀ id socket, h.sockets.lookup id = some socket → socket.id = id

theorem emplace_free {sockets : AList (fun _ : UInt32 => Socket)} {id : UInt32} (socket : Socket)
    (h : sockets.lookup id = none) :
    emplace sockets id socket = (sockets.insert id socket, socket) := by
  simp only [emplace, h]

theorem emplace_taken {sockets : AList (fun _ : UInt32 => Socket)} {id : UInt32} {existing : Socket}
    (socket : Socket) (h : sockets.lookup id = some existing) :
    emplace sockets id socket = (sockets, existing) := by
  simp only [emplace, h]

theorem lookup_emplace {sockets : AList (fun _ : UInt32 => Socket)} {id id' : UInt32}
    {socket found : Socket} (h : (emplace sockets id socket).1.lookup id' = some found) :
    sockets.lookup id' = some found ∨ (id' = id ∧ found = socket) := by
  cases hid : sockets.lookup id with
  | some existing =>
      rw [emplace_taken socket hid] at h
      exact Or.inl h
  | none =>
      rw [emplace_free socket hid] at h
      by_cases he : id' = id
      · subst he
        rw [AList.lookup_insert] at h
        exact Or.inr ⟨rfl, (Option.some.inj h).symm⟩
      · rw [AList.lookup_insert_ne he] at h
        exact Or.inl h

variable {h : Handler}

theorem Registered.create (hr : Registered h) (kind : SocketKind) (nextId : UInt32)
    (failure : Option String) : Registered (create h kind nextId failure).1 := by
  unfold SocketHandler.create
  rw [if_pos hr.active]
  cases failure with
  | some what => exact ⟨hr.active, hr.older, hr.ownId⟩
  | none =>
      refine ⟨hr.active, ?_, ?_⟩
      · intro id socket hl
        rcases lookup_emplace hl with hold | ⟨-, rfl⟩
        · exact (hr.older id socket hold).trans (Nat.lt_succ_self _)
        · exact Nat.lt_succ_self _
      · intro id socket hl
        rcases lookup_emplace hl with hold | ⟨rfl, rfl⟩
        · exact hr.ownId id socket hold
        · rfl

theorem Registered.destroySocket (hr : Registered h) (id : UInt32) :
    Registered (destroySocket h id) := by
  unfold SocketHandler.destroySocket
  have herase : ∀ id' socket, (h.sockets.erase id).lookup id' = some socket →
      h.sockets.lookup id' = some socket := by
    intro id' socket hl
    by_cases he : id' = id
    · subst he
      rw [AList.lookup_erase] at hl
      cases hl
    · rwa [AList.lookup_erase_ne he] at hl
  cases h.sockets.lookup id with
  | some _ =>
      exact ⟨hr.active, fun id' s hl => hr.older id' s (herase id' s hl),
        fun id' s hl => hr.ownId id' s (herase id' s hl)⟩
  | none => exact hr

theorem Registered.perform (hr : Registered h) (c : Call) : Registered (perform h c).1 := by
  cases c with
  | createServerSocket failure => exact hr.create .server _ failure
  | createClientSocket failure => exact hr.create .client _ failure
  | destroySocket id => exact hr.destroySocket id

theorem registered_of_reachable (hr : system.Reachable h) : Registered h := by
  refine hr.invariant ?_ ?_
  · refine ⟨rfl, ?_, ?_⟩ <;>
      · intro id socket hl
        change (∅ : AList (fun _ : UInt32 => Socket)).lookup id = some socket at hl
        rw [AList.lookup_empty] at hl
        cases hl
  · intro s c s' _ hI _ hs
    obtain rfl := Option.some.inj hs
    exact hI.perform c

/-- What a create does on an active handler whose constructor call succeeds. -/
theorem create_ok (hr : Registered h) (kind : SocketKind) (nextId : UInt32) :
    create h kind nextId none =
      ({ h with
          nextId := nextId
          sockets := (emplace h.sockets h.nextId ⟨h.constructed, kind, h.nextId⟩).1
          constructed := h.constructed + 1 },
        .ok (emplace h.sockets h.nextId ⟨h.constructed, kind, h.nextId⟩).2) := by
  simp only [create, hr.active, if_true]

theorem createFresh_create_iff (hr : Registered h) (kind : SocketKind) (nextId : UInt32) :
    (∀ socket, (create h kind nextId none).2 = .ok socket →
      socket.address = h.constructed ∧ kind = socket.kind ∧
        h.sockets.lookup socket.id = none ∧
        (create h kind nextId none).1.sockets.lookup socket.id = some socket ∧
        ∀ id other, h.sockets.lookup id = some other →
          (create h kind nextId none).1.sockets.lookup id = some other) ↔
      h.sockets.lookup h.nextId = none := by
  rw [create_ok hr]
  constructor
  · intro hfresh
    cases hl : h.sockets.lookup h.nextId with
    | none => rfl
    | some existing =>
        -- `emplace` returned a socket that was constructed before this call
        rw [emplace_taken _ hl] at hfresh
        have hlt := hr.older _ _ hl
        have heq := (hfresh existing rfl).1
        omega
  · intro hfree socket hs
    rw [emplace_free _ hfree] at hs ⊢
    obtain rfl := Except.ok.inj hs
    refine ⟨rfl, rfl, hfree, AList.lookup_insert _, ?_⟩
    intro id other hother
    have hne : id ≠ h.nextId := by
      rintro rfl
      rw [hfree] at hother
      cases hother
    rwa [AList.lookup_insert_ne hne]

/-- A create whose constructor throws returns no socket. -/
theorem create_error (h : Handler) (kind : SocketKind) (nextId : UInt32) (what : String) :
    ∃ message, (create h kind nextId (some what)).2 = .error message := by
  unfold create
  split_ifs
  · exact ⟨what, rfl⟩
  · exact ⟨inactiveMessage, rfl⟩

theorem createFresh_iff (hr : Registered h) (c : Call) : CreateFresh h c ↔ NextIdFree h c := by
  have hsome : ∀ r : Except String Socket, ∀ socket, some r = some (.ok socket) ↔ r = .ok socket :=
    fun r socket => ⟨Option.some.inj, congrArg some⟩
  cases c with
  | createServerSocket failure =>
      cases failure with
      | none =>
          simp only [CreateFresh, NextIdFree, perform, Prod.map, createServerSocket, hsome,
            Call.kind?, Option.some.injEq, id_eq]
          exact createFresh_create_iff hr .server (h.nextId + 1)
      | some what =>
          obtain ⟨message, hm⟩ := create_error h .server (h.nextId + 1) what
          simp [CreateFresh, NextIdFree, perform, createServerSocket, hm]
  | createClientSocket failure =>
      cases failure with
      | none =>
          simp only [CreateFresh, NextIdFree, perform, Prod.map, createClientSocket, hsome,
            Call.kind?, Option.some.injEq, id_eq]
          exact createFresh_create_iff hr .client _
      | some what =>
          obtain ⟨message, hm⟩ := create_error h .client
            (UInt32.ofNat h.sockets.entries.length) what
          simp [CreateFresh, NextIdFree, perform, createClientSocket, hm]
  | destroySocket id => simp [CreateFresh, NextIdFree, perform]

/-! ### Runs -/

theorem constructed_le_perform (h : Handler) (c : Call) :
    h.constructed ≤ (perform h c).1.constructed := by
  have hcreate : ∀ kind nextId failure,
      h.constructed ≤ (create h kind nextId failure).1.constructed := by
    intro kind nextId failure
    unfold create
    split_ifs
    · cases failure with
      | none => exact Nat.le_succ _
      | some what => exact Nat.le_refl _
    · exact Nat.le_refl _
  cases c with
  | createServerSocket failure => exact hcreate _ _ _
  | createClientSocket failure => exact hcreate _ _ _
  | destroySocket id =>
      simp only [perform, destroySocket]
      cases h.sockets.lookup id <;> exact Nat.le_refl _

theorem constructed_lt_of_ok {c : Call} {socket : Socket}
    (hok : (perform h c).2 = some (.ok socket)) : h.constructed < (perform h c).1.constructed := by
  have hcreate : ∀ kind nextId failure, (create h kind nextId failure).2 = .ok socket →
      h.constructed < (create h kind nextId failure).1.constructed := by
    intro kind nextId failure hs
    unfold create at hs ⊢
    split_ifs at hs ⊢
    cases failure with
    | none => exact Nat.lt_succ_self _
    | some what => cases hs
  cases c with
  | createServerSocket failure => exact hcreate _ _ _ (Option.some.inj hok)
  | createClientSocket failure => exact hcreate _ _ _ (Option.some.inj hok)
  | destroySocket id => cases hok

/-- In a fresh run the creates return objects of increasing addresses. -/
theorem returned_sorted {cs : List Call} (hfresh : system.Along CreateFresh h cs) :
    (∀ socket ∈ returned h cs, h.constructed ≤ socket.address) ∧
      (returned h cs).Pairwise (fun a b => a.address < b.address) := by
  induction cs generalizing h with
  | nil => simp [returned]
  | cons c cs ih =>
      obtain ⟨hc, hrest⟩ := hfresh
      obtain ⟨hle, hsorted⟩ := ih (hrest _ rfl)
      have hstep := constructed_le_perform h c
      have hold : ∀ socket ∈ returned (perform h c).1 cs, h.constructed ≤ socket.address :=
        fun socket hs => hstep.trans (hle socket hs)
      unfold returned
      split
      · rename_i socket hok
        have haddr := (hc socket hok).1
        have hlt := constructed_lt_of_ok hok
        refine ⟨?_, List.Pairwise.cons ?_ hsorted⟩
        · intro other hother
          rcases List.mem_cons.mp hother with rfl | hother
          · exact haddr.ge
          · exact hold other hother
        · intro other hother
          have hge := hle other hother
          omega
      · exact ⟨hold, hsorted⟩

/-- Each create of the run that returns is fresh, and no two creates return the same socket. -/
def RunFresh (cs : List Call) : Prop :=
  system.Along CreateFresh initial cs ∧ (returned initial cs).Nodup

/-- A run of creates, failing creates and destroys is fresh exactly when `nextId` is free at each
create that constructs a socket. -/
theorem runFresh_iff_nextIdFree (cs : List Call) :
    RunFresh cs ↔ system.Along NextIdFree initial cs := by
  have hiff := TransitionSystem.along_congr (S := system)
    (fun h c hr => createFresh_iff (registered_of_reachable hr) c) .start cs
  constructor
  · exact fun hfresh => hiff.mp hfresh.1
  · intro hfree
    have hfresh := hiff.mpr hfree
    refine ⟨hfresh, (returned_sorted hfresh).2.imp ?_⟩
    rintro a b hlt rfl
    exact Nat.lt_irrefl _ hlt

/-! ### The condition on the calls -/

/-- What a sequence of calls says about the ids: the id that the last client or the last destroy has
put `nextId` to, the ids in use right after that call, and for each call of `createServerSocket`
since then whether the constructor has returned. -/
structure Numbering where
  base : UInt32
  live : Finset UInt32
  servers : List Bool

namespace Numbering

/-- The id of a server socket. One whose constructor throws uses up its id as well. -/
def idOf (s : Numbering) (i : ℕ) : UInt32 := s.base + UInt32.ofNat i

/-- The server sockets constructed since. -/
def constructed (s : Numbering) : Finset ℕ :=
  (Finset.range s.servers.length).filter fun i => s.servers[i]? = some true

def ids (s : Numbering) : Finset UInt32 := s.live ∪ s.constructed.image s.idOf

def call (s : Numbering) : Call → Numbering
  | .createServerSocket failure => { s with servers := s.servers ++ [failure.isNone] }
  | .createClientSocket none =>
      ⟨UInt32.ofNat s.ids.card, insert (s.idOf s.servers.length) s.ids, []⟩
  | .createClientSocket (some _) => ⟨UInt32.ofNat s.ids.card, s.ids, []⟩
  | .destroySocket id => if id ∈ s.ids then ⟨id, s.ids.erase id, []⟩ else s

/-- The next id was not in use at the last client or destroy, and the server sockets constructed
since are not a whole round of ids back. -/
structure Off (s : Numbering) : Prop where
  live : s.idOf s.servers.length ∉ s.live
  round : ∀ i ∈ s.constructed, i % 2 ^ 32 ≠ s.servers.length % 2 ^ 32

end Numbering

def numbering : TransitionSystem Numbering Call := ⟨⟨0, ∅, []⟩, fun s c => some (s.call c)⟩

/-- The constructor of a socket is called and returns. -/
def Call.Constructs : Call → Prop
  | .createServerSocket failure | .createClientSocket failure => failure = none
  | .destroySocket _ => False

/-- At every create that constructs a socket the ids keep off those in use. -/
def KeepsOff (cs : List Call) : Prop :=
  numbering.Along (fun s c => c.Constructs → s.Off) numbering.start cs

namespace Numbering

variable {s : Numbering} {i j : ℕ}

theorem idOf_eq_iff : s.idOf i = s.idOf j ↔ i % 2 ^ 32 = j % 2 ^ 32 := by
  rw [idOf, idOf, UInt32.add_right_inj, ← UInt32.toNat_inj, UInt32.toNat_ofNat',
    UInt32.toNat_ofNat']

theorem off_iff : s.Off ↔ s.idOf s.servers.length ∉ s.ids := by
  constructor
  · intro hoff hmem
    rcases Finset.mem_union.mp hmem with hlive | hsince
    · exact hoff.live hlive
    · obtain ⟨i, hi, heq⟩ := Finset.mem_image.mp hsince
      exact hoff.round i hi (idOf_eq_iff.mp heq)
  · intro hnot
    refine ⟨fun hlive => hnot (Finset.mem_union_left _ hlive), fun i hi heq => hnot ?_⟩
    exact Finset.mem_union_right _ (Finset.mem_image.mpr ⟨i, hi, idOf_eq_iff.mpr heq⟩)

theorem constructed_server (b : Bool) :
    ({ s with servers := s.servers ++ [b] } : Numbering).constructed =
      if b then insert s.servers.length s.constructed else s.constructed := by
  ext i
  have hlast : ∀ i, (s.servers ++ [b])[i]? = some true ↔
      s.servers[i]? = some true ∨ (i = s.servers.length ∧ b = true) := by
    intro i
    rcases Nat.lt_trichotomy i s.servers.length with hlt | rfl | hgt
    · rw [List.getElem?_append_left hlt]
      simp [hlt.ne]
    · simp
    · rw [List.getElem?_append_right hgt.le, List.getElem?_eq_none (by simp; omega),
        List.getElem?_eq_none hgt.le]
      simp [hgt.ne']
  have hmem : ∀ (s : Numbering) i, i ∈ s.constructed ↔ s.servers[i]? = some true := by
    intro s i
    rw [constructed, Finset.mem_filter, Finset.mem_range, and_iff_right_iff_imp]
    exact fun h => (List.getElem?_eq_some_iff.mp h).1
  cases b <;> simp [hmem, hlast, or_comm]

/-- A server socket takes the next id. -/
theorem ids_server (b : Bool) :
    ({ s with servers := s.servers ++ [b] } : Numbering).ids =
      if b then insert (s.idOf s.servers.length) s.ids else s.ids := by
  rw [ids, constructed_server]
  cases b with
  | false => rfl
  | true => exact (congrArg _ (Finset.image_insert ..)).trans (Finset.union_insert ..)

theorem idOf_server (b : Bool) :
    ({ s with servers := s.servers ++ [b] } : Numbering).idOf (s.servers ++ [b]).length =
      s.idOf s.servers.length + 1 := by
  change s.base + UInt32.ofNat (s.servers ++ [b]).length =
    s.base + UInt32.ofNat s.servers.length + 1
  rw [List.length_append, List.length_singleton, UInt32.ofNat_add, UInt32.add_assoc]
  rfl

theorem ids_anew (base : UInt32) (live : Finset UInt32) :
    (⟨base, live, []⟩ : Numbering).ids = live :=
  Finset.union_empty live

theorem idOf_anew (base : UInt32) (live : Finset UInt32) :
    (⟨base, live, []⟩ : Numbering).idOf 0 = base := UInt32.add_zero base

end Numbering

variable {h : Handler} {s : Numbering}

/-- The handler has come to the ids that the calls say. -/
structure Follows (h : Handler) (s : Numbering) : Prop where
  active : h.active = true
  nextId : h.nextId = s.idOf s.servers.length
  ids : h.sockets.keys.toFinset = s.ids

theorem Follows.lookup_iff (hf : Follows h s) (id : UInt32) :
    h.sockets.lookup id = none ↔ id ∉ s.ids := by
  rw [← hf.ids, List.mem_toFinset, AList.lookup_eq_none]
  rfl

theorem Follows.card (hf : Follows h s) : h.sockets.entries.length = s.ids.card := by
  rw [← hf.ids, List.toFinset_card_of_nodup h.sockets.keys_nodup, AList.keys]
  exact (List.length_map ..).symm

theorem Follows.nextIdFree_iff (hf : Follows h s) (c : Call) :
    NextIdFree h c ↔ (c.Constructs → s.Off) := by
  have hfree : h.sockets.lookup h.nextId = none ↔ s.Off := by
    rw [hf.lookup_iff, hf.nextId, Numbering.off_iff]
  cases c with
  | createServerSocket failure | createClientSocket failure =>
      cases failure with
      | none => exact hfree.trans ⟨fun hoff _ => hoff, fun hoff => hoff rfl⟩
      | some what => exact iff_of_true trivial nofun
  | destroySocket id => exact iff_of_true trivial nofun

/-- The ids after a socket has been put in at a free id. -/
theorem Follows.insert (hf : Follows h s) (hfree : h.sockets.lookup h.nextId = none)
    (socket : Socket) : (h.sockets.insert h.nextId socket).keys.toFinset =
      insert (s.idOf s.servers.length) s.ids := by
  rw [AList.keys_insert, List.erase_of_not_mem, List.toFinset_cons, hf.ids, hf.nextId]
  exact fun hmem => (AList.lookup_eq_none.mp hfree) hmem

theorem Follows.perform (hf : Follows h s) {c : Call} (hfree : NextIdFree h c) :
    Follows (perform h c).1 (s.call c) := by
  cases c with
  | createServerSocket failure =>
      have hnext : h.nextId + 1 = s.idOf s.servers.length + 1 := by rw [hf.nextId]
      cases failure with
      | none =>
          have hfree : h.sockets.lookup h.nextId = none := hfree
          simp only [SocketHandler.perform, createServerSocket, create, hf.active, if_true,
            emplace_free _ hfree, Prod.map, id_eq]
          exact ⟨rfl, hnext.trans (Numbering.idOf_server true).symm,
            (hf.insert hfree _).trans (Numbering.ids_server true).symm⟩
      | some what =>
          simp only [SocketHandler.perform, createServerSocket, create, hf.active, if_true,
            Prod.map, id_eq]
          exact ⟨rfl, hnext.trans (Numbering.idOf_server false).symm,
            hf.ids.trans (Numbering.ids_server false).symm⟩
  | createClientSocket failure =>
      cases failure with
      | none =>
          have hfree : h.sockets.lookup h.nextId = none := hfree
          simp only [SocketHandler.perform, createClientSocket, create, hf.active, if_true,
            emplace_free _ hfree, Prod.map, id_eq, hf.card]
          exact ⟨rfl, (Numbering.idOf_anew ..).symm,
            (hf.insert hfree _).trans (Numbering.ids_anew ..).symm⟩
      | some what =>
          simp only [SocketHandler.perform, createClientSocket, create, hf.active, if_true,
            Prod.map, id_eq, hf.card]
          exact ⟨rfl, (Numbering.idOf_anew ..).symm,
            hf.ids.trans (Numbering.ids_anew ..).symm⟩
  | destroySocket id =>
      simp only [SocketHandler.perform, destroySocket, Numbering.call]
      cases hl : h.sockets.lookup id with
      | none =>
          rw [if_neg ((hf.lookup_iff id).mp hl)]
          exact hf
      | some socket =>
          have hmem : id ∈ s.ids := by
            by_contra hnot
            rw [(hf.lookup_iff id).mpr hnot] at hl
            cases hl
          rw [if_pos hmem]
          refine ⟨hf.active, (Numbering.idOf_anew ..).symm, ?_⟩
          rw [Numbering.ids_anew, ← hf.ids]
          ext id'
          simp only [List.mem_toFinset, Finset.mem_erase]
          exact AList.mem_erase

theorem follows_start : Follows initial numbering.start := ⟨rfl, rfl, rfl⟩

theorem nextIdFree_along_iff (hf : Follows h s) (cs : List Call) :
    system.Along NextIdFree h cs ↔ numbering.Along (fun s c => c.Constructs → s.Off) s cs := by
  induction cs generalizing h s with
  | nil => exact Iff.rfl
  | cons c cs ih =>
      constructor
      · rintro ⟨hfree, hrest⟩
        refine ⟨(hf.nextIdFree_iff c).mp hfree, fun s' hs' => ?_⟩
        obtain rfl := Option.some.inj hs'
        exact (ih (hf.perform hfree)).mp (hrest _ rfl)
      · rintro ⟨hoff, hrest⟩
        have hfree := (hf.nextIdFree_iff c).mpr hoff
        refine ⟨hfree, fun h' hh' => ?_⟩
        obtain rfl := Option.some.inj hh'
        exact (ih (hf.perform hfree)).mpr (hrest _ rfl)

/-- A run of creates, failing creates and destroys is fresh exactly when its calls keep the ids off
those in use. -/
theorem runFresh_iff_keepsOff (cs : List Call) : RunFresh cs ↔ KeepsOff cs :=
  (runFresh_iff_nextIdFree cs).trans (nextIdFree_along_iff follows_start cs)

/-! ### Creates that all succeed -/

def SocketKind.create : SocketKind → Call
  | .server => .createServerSocket none
  | .client => .createClientSocket none

/-- After this many server sockets, and nothing else. -/
def serversOnly (n : ℕ) : Numbering := ⟨0, ∅, List.replicate n true⟩

theorem constructed_serversOnly (n : ℕ) : (serversOnly n).constructed = Finset.range n := by
  rw [Numbering.constructed, serversOnly, List.length_replicate, Finset.filter_eq_self]
  intro i hi
  exact List.getElem?_replicate_of_lt (Finset.mem_range.mp hi)

theorem off_serversOnly {n : ℕ} (hn : n < 2 ^ 32) : (serversOnly n).Off := by
  refine ⟨Finset.notMem_empty _, fun i hi => ?_⟩
  rw [constructed_serversOnly, Finset.mem_range] at hi
  have hlength : (serversOnly n).servers.length = n := List.length_replicate ..
  rw [hlength, Nat.mod_eq_of_lt (hi.trans hn), Nat.mod_eq_of_lt hn]
  exact hi.ne

/-- The client itself has the id that `nextId` becomes. -/
theorem not_off_client {n : ℕ} (hn : n < 2 ^ 32) :
    ¬ ((serversOnly n).call (.createClientSocket none)).Off := by
  intro hoff
  apply hoff.live
  have hcard : (serversOnly n).ids.card = n := by
    have hinjective : Set.InjOn (serversOnly n).idOf (Finset.range n) := by
      intro i hi j hj heq
      rw [Finset.mem_coe, Finset.mem_range] at hi hj
      have hmod := Numbering.idOf_eq_iff.mp heq
      rwa [Nat.mod_eq_of_lt (hi.trans hn), Nat.mod_eq_of_lt (hj.trans hn)] at hmod
    rw [Numbering.ids, constructed_serversOnly, serversOnly, Finset.empty_union]
    exact (Finset.card_image_of_injOn hinjective).trans (Finset.card_range n)
  have hnext : ((serversOnly n).call (.createClientSocket none)).idOf 0 =
      (serversOnly n).idOf (serversOnly n).servers.length := by
    have hlength : (serversOnly n).servers.length = n := List.length_replicate ..
    rw [hlength, Numbering.call, Numbering.idOf_anew, hcard]
    exact (UInt32.zero_add _).symm
  exact hnext ▸ Finset.mem_insert_self _ _

theorem serversOnly_succ (n : ℕ) :
    (serversOnly n).call (.createServerSocket none) = serversOnly (n + 1) :=
  congrArg (Numbering.mk 0 ∅) List.replicate_succ'.symm

/-- When no constructor throws and nothing is destroyed, a client has to be the last. -/
theorem runFresh_creates_iff {kinds : List SocketKind} (hlength : kinds.length ≤ 2 ^ 32) :
    RunFresh (kinds.map SocketKind.create) ↔ .client ∉ kinds.dropLast := by
  have hfrom : ∀ n, n + kinds.length ≤ 2 ^ 32 →
      (numbering.Along (fun s c => c.Constructs → s.Off) (serversOnly n)
        (kinds.map SocketKind.create) ↔ .client ∉ kinds.dropLast) := by
    clear hlength
    induction kinds with
    | nil => exact fun _ _ => iff_of_true trivial nofun
    | cons kind kinds ih =>
        intro n hn
        rw [List.length_cons] at hn
        have hoff := off_serversOnly (n := n) (by omega)
        cases kind with
        | server =>
            have hrest := ih (n + 1) (by omega)
            rw [← serversOnly_succ] at hrest
            cases kinds with
            | nil => exact iff_of_true ⟨fun _ => hoff, fun _ _ => trivial⟩ nofun
            | cons next kinds =>
                rw [List.dropLast_cons_cons, List.mem_cons, or_iff_right nofun, ← hrest]
                constructor
                · exact fun h => h.2 _ rfl
                · intro h
                  refine ⟨fun _ => hoff, fun s' hs' => ?_⟩
                  obtain rfl := Option.some.inj hs'
                  exact h
        | client =>
            cases kinds with
            | nil => exact iff_of_true ⟨fun _ => hoff, fun _ _ => trivial⟩ nofun
            | cons next kinds =>
                refine iff_of_false (fun h => ?_) (fun h => h List.mem_cons_self)
                have hnext := (h.2 _ rfl).1
                exact not_off_client (by omega) (hnext (by cases next <;> rfl))
  exact (runFresh_iff_keepsOff _).trans (hfrom 0 (by omega))

/-- The first client socket leaves `nextId` at the size the map had before it, zero, which is its
own id: the second create returns the first one's socket. -/
theorem not_runFresh : ¬ ∀ cs, RunFresh cs := by
  intro hfresh
  have hrun := (hfresh [.createClientSocket none, .createClientSocket none]).2
  revert hrun
  decide

end SocketLib.SocketHandler
