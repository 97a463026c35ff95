import SocketLib.Channel
import SocketLib.LockHolder

/-!
# The two locks of a `Channel`

`readLock` and `writeLock` are only tried, never waited for. Every way out of `readData` and
`handleWriteQueue`, the caught exceptions included, releases the lock, so that each is held exactly
by the thread between its two program points (`Locked`). `writeThread` never runs, and nobody takes
the way of `queueWrite` that sends at once; two calls of `sendMessage` therefore never overlap.
-/

namespace SocketLib.Channel

open LockHolder

variable {T : Type*}

def Point.sender : Point T → Option (Sender T)
  | .sendTest _ sender | .sendLoop _ _ sender | .sendCall _ sender | .sendFailed sender =>
      some sender
  | _ => none

/-- Inside a call of `sendMessage`. -/
def Point.sends (p : Point T) : Bool := p.sender.isSome

/-- Between taking and releasing `writeLock`. -/
def Point.writes (p : Point T) : Bool :=
  match p with
  | .writeDequeue | .writeNext _ | .writeUnlock => true
  | _ => p.sends

/-- Between taking and releasing `readLock`. -/
def Point.reads : Point T → Bool
  | .readRecv _ | .readRecheck _ | .readEnqueue _ | .readListen | .readUnlock => true
  | _ => false

theorem Point.writes_of_sends {p : Point T} (h : p.sends) : p.writes := by
  cases p with
  | sendTest _ _ | sendLoop _ _ _ | sendCall _ _ | sendFailed _ => rfl
  | _ => cases h

structure Locked (s : State T) : Prop where
  writeThread : s.mem.writeThread = none
  sender : ∀ t, (s.points t).sender ≠ some .queueWrite
  write : Held Point.writes s.mem.writeLock s.points
  read : Held Point.reads s.mem.readLock s.points

theorem locked_initial : Locked (initial T) :=
  ⟨rfl, fun _ => nofun, fun _ => ⟨nofun, nofun⟩, fun _ => ⟨nofun, nofun⟩⟩

/-- Two calls of `sendMessage` never overlap. -/
theorem Locked.sends_unique {s : State T} (hl : Locked s) {t u : T} (ht : (s.points t).sends)
    (hu : (s.points u).sends) : t = u :=
  hl.write.unique (Point.writes_of_sends ht) (Point.writes_of_sends hu)

variable [DecidableEq T] {listening : Bool} {t : T} {m m' : Mem T} {p p' : Point T}
  {choice : Choice T} {s s' : State T} {a : Label T}

/-- A step takes and releases the locks for its own thread only. -/
theorem act_locked (hthread : m.writeThread = none) (hsender : p.sender ≠ some .queueWrite)
    (hwrite : p.writes ↔ m.writeLock = some t) (hread : p.reads ↔ m.readLock = some t) :
    act listening t m p choice = some (m', p') →
      m'.writeThread = none ∧ p'.sender ≠ some .queueWrite ∧
      ((p'.writes ↔ m'.writeLock = some t) ∧
        ∀ u ≠ t, m'.writeLock = some u ↔ m.writeLock = some u) ∧
      ((p'.reads ↔ m'.readLock = some t) ∧
        ∀ u ≠ t, m'.readLock = some u ↔ m.readLock = some u) := by
  fun_cases act listening t m p choice
  all_goals
    simp only [Option.some.injEq, Prod.mk.injEq, reduceCtorEq, false_implies, and_imp]
    try rintro rfl rfl
  all_goals try cases ‹Sender T›
  all_goals try split
  all_goals
    simp_all [Point.sender, Point.sends, Point.writes, Point.reads, Sender.returns,
      Sender.catches, Mem.queueShutdown]
  all_goals exact fun u hu => Ne.symm hu

theorem Locked.act (hl : Locked s)
    (h : act listening t s.mem (s.points t) choice = some (m', p')) :
    Locked ⟨m', Function.update s.points t p'⟩ := by
  obtain ⟨hthread, hsender, ⟨hwrite, hwrites⟩, hread, hreads⟩ :=
    act_locked hl.writeThread (hl.sender t) (hl.write t) (hl.read t) h
  constructor
  case writeThread => exact hthread
  case sender =>
    intro u
    by_cases hu : u = t
    · subst u
      simpa only [Function.update_self] using hsender
    · simpa only [Function.update_of_ne hu] using hl.sender u
  case write => exact hl.write.update hwrite hwrites
  case read => exact hl.read.update hread hreads

theorem Locked.next (hl : Locked s) (h : next listening s a = some s') : Locked s' := by
  obtain ⟨t, choice, m', p', rfl, hact, rfl⟩ | ⟨-, active, socketActive, rfl, -⟩ := next_cases h
  · exact hl.act hact
  · exact ⟨hl.writeThread, hl.sender, hl.write, hl.read⟩

theorem locked_of_reachable {guard : State T → Label T → Prop}
    (h : (system T listening).ReachedBy guard s) : Locked s :=
  h.invariant locked_initial (fun _ _ _ _ hl _ hs => hl.next hs)

/-- The flags of a channel go from true to false only. -/
theorem act_active : act listening t m p choice = some (m', p') →
    (m'.active = true → m.active = true) ∧ m'.socketActive = m.socketActive := by
  fun_cases act listening t m p choice
  all_goals
    simp only [Option.some.injEq, Prod.mk.injEq, reduceCtorEq, false_implies, and_imp]
    try rintro rfl rfl
  all_goals first | exact ⟨id, rfl⟩ | exact ⟨nofun, rfl⟩

end SocketLib.Channel
