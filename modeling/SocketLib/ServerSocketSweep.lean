import SocketLib.ServerSocketCustody

/-!
# The closes of the server's own sweeps

`threadLoop` and the destructor pick an entry of `clientDescriptors` without the lock, and
`closeClient` looks it up again under the lock. The lookup fails, and the exception ends the
process, when another thread has taken the entry out in between. `SweepClear` excludes exactly that
a call of `closeClient` takes out an entry another thread's sweep stands on: the one its iterator
points to, the one it is looking at, or the one it has asked to be closed. Under it whatever a sweep
stands on is in the map (`Footing`), so its iterators never dangle and its closes never fail.
-/

namespace SocketLib.ServerSocket

def Caller.iterator : Caller → Option Entry
  | .user => none
  | .threadLoop it | .destructor it => it

/-- A sweep at this point is going to use the entry. -/
def StandsOn (p : Point) (e : Entry) : Prop :=
  match p with
  | .sweepNext it | .destroyNext it => it = some e
  | .sweepTest entry it | .sweepSelect entry it => entry = e ∨ it = some e
  | .closeAcquire fd caller | .closeFind fd caller =>
      (caller ≠ .user ∧ fd = e.1) ∨ caller.iterator = some e
  | .closing _ _ _ caller => caller.iterator = some e
  | _ => False

instance (p : Point) (e : Entry) : Decidable (StandsOn p e) := by
  unfold StandsOn
  split <;> infer_instance

/-- No `closeClient` takes an entry out of the map that another thread's sweep stands on. -/
def SweepClear {T : Type*} (s : State T) : Label T → Prop
  | .thread t _ =>
      match s.points t with
      | .closeFind fd _ =>
          match s.mem.find fd with
          | some e => ∀ u, u ≠ t → ¬ StandsOn (s.points u) e
          | none => True
      | _ => True
  | _ => True

/-- Every call that reached the exception was made by a user. -/
def ClosesSucceed {T : Type*} (s : State T) : Prop :=
  ∀ t caller, s.points t = .closeThrow caller → caller = .user

/-- The iterator is at the end or at an entry of the map. -/
def Valid (m : Mem) (it : Option Entry) : Prop := ∀ e, it = some e → e ∈ m.clients

def Footing (m : Mem) : Point → Prop
  | .sweepNext it | .destroyNext it => Valid m it
  | .sweepTest entry it | .sweepSelect entry it => entry ∈ m.clients ∧ it ≠ some entry ∧ Valid m it
  | .closeAcquire fd caller | .closeFind fd caller =>
      (caller ≠ .user → ∃ e ∈ m.clients, e.1 = fd ∧ caller.iterator ≠ some e) ∧
        Valid m caller.iterator
  | .closing _ _ _ caller => Valid m caller.iterator
  | .closeThrow caller => caller = .user
  | _ => True

section Walk

variable {m m' : Mem}

theorem valid_none (m : Mem) : Valid m none := fun _ h => nomatch h

theorem valid_head (m : Mem) : Valid m m.clients.head? := fun _ h => List.mem_of_mem_head? h

theorem successor_mem {e e' : Entry} {clients : List Entry}
    (h : Mem.successor e clients = some e') : e' ∈ clients := by
  induction clients with
  | nil => cases h
  | cons x rest ih =>
      simp only [Mem.successor] at h
      split_ifs at h with hx
      · exact List.mem_cons_of_mem x (List.mem_of_mem_head? h)
      · exact List.mem_cons_of_mem x (ih h)

theorem successor_ne {e : Entry} {clients : List Entry} (hnodup : clients.Nodup) :
    Mem.successor e clients ≠ some e := by
  induction clients with
  | nil => exact fun h => nomatch h
  | cons x rest ih =>
      obtain ⟨hx, hrest⟩ := List.nodup_cons.mp hnodup
      simp only [Mem.successor]
      split_ifs with heq
      · subst x
        exact fun h => hx (List.mem_of_mem_head? h)
      · exact ih hrest

theorem Valid.mono {it : Option Entry} (h : Valid m it)
    (hm : ∀ e ∈ m.clients, e ∈ m'.clients) : Valid m' it := fun e he => hm e (h e he)

theorem Valid.erase {it : Option Entry} {e : Entry} (h : Valid m it) (hne : it ≠ some e) :
    Valid (m.erase e) it := by
  intro e' he'
  refine (List.mem_erase_of_ne ?_).mpr (h e' he')
  rintro rfl
  exact hne he'

theorem Footing.mono {p : Point} (h : Footing m p) (hm : ∀ e ∈ m.clients, e ∈ m'.clients) :
    Footing m' p := by
  have hclose : ∀ fd caller, Footing m (.closeFind fd caller) →
      Footing m' (.closeFind fd caller) := by
    intro fd caller hf
    refine ⟨fun hcaller => ?_, hf.2.mono hm⟩
    obtain ⟨e, he, hrest⟩ := hf.1 hcaller
    exact ⟨e, hm e he, hrest⟩
  cases p with
  | sweepNext it => exact Valid.mono h hm
  | destroyNext it => exact Valid.mono h hm
  | sweepTest entry it => exact ⟨hm _ h.1, h.2.1, h.2.2.mono hm⟩
  | sweepSelect entry it => exact ⟨hm _ h.1, h.2.1, h.2.2.mono hm⟩
  | closeAcquire fd caller => exact hclose fd caller h
  | closeFind fd caller => exact hclose fd caller h
  | closing phase c fd caller => exact Valid.mono h hm
  | _ => exact h

/-- A sweep keeps its footing when an entry it does not stand on goes. -/
theorem Footing.erase {p : Point} {e : Entry} (h : Footing m p) (hne : ¬ StandsOn p e) :
    Footing (m.erase e) p := by
  have hclose : ∀ fd caller, Footing m (.closeFind fd caller) →
      ¬ StandsOn (.closeFind fd caller) e → Footing (m.erase e) (.closeFind fd caller) := by
    intro fd caller hf hnot
    simp only [StandsOn, not_or, not_and] at hnot
    refine ⟨fun hcaller => ?_, hf.2.erase hnot.2⟩
    obtain ⟨e', he', hfd, hit⟩ := hf.1 hcaller
    refine ⟨e', (List.mem_erase_of_ne ?_).mpr he', hfd, hit⟩
    rintro rfl
    exact hnot.1 hcaller hfd.symm
  have hsweep : ∀ entry it, Footing m (.sweepTest entry it) → ¬ StandsOn (.sweepTest entry it) e →
      Footing (m.erase e) (.sweepTest entry it) := by
    intro entry it hf hnot
    simp only [StandsOn, not_or] at hnot
    exact ⟨(List.mem_erase_of_ne hnot.1).mpr hf.1, hf.2.1, hf.2.2.erase hnot.2⟩
  cases p with
  | sweepNext it => exact Valid.erase h hne
  | destroyNext it => exact Valid.erase h hne
  | sweepTest entry it => exact hsweep entry it h hne
  | sweepSelect entry it => exact hsweep entry it h hne
  | closeAcquire fd caller => exact hclose fd caller h hne
  | closeFind fd caller => exact hclose fd caller h hne
  | closing phase c fd caller => exact Valid.erase h hne
  | _ => exact h

theorem Footing.resume {caller : Caller} (h : Valid m caller.iterator) :
    Footing m caller.resume := by
  cases caller with
  | user => trivial
  | threadLoop it => exact h
  | destructor it => exact h

/-- A step takes at most the entry that `closeClient` has found out of the map. -/
theorem Moves.clients_cases {registered : Bool} {p p' : Point} (h : Moves registered m p m' p') :
    (∀ e ∈ m.clients, e ∈ m'.clients) ∨
      ∃ fd caller e, p = .closeFind fd caller ∧ m.find fd = some e ∧ m' = m.erase e := by
  cases h with
  | carriesOn hs => exact Or.inl (fun e he => hs.clients ▸ he)
  | drops hs => exact Or.inl (fun e he => hs.clients ▸ he)
  | accepts => exact Or.inl (fun e he => he)
  | registers c clients p' hp hfind hperm =>
      exact Or.inl (fun e he => hperm.mem_iff.mpr (List.mem_cons_of_mem _ he))
  | removes fd caller e hp hfind => exact Or.inr ⟨fd, caller, e, hp, hfind, rfl⟩
  | invokes => exact Or.inl (fun e he => he)
  | shuts => exact Or.inl (fun e he => by rwa [shutdown_clients])
  | closes => exact Or.inl (fun e he => by rwa [close_clients])

/-- A sweep that stands on entries of the map reads them as they are, finds the one it has asked to
be closed, and steps to entries of the map. -/
theorem act_footing {registered : Bool} {p p' : Point} {ch : Choice}
    (hkeys : (m.clients.map Prod.fst).Nodup) (hlisted : ∀ e ∈ m.clients, Listed m e)
    (h : Footing m p) : act registered m p ch = some (m', p') → Footing m' p' := by
  have hread : ∀ e entry it, e ∈ m.clients →
      (e ∈ m.clients → entry = e ∧ it = Mem.successor e m.clients) →
      entry ∈ m.clients ∧ it ≠ some entry ∧ Valid m it := by
    intro e entry it he hchoice
    obtain ⟨rfl, rfl⟩ := hchoice he
    exact ⟨he, successor_ne (hkeys.of_map _), fun _ hs => successor_mem hs⟩
  fun_cases act registered m p ch
  all_goals
    simp only [Option.some.injEq, Prod.mk.injEq, reduceCtorEq, false_implies, and_imp]
    try rintro rfl rfl
  -- the steps to a point where nothing is asked
  all_goals try exact trivial
  all_goals try (split <;> exact trivial)
  · exact ⟨fun hcaller => absurd rfl hcaller, valid_none m⟩
  · exact valid_head m
  · rename_i e entry it hchoice
    exact hread e entry it (h e rfl) hchoice
  · rename_i entry it active hchoice
    cases active
    · exact h
    · exact h.2.2
  · rename_i entry it fd hchoice
    refine ⟨fun _ => ⟨entry, h.1, ?_, h.2.1⟩, h.2.2⟩
    exact (hlisted entry h.1).descriptor.symm.trans (hchoice h.1).symm
  · exact h
  · rename_i fd caller e hfind
    obtain ⟨he, rfl⟩ := find_some hfind
    apply Valid.erase h.2
    intro hit
    by_cases hcaller : caller = .user
    · subst caller
      cases hit
    · obtain ⟨e', he', hkey, hne⟩ := h.1 hcaller
      exact hne (hit.trans (congrArg some (List.inj_on_of_nodup_map hkeys he' he hkey).symm))
  · rename_i fd caller hfind
    by_contra hcaller
    obtain ⟨e, he, hkey, -⟩ := h.1 hcaller
    exact find_none hfind (hkey ▸ List.mem_map_of_mem he)
  · exact h
  · exact h
  · exact h
  · exact h
  · exact Valid.mono h (fun e he => by rwa [shutdown_clients])
  · exact Valid.mono h (fun e he => by rwa [close_clients])
  · exact Footing.resume h
  · exact valid_head m
  · rename_i e entry it hchoice
    obtain ⟨hentry, hne, hvalid⟩ := hread e entry it (h e rfl) hchoice
    exact ⟨fun _ => ⟨entry, hentry, rfl, hne⟩, hvalid⟩

end Walk

section Runs

variable {registered : Bool} {T : Type*}

theorem footing_initial (role : T → Role) (t : T) : Footing Mem.initial (role t).point := by
  cases role t <;> trivial

variable [DecidableEq T] [Fintype T] {role : T → Role} {s s' : State T}

theorem footing_of_sweepClear (h : (system role registered).ReachedBy SweepClear s) (t : T) :
    Footing s.mem (s.points t) := by
  have hall : ∀ t, Footing s.mem (s.points t) := by
    refine h.invariant (I := fun s => ∀ t, Footing s.mem (s.points t)) (footing_initial role) ?_
    intro s a s' hr hI hclear hs
    have hc := custody_of_reachable hr.reachable
    rcases next_cases hs with ⟨t, choice, m', p', rfl, -, hact, rfl⟩ | ⟨-, hout, hpoints⟩
    · intro u
      by_cases hu : u = t
      · subst u
        simp only [Function.update_self]
        exact act_footing hc.keys hc.listed (hI t) hact
      · simp only [Function.update_of_ne hu]
        rcases (act_moves hact).clients_cases with hkeep | ⟨fd, caller, e, hp, hfind, rfl⟩
        · exact (hI u).mono hkeep
        · apply (hI u).erase
          simp only [SweepClear, hp, hfind] at hclear
          exact hclear u hu
    · intro t
      rw [hpoints]
      apply (hI t).mono
      rw [(sameCustody_outside hout).clients]
      exact fun e he => he
  exact hall t

/-- No call of `closeClient` by `threadLoop` or by the destructor reaches the exception. -/
theorem closesSucceed_of_sweepClear (h : (system role registered).ReachedBy SweepClear s) :
    ClosesSucceed s := by
  intro t caller hp
  have hf := footing_of_sweepClear h t
  rw [hp] at hf
  exact hf

end Runs

/-! ### Two sweeps of one client -/

section Decide

variable {T : Type*} [Fintype T] [DecidableEq T]

def isSweepClear (s : State T) : Label T → Bool
  | .thread t _ =>
      match s.points t with
      | .closeFind fd _ =>
          (s.mem.find fd).all (fun e => decide (∀ u, u ≠ t → ¬ StandsOn (s.points u) e))
      | _ => true
  | _ => true

theorem isSweepClear_iff (s : State T) (a : Label T) :
    isSweepClear s a = true ↔ SweepClear s a := by
  cases a with
  | thread t choice =>
      simp only [isSweepClear, SweepClear]
      split
      case h_1 fd _ _ =>
        cases s.mem.find fd with
        | none => exact iff_of_true rfl trivial
        | some e => exact decide_eq_true_iff
      case h_2 => exact iff_of_true rfl trivial
  | _ => exact iff_of_true rfl trivial

instance (s : State T) (a : Label T) : Decidable (SweepClear s a) :=
  decidable_of_iff (isSweepClear s a = true) (isSweepClear_iff s a)

end Decide

/-- The destructor notifies the stop and picks the client. -/
def destructorPicks {T : Type*} (t : T) (e : Entry) : List (Label T) :=
  .thread t .callDestructor :: go t 2 ++ [.thread t (.read e none)]

/-- The listen thread was about to sweep when the destructor stopped the server: it finds the client
inactive too, and closes it first. -/
theorem not_closesSucceed :
    ¬ ∀ s, (system smallServer true).Reachable s → ClosesSucceed s := by
  intro h
  have hrun : ((system smallServer true).exec (system smallServer true).start
      (acceptClient 0 5 [(5, 0)] ++ go 0 2 ++ destructorPicks 1 (5, 0) ++
        [.thread 0 (.read (5, 0) none), .thread 0 (.test false), .thread 0 (.select 5)] ++
        go 0 3 ++ go 1 2)).any (fun s => s.points 1 = .closeThrow (.destructor none)) = true := by
    decide
  obtain ⟨s, hs, hp⟩ := TransitionSystem.exists_reachedBy_of_execWhile hrun
  rw [decide_eq_true_eq] at hp
  cases h s hs 1 _ hp

/-- The destructor closes the client after the listen thread and the worker have ended. -/
theorem closesSucceed_threads_ended :
    ∃ s, (system smallServer true).ReachedBy SweepClear s ∧ s.points 1 = .finished ∧
      (s.mem.channel 0).tally = .closed true ∧ ClosesSucceed s := by
  have hrun : ((system smallServer true).execWhile SweepClear
      (system smallServer true).start
      (acceptClient 0 5 [(5, 0)] ++ destructorPicks 1 (5, 0) ++ go 0 1 ++ go 2 1 ++
        go 1 10)).any (fun s =>
      s.points 1 = .finished ∧ (s.mem.channel 0).tally = .closed true) = true := by decide
  obtain ⟨s, hs, hstate⟩ := TransitionSystem.exists_reachedBy_of_execWhile hrun
  rw [decide_eq_true_eq] at hstate
  exact ⟨s, hs, hstate.1, hstate.2, closesSucceed_of_sweepClear hs⟩

end SocketLib.ServerSocket
