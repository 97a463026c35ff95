import SocketLib.ThreadFamily
import SocketLib.TransitionSystem

/-!
# Claiming what has been produced without a lock

Somebody produces, and any number of threads claim what has been produced, with fetch-and-adds only.
A thread first adds what it wants to an optimistic count, and with what the count was before it tells
whether there is enough for it: the count runs ahead of what is claimed, but what the threads behind
the overrun have given back is counted too (`overcommit`). A thread that finds enough may claim it;
what it does not get it gives back.

The thread reads the overcommit before it adds to the count, so what it has read may be old. The
overcommit only grows, so it then takes the others to want more than they do. What is claimed or may
be claimed is never more than what was produced (`claims_le`): behind the last thread that found
enough for itself (`mark`), all earlier ones have their share reserved; a thread ahead of it knows of
everybody who is before it.
-/

inductive OptimisticRole
  | idle
  | loaded (overcommit : ℕ)
  | counted (wanted overcommit mine : ℕ)
  | granted (surplus count : ℕ)
  | refused (wanted : ℕ)
  deriving DecidableEq

structure OptimisticClaims (T : Type*) where
  produced : ℕ
  claimed : ℕ
  optimistic : ℕ
  overcommit : ℕ
  roles : T → OptimisticRole

namespace OptimisticClaims

open ThreadFamily

inductive Action (T : Type*)
  | produce
  | load (t : T)
  | leave (t : T)
  | add (t : T) (wanted : ℕ)
  | test (t : T)
  | giveBack (t : T)
  | claim (t : T)

variable {T : Type*} [DecidableEq T]

def setRole (s : OptimisticClaims T) (t : T) (r : OptimisticRole) : OptimisticClaims T :=
  { s with roles := Function.update s.roles t r }

theorem setRole_self (s : OptimisticClaims T) (t : T) (r : OptimisticRole) :
    (s.setRole t r).roles t = r := Function.update_self ..

theorem setRole_ne (s : OptimisticClaims T) {t u : T} (r : OptimisticRole) (h : u ≠ t) :
    (s.setRole t r).roles u = s.roles u := Function.update_of_ne h ..

theorem setRole_eq_self {s : OptimisticClaims T} {t : T} {r : OptimisticRole} (h : s.roles t = r) :
    s.setRole t r = s := by
  rw [setRole, ← h, Function.update_eq_self]

def next (s : OptimisticClaims T) : Action T → Option (OptimisticClaims T)
  | .produce => some { s with produced := s.produced + 1 }
  | .load t => if s.roles t = .idle then some (s.setRole t (.loaded s.overcommit)) else none
  | .leave t => match s.roles t with
    | .loaded _ => some (s.setRole t .idle)
    | _ => none
  | .add t wanted => match s.roles t with
    | .loaded overcommit =>
        if 0 < wanted then
          some { s.setRole t (.counted wanted overcommit s.optimistic) with
            optimistic := s.optimistic + wanted }
        else none
    | _ => none
  | .test t => match s.roles t with
    | .counted wanted overcommit mine =>
        if mine < s.produced + overcommit then
          some (s.setRole t (.granted (wanted - min wanted (s.produced + overcommit - mine))
            (min wanted (s.produced + overcommit - mine))))
        else some (s.setRole t (.refused wanted))
    | _ => none
  | .giveBack t => match s.roles t with
    | .granted surplus count =>
        some { s.setRole t (.granted 0 count) with overcommit := s.overcommit + surplus }
    | .refused wanted => some { s.setRole t .idle with overcommit := s.overcommit + wanted }
    | _ => none
  | .claim t => match s.roles t with
    | .granted 0 count => some { s.setRole t .idle with claimed := s.claimed + count }
    | _ => none

variable (T) in
def system : TransitionSystem (OptimisticClaims T) (Action T) :=
  ⟨⟨0, 0, 0, 0, fun _ => .idle⟩, next⟩

/-- What a thread may claim. -/
def grant : OptimisticRole → ℕ
  | .granted _ count => count
  | _ => 0

/-- What a thread has added to the optimistic count, and is not going to claim as far as it knows. -/
def owed : OptimisticRole → ℕ
  | .counted wanted _ _ | .refused wanted => wanted
  | .granted surplus _ => surplus
  | _ => 0

/-- What a thread wants whose share of the optimistic count lies below the mark. -/
def below (mark : ℕ) : OptimisticRole → ℕ
  | .counted wanted _ mine => if mine < mark then wanted else 0
  | _ => 0

theorem below_le_owed (mark : ℕ) (r : OptimisticRole) : below mark r ≤ owed r := by
  cases r with
  | counted wanted overcommit mine =>
      rw [below, owed]
      split_ifs <;> omega
  | _ => exact Nat.zero_le _

variable [Fintype T]

/-- What is claimed or may be claimed. -/
def taken (s : OptimisticClaims T) : ℕ := s.claimed + total grant s.roles

structure Sound (s : OptimisticClaims T) : Prop where
  account : s.optimistic = s.overcommit + s.taken + total owed s.roles
  loaded : ∀ t overcommit, s.roles t = .loaded overcommit → overcommit ≤ s.overcommit
  counted : ∀ t wanted overcommit mine, s.roles t = .counted wanted overcommit mine →
    0 < wanted ∧ mine + wanted ≤ s.optimistic
  apart : ∀ t wanted overcommit mine u wanted' overcommit' mine', t ≠ u →
    s.roles t = .counted wanted overcommit mine → s.roles u = .counted wanted' overcommit' mine' →
    mine + wanted ≤ mine' ∨ mine' + wanted' ≤ mine
  room : ∃ mark ≤ s.optimistic, s.taken + total (below mark) s.roles ≤ s.produced ∧
    ∀ t wanted overcommit mine, s.roles t = .counted wanted overcommit mine → mark ≤ mine →
      overcommit + s.taken + total (below mine) s.roles ≤ mine

theorem sound_start : Sound (system T).start where
  account := by simp [system, taken, total, grant, owed]
  loaded := nofun
  counted := nofun
  apart := nofun
  room := ⟨0, le_rfl, by simp [system, taken, total, grant, below], nofun⟩

section Steps

variable {s s' : OptimisticClaims T} {t u : T} {r : OptimisticRole}
  {wanted overcommit mine surplus count : ℕ}

/-- The total of what the threads before a given one want can only go down when a thread settles. -/
theorem total_below_le (hr : ∀ mark, below mark r = 0) (mark : ℕ) :
    total (below mark) (s.setRole t r).roles ≤ total (below mark) s.roles := by
  have hsum := total_update (below mark) s.roles t r
  rw [hr mark] at hsum
  exact (Nat.le_add_right ..).trans hsum.le

/-- A thread takes on a role without a share of the optimistic count that is still to be judged, and
the account stays as it was. -/
theorem Sound.settle (hs : Sound s) (hroles : s'.roles = (s.setRole t r).roles)
    (hr : ∀ mark, below mark r = 0) (hloaded : ∀ overcommit, r ≠ .loaded overcommit)
    (hcounted : ∀ wanted overcommit mine, r ≠ .counted wanted overcommit mine)
    (hoptimistic : s'.optimistic = s.optimistic) (hproduced : s'.produced = s.produced)
    (hovercommit : s.overcommit ≤ s'.overcommit) (htaken : s'.taken = s.taken)
    (howed : s'.overcommit + total owed s'.roles = s.overcommit + total owed s.roles) :
    Sound s' := by
  have hother : ∀ u, (∀ w o m, s'.roles u = .counted w o m → s.roles u = .counted w o m) ∧
      ∀ o, s'.roles u = .loaded o → s.roles u = .loaded o := by
    intro u
    rw [hroles]
    by_cases hu : u = t
    · subst u
      rw [setRole_self]
      exact ⟨fun w o m h => absurd h (hcounted w o m), fun o h => absurd h (hloaded o)⟩
    · rw [setRole_ne _ _ hu]
      exact ⟨fun _ _ _ h => h, fun _ h => h⟩
  constructor
  case account =>
    have haccount := hs.account
    omega
  case loaded => exact fun u o h => (hs.loaded u o ((hother u).2 o h)).trans hovercommit
  case counted =>
    intro u w o m h
    rw [hoptimistic]
    exact hs.counted u w o m ((hother u).1 w o m h)
  case apart =>
    intro u w o m v w' o' m' huv hu hv
    exact hs.apart u w o m v w' o' m' huv ((hother u).1 w o m hu) ((hother v).1 w' o' m' hv)
  case room =>
    obtain ⟨mark, hmark, hroom, hahead⟩ := hs.room
    have hbelow : ∀ mark, total (below mark) s'.roles ≤ total (below mark) s.roles := by
      intro mark
      rw [hroles]
      exact total_below_le hr mark
    rw [hoptimistic, hproduced, htaken]
    refine ⟨mark, hmark, (Nat.add_le_add_left (hbelow mark) _).trans hroom, ?_⟩
    intro u w o m h hle
    exact (Nat.add_le_add_left (hbelow m) _).trans (hahead u w o m ((hother u).1 w o m h) hle)

omit [DecidableEq T] in
theorem Sound.produce (hs : Sound s) : Sound { s with produced := s.produced + 1 } := by
  obtain ⟨mark, hmark, hroom, hahead⟩ := hs.room
  exact ⟨hs.account, hs.loaded, hs.counted, hs.apart, mark, hmark, hroom.trans (Nat.le_succ _),
    hahead⟩

theorem Sound.load (hs : Sound s) (ht : s.roles t = .idle) :
    Sound (s.setRole t (.loaded s.overcommit)) := by
  have htotal : ∀ w : OptimisticRole → ℕ, w (.loaded s.overcommit) = 0 → w .idle = 0 →
      total w (s.setRole t (.loaded s.overcommit)).roles = total w s.roles := by
    intro w hnew hold
    have hsum := total_update w s.roles t (.loaded s.overcommit)
    rwa [ht, hnew, hold] at hsum
  have htaken : (s.setRole t (.loaded s.overcommit)).taken = s.taken :=
    congrArg (s.claimed + ·) (htotal grant rfl rfl)
  have hother : ∀ u w o m, (s.setRole t (.loaded s.overcommit)).roles u = .counted w o m →
      s.roles u = .counted w o m := by
    intro u w o m h
    by_cases hu : u = t
    · subst u
      rw [setRole_self] at h
      cases h
    · rwa [setRole_ne _ _ hu] at h
  constructor
  case account =>
    rw [htaken, htotal owed rfl rfl]
    exact hs.account
  case loaded =>
    intro u o h
    by_cases hu : u = t
    · subst u
      rw [setRole_self] at h
      cases h
      exact le_rfl
    · rw [setRole_ne _ _ hu] at h
      exact hs.loaded u o h
  case counted => exact fun u w o m h => hs.counted u w o m (hother u w o m h)
  case apart =>
    intro u w o m v w' o' m' huv hu hv
    exact hs.apart u w o m v w' o' m' huv (hother u w o m hu) (hother v w' o' m' hv)
  case room =>
    obtain ⟨mark, hmark, hroom, hahead⟩ := hs.room
    refine ⟨mark, hmark, ?_, fun u w o m h hle => ?_⟩
    · rwa [htaken, htotal (below mark) rfl rfl]
    · rw [htaken, htotal (below m) rfl rfl]
      exact hahead u w o m (hother u w o m h) hle

/-- A thread that adds what it wants has everybody before it, and knows of all that was given back
before it read the overcommit. -/
theorem Sound.add (hs : Sound s) (ht : s.roles t = .loaded overcommit) (hpos : 0 < wanted) :
    Sound { s.setRole t (.counted wanted overcommit s.optimistic) with
      optimistic := s.optimistic + wanted } := by
  have hsum : ∀ w : OptimisticRole → ℕ, w (.loaded overcommit) = 0 →
      total w (s.setRole t (.counted wanted overcommit s.optimistic)).roles =
        total w s.roles + w (.counted wanted overcommit s.optimistic) := by
    intro w hold
    have hsum := total_update w s.roles t (.counted wanted overcommit s.optimistic)
    rwa [ht, hold] at hsum
  have hbelow : ∀ mark ≤ s.optimistic,
      total (below mark) (s.setRole t (.counted wanted overcommit s.optimistic)).roles =
        total (below mark) s.roles := by
    intro mark hmark
    have hmine : below mark (.counted wanted overcommit s.optimistic) = 0 := if_neg hmark.not_gt
    rw [hsum _ rfl, hmine, Nat.add_zero]
  have htaken : (s.setRole t (.counted wanted overcommit s.optimistic)).taken = s.taken :=
    congrArg (s.claimed + ·) (hsum grant rfl)
  constructor
  case account =>
    have haccount := hs.account
    have howed := hsum owed rfl
    change s.optimistic + wanted = s.overcommit +
      (s.setRole t (.counted wanted overcommit s.optimistic)).taken +
      total owed (s.setRole t (.counted wanted overcommit s.optimistic)).roles
    rw [htaken, howed]
    change _ = _ + (_ + wanted)
    omega
  case loaded =>
    intro u o h
    change (s.setRole t _).roles u = _ at h
    by_cases hu : u = t
    · subst u
      rw [setRole_self] at h
      cases h
    · rw [setRole_ne _ _ hu] at h
      exact hs.loaded u o h
  case counted =>
    intro u w o m h
    change (s.setRole t _).roles u = _ at h
    change _ ∧ _ ≤ s.optimistic + wanted
    by_cases hu : u = t
    · subst u
      rw [setRole_self] at h
      cases h
      exact ⟨hpos, le_rfl⟩
    · rw [setRole_ne _ _ hu] at h
      obtain ⟨hw, hm⟩ := hs.counted u w o m h
      exact ⟨hw, hm.trans (Nat.le_add_right ..)⟩
  case apart =>
    intro u w o m v w' o' m' huv hu hv
    change (s.setRole t _).roles u = _ at hu
    change (s.setRole t _).roles v = _ at hv
    by_cases hut : u = t
    · subst u
      rw [setRole_self] at hu
      rw [setRole_ne _ _ huv.symm] at hv
      cases hu
      exact Or.inr (hs.counted v w' o' m' hv).2
    · rw [setRole_ne _ _ hut] at hu
      by_cases hvt : v = t
      · subst v
        rw [setRole_self] at hv
        cases hv
        exact Or.inl (hs.counted u w o m hu).2
      · rw [setRole_ne _ _ hvt] at hv
        exact hs.apart u w o m v w' o' m' huv hu hv
  case room =>
    obtain ⟨mark, hmark, hroom, hahead⟩ := hs.room
    refine ⟨mark, hmark.trans (Nat.le_add_right ..), ?_, fun u w o m h hle => ?_⟩
    · change (s.setRole t _).taken + total (below mark) (s.setRole t _).roles ≤ s.produced
      rwa [htaken, hbelow mark hmark]
    · change (s.setRole t _).roles u = _ at h
      change o + (s.setRole t _).taken + total (below m) (s.setRole t _).roles ≤ m
      by_cases hu : u = t
      · subst u
        rw [setRole_self] at h
        cases h
        rw [htaken, hbelow _ le_rfl]
        have haccount := hs.account
        have hread := hs.loaded t overcommit ht
        have hothers : total (below s.optimistic) s.roles ≤ total owed s.roles :=
          Finset.sum_le_sum (fun v _ => below_le_owed s.optimistic (s.roles v))
        omega
      · rw [setRole_ne _ _ hu] at h
        have hm := (hs.counted u w o m h).2
        rw [htaken, hbelow m (by omega)]
        exact hahead u w o m h hle

/-- A thread that finds enough for a part of what it wants has this part reserved: those before it
keep theirs. -/
theorem Sound.grant (hs : Sound s) (ht : s.roles t = .counted wanted overcommit mine)
    (hcount : count ≤ wanted) (hroom : mine + count ≤ s.produced + overcommit) :
    Sound (s.setRole t (.granted (wanted - count) count)) := by
  have hbelow : ∀ mark, total (below mark) (s.setRole t (.granted (wanted - count) count)).roles +
      (if mine < mark then wanted else 0) = total (below mark) s.roles := by
    intro mark
    have hsum := total_update (below mark) s.roles t (.granted (wanted - count) count)
    rw [ht] at hsum
    exact hsum
  have htaken : (s.setRole t (.granted (wanted - count) count)).taken = s.taken + count := by
    have hsum := total_update OptimisticClaims.grant s.roles t (.granted (wanted - count) count)
    rw [ht] at hsum
    change _ + 0 = _ + count at hsum
    rw [taken, taken]
    change s.claimed + total _ (Function.update s.roles t _) = _
    omega
  have howed : total owed (s.setRole t (.granted (wanted - count) count)).roles + wanted =
      total owed s.roles + (wanted - count) := by
    have hsum := total_update owed s.roles t (.granted (wanted - count) count)
    rwa [ht] at hsum
  have hother : ∀ u w o m,
      (s.setRole t (.granted (wanted - count) count)).roles u = .counted w o m →
      u ≠ t ∧ s.roles u = .counted w o m := by
    intro u w o m h
    by_cases hu : u = t
    · subst u
      rw [setRole_self] at h
      cases h
    · rw [setRole_ne _ _ hu] at h
      exact ⟨hu, h⟩
  constructor
  case account =>
    have haccount := hs.account
    rw [htaken]
    change s.optimistic = s.overcommit + _ + _
    omega
  case loaded =>
    intro u o h
    by_cases hu : u = t
    · subst u
      rw [setRole_self] at h
      cases h
    · rw [setRole_ne _ _ hu] at h
      exact hs.loaded u o h
  case counted => exact fun u w o m h => hs.counted u w o m (hother u w o m h).2
  case apart =>
    intro u w o m v w' o' m' huv hu hv
    exact hs.apart u w o m v w' o' m' huv (hother u w o m hu).2 (hother v w' o' m' hv).2
  case room =>
    obtain ⟨mark, hmark, hroom', hahead⟩ := hs.room
    rw [htaken]
    change ∃ mark ≤ s.optimistic, _ ≤ s.produced ∧ _
    by_cases hlate : mark ≤ mine
    · -- this thread is the last one by now that has found enough
      have hmine := hahead t wanted overcommit mine ht hlate
      have hsame := hbelow mine
      rw [if_neg (lt_irrefl mine)] at hsame
      refine ⟨mine, by have := (hs.counted t wanted overcommit mine ht).2; omega, by omega, ?_⟩
      intro u w o m h hle
      obtain ⟨hu, hrole⟩ := hother u w o m h
      have hold := hahead u w o m hrole (hlate.trans hle)
      have hless := hbelow m
      have hlt : mine < m := by
        have hpos := (hs.counted u w o m hrole).1
        have hpos' := (hs.counted t wanted overcommit mine ht).1
        rcases hs.apart u w o m t wanted overcommit mine hu hrole ht with hle' | hle' <;> omega
      rw [if_pos hlt] at hless
      omega
    · refine ⟨mark, hmark, ?_, ?_⟩
      · have hless := hbelow mark
        rw [if_pos (not_le.mp hlate)] at hless
        omega
      · intro u w o m h hle
        have hold := hahead u w o m (hother u w o m h).2 hle
        have hless := hbelow m
        rw [if_pos (by omega)] at hless
        omega

theorem Sound.next {a : Action T} (hs : Sound s) (h : next s a = some s') : Sound s' := by
  cases a with
  | produce =>
      obtain rfl := Option.some.inj h
      exact hs.produce
  | load t =>
      rw [OptimisticClaims.next] at h
      split_ifs at h with ht
      obtain rfl := Option.some.inj h
      exact hs.load ht
  | leave t =>
      simp only [OptimisticClaims.next] at h
      split at h
      case h_1 o ht =>
        obtain rfl := Option.some.inj h
        have hgrant := total_update OptimisticClaims.grant s.roles t .idle
        have howed := total_update owed s.roles t .idle
        rw [ht] at hgrant howed
        exact hs.settle rfl (fun _ => rfl) nofun nofun rfl rfl le_rfl
          (congrArg (s.claimed + ·) hgrant) (congrArg (s.overcommit + ·) howed)
      case h_2 => cases h
  | add t wanted =>
      simp only [OptimisticClaims.next] at h
      split at h
      case h_1 o ht =>
        split_ifs at h with hpos
        obtain rfl := Option.some.inj h
        exact hs.add ht hpos
      case h_2 => cases h
  | test t =>
      simp only [OptimisticClaims.next] at h
      split at h
      case h_1 w o m ht =>
        split_ifs at h with hlt
        · obtain rfl := Option.some.inj h
          exact hs.grant ht (min_le_left ..) (by omega)
        · obtain rfl := Option.some.inj h
          have hgrant := total_update OptimisticClaims.grant s.roles t (.refused w)
          have howed := total_update owed s.roles t (.refused w)
          rw [ht] at hgrant howed
          refine hs.settle rfl (fun _ => rfl) nofun nofun rfl rfl le_rfl
            (congrArg (s.claimed + ·) hgrant) ?_
          exact congrArg (s.overcommit + ·) (Nat.add_right_cancel howed)
      case h_2 => cases h
  | giveBack t =>
      simp only [OptimisticClaims.next] at h
      split at h
      case h_1 surplus count ht =>
        obtain rfl := Option.some.inj h
        have hgrant := total_update OptimisticClaims.grant s.roles t (.granted 0 count)
        have howed := total_update owed s.roles t (.granted 0 count)
        rw [ht] at hgrant howed
        refine hs.settle rfl (fun _ => rfl) nofun nofun rfl rfl (Nat.le_add_right ..)
          (congrArg (s.claimed + ·) (Nat.add_right_cancel hgrant)) ?_
        change s.overcommit + surplus + total owed (Function.update s.roles t _) = _
        change _ + surplus = _ + 0 at howed
        omega
      case h_2 w ht =>
        obtain rfl := Option.some.inj h
        have hgrant := total_update OptimisticClaims.grant s.roles t .idle
        have howed := total_update owed s.roles t .idle
        rw [ht] at hgrant howed
        refine hs.settle rfl (fun _ => rfl) nofun nofun rfl rfl (Nat.le_add_right ..)
          (congrArg (s.claimed + ·) hgrant) ?_
        change s.overcommit + w + total owed (Function.update s.roles t _) = _
        change _ + w = _ + 0 at howed
        omega
      case h_3 => cases h
  | claim t =>
      simp only [OptimisticClaims.next] at h
      split at h
      case h_1 count ht =>
        obtain rfl := Option.some.inj h
        have hgrant := total_update OptimisticClaims.grant s.roles t .idle
        have howed := total_update owed s.roles t .idle
        rw [ht] at hgrant howed
        refine hs.settle rfl (fun _ => rfl) nofun nofun rfl rfl le_rfl ?_
          (congrArg (s.overcommit + ·) howed)
        change s.claimed + count + total _ (Function.update s.roles t _) = s.claimed + _
        change _ + count = _ + 0 at hgrant
        omega
      case h_2 => cases h

end Steps

theorem sound_of_reachable {s : OptimisticClaims T} (h : (system T).Reachable s) : Sound s :=
  h.invariant sound_start (fun _ _ _ _ hs _ hnext => hs.next hnext)

/-- What is claimed, together with what may be claimed, has been produced. -/
theorem claims_le {s : OptimisticClaims T} (h : (system T).Reachable s) :
    s.claimed + total grant s.roles ≤ s.produced := by
  obtain ⟨mark, -, hroom, -⟩ := (sound_of_reachable h).room
  exact (Nat.le_add_right ..).trans hroom

end OptimisticClaims
