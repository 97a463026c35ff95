import SocketLib.Exceptions
import Mathlib.Tactic

/-!
# The constructor of `Socket`

A pointer into the list that `getaddrinfo` returns is the list from there on, and the null pointer
is the empty list. The constructor goes through the list until `socket` gives it a descriptor, and
only then moves `servInfo`, which it tests for null in the end. It does not find out that `socket`
has failed on every entry (`post_iff`).
-/

namespace SocketLib.SocketCore

/-- A node of the list, with what `socket` and `fcntl` return when they are called for it. -/
structure AddrInfo (A : Type) where
  node : A
  socket : ℤ
  fcntl : ℤ

/-- A list as `getaddrinfo` returns it. -/
structure AddrList (A : Type) where
  entries : List (AddrInfo A)
  nodup : (entries.map AddrInfo.node).Nodup

structure Socket (A : Type) where
  servInfo : List (AddrInfo A)
  socketDescriptor : ℤ

/-- What the process has to give back. -/
inductive Resource (A : Type)
  | node (a : A)
  | descriptor (fd : ℤ)
  deriving DecidableEq

inductive Event (A : Type)
  | acquired (r : Resource A)
  | released (r : Resource A)
  deriving DecidableEq

inductive Error
  | null
  | failed
  deriving DecidableEq

section Constructor

variable {A : Type}

/-- `Utils::throwIfError` for a pointer. -/
def throwIfNull (servInfo : List (AddrInfo A)) : Run (Event A) Error Unit :=
  if servInfo.isEmpty then Run.throw .null else pure ()

/-- `Utils::throwIfError` for a status. -/
def throwIfError (status : ℤ) : Run (Event A) Error Unit :=
  if status ≠ 0 then Run.throw .failed else pure ()

/-- `getaddrinfo` succeeds and makes the list. -/
def resolveEndpoint (list : AddrList A) : Run (Event A) Error (List (AddrInfo A)) :=
  ⟨list.entries.map fun p => .acquired (.node p.node), .returned list.entries⟩

/-- The loop of the constructor. -/
def openSocket (this : Socket A) : List (AddrInfo A) → Run (Event A) Error (Socket A)
  | [] => pure this
  | p :: next =>
      if p.socket = -1 then openSocket { this with socketDescriptor := p.socket } next
      else do
        Run.emit (.acquired (.descriptor p.socket))
        throwIfError p.fcntl
        pure ⟨p :: next, p.socket⟩

def construct (list : AddrList A) : Run (Event A) Error (Socket A) := do
  let servInfo ← resolveEndpoint list
  throwIfNull servInfo
  let this ← openSocket ⟨servInfo, -1⟩ servInfo
  throwIfNull this.servInfo
  pure this

/-- The entry is the first one that `socket` succeeds on. -/
structure Chosen (list : AddrList A) (before : List (AddrInfo A)) (p : AddrInfo A)
    (after : List (AddrInfo A)) : Prop where
  entries : list.entries = before ++ p :: after
  before : ∀ q ∈ before, q.socket = -1
  socket : p.socket ≠ -1

/-- The constructor throws when `socket` fails on every entry, and otherwise ends with the
descriptor of the first entry it succeeds on and with `servInfo` at that entry. -/
structure Post (list : AddrList A) : Prop where
  throws : (∀ p ∈ list.entries, p.socket = -1) → ∃ e, (construct list).outcome = .thrown e
  returns : (∃ p ∈ list.entries, p.socket ≠ -1) → ∃ this before p after,
    (construct list).outcome = .returned this ∧ Chosen list before p after ∧
      this.socketDescriptor = p.socket ∧ this.servInfo = p :: after

variable {list : AddrList A} {this : Socket A} {ps before after : List (AddrInfo A)}
  {p : AddrInfo A}

theorem openSocket_of_failing (hfail : ∀ q ∈ ps, q.socket = -1)
    (hthis : this.socketDescriptor = -1) : openSocket this ps = pure this := by
  induction ps with
  | nil => rfl
  | cons q ps ih =>
      obtain ⟨hq, hps⟩ := List.forall_mem_cons.mp hfail
      rw [openSocket, if_pos hq, hq, ← hthis]
      exact ih hps

theorem openSocket_of_first (hbefore : ∀ q ∈ before, q.socket = -1) (hp : p.socket ≠ -1)
    (this : Socket A) (after : List (AddrInfo A)) : openSocket this (before ++ p :: after) =
      ⟨[.acquired (.descriptor p.socket)],
        if p.fcntl = 0 then .returned ⟨p :: after, p.socket⟩ else .thrown .failed⟩ := by
  induction before generalizing this with
  | nil =>
      rw [List.nil_append, openSocket, if_neg hp, throwIfError]
      by_cases hfcntl : p.fcntl = 0
      · rw [if_neg (not_not.mpr hfcntl), if_pos hfcntl]
        rfl
      · rw [if_pos hfcntl, if_neg hfcntl]
        rfl
  | cons q before ih =>
      obtain ⟨hq, hbefore⟩ := List.forall_mem_cons.mp hbefore
      rw [List.cons_append, openSocket, if_pos hq]
      exact ih hbefore _

theorem exists_chosen (h : ∃ p ∈ list.entries, p.socket ≠ -1) :
    ∃ before p after, Chosen list before p after := by
  obtain ⟨q, hq, hsocket⟩ := h
  cases hfind : list.entries.find? (fun q => q.socket ≠ -1) with
  | none => exact absurd (decide_eq_true hsocket) (List.find?_eq_none.mp hfind q hq)
  | some p =>
      obtain ⟨hp, before, after, hentries, hbefore⟩ := List.find?_eq_some_iff_append.mp hfind
      exact ⟨before, p, after, hentries, fun q hq => by simpa using hbefore q hq,
        of_decide_eq_true hp⟩

/-- The events before the loop. -/
def resolved (list : AddrList A) : List (Event A) :=
  list.entries.map fun p => .acquired (.node p.node)

/-- What the constructor does with a list that is there. -/
theorem construct_eq (hne : list.entries ≠ []) :
    construct list =
      let r : Run (Event A) Error (Socket A) := openSocket ⟨list.entries, -1⟩ list.entries >>=
        fun this => throwIfNull this.servInfo >>= fun _ => pure this
      ⟨resolved list ++ r.trace, r.outcome⟩ := by
  have hnull : (throwIfNull list.entries : Run (Event A) Error Unit) = pure () :=
    if_neg (by simpa using hne)
  change resolveEndpoint list >>= (fun servInfo => throwIfNull servInfo >>= fun _ =>
    openSocket ⟨servInfo, -1⟩ servInfo >>= fun this => throwIfNull this.servInfo >>=
      fun _ => pure this) = _
  rw [Run.bind_of_returned (a := list.entries) rfl, hnull]
  rfl

theorem construct_of_failing (hne : list.entries ≠ []) (hfail : ∀ p ∈ list.entries, p.socket = -1) :
    construct list = ⟨resolved list, .returned ⟨list.entries, -1⟩⟩ := by
  have hnull : (throwIfNull list.entries : Run (Event A) Error Unit) = pure () :=
    if_neg (by simpa using hne)
  rw [construct_eq hne, openSocket_of_failing hfail rfl, Run.bind_of_returned (a := _) rfl, hnull]
  exact congrArg (Run.mk · _) (List.append_nil _)

theorem construct_of_chosen (hchosen : Chosen list before p after) :
    construct list = ⟨resolved list ++ [.acquired (.descriptor p.socket)],
      if p.fcntl = 0 then .returned ⟨p :: after, p.socket⟩ else .thrown .failed⟩ := by
  have hne : list.entries ≠ [] := by
    rw [hchosen.entries]
    simp
  have hopen := openSocket_of_first hchosen.before hchosen.socket ⟨list.entries, -1⟩ after
  rw [← hchosen.entries] at hopen
  rw [construct_eq hne, hopen]
  by_cases hfcntl : p.fcntl = 0
  · rw [if_pos hfcntl]
    rfl
  · rw [if_neg hfcntl]
    rfl

/-- A total failure goes unnoticed, and nothing else does. -/
theorem post_iff (hne : list.entries ≠ []) (hfcntl : ∀ p ∈ list.entries, p.fcntl = 0) :
    Post list ↔ ∃ p ∈ list.entries, p.socket ≠ -1 := by
  constructor
  · intro hpost
    by_contra! hfail
    obtain ⟨e, he⟩ := hpost.throws hfail
    rw [construct_of_failing hne hfail] at he
    cases he
  · intro hsome
    refine ⟨fun hfail => ?_, fun _ => ?_⟩
    · obtain ⟨p, hp, hsocket⟩ := hsome
      exact absurd (hfail p hp) hsocket
    · obtain ⟨before, p, after, hchosen⟩ := exists_chosen hsome
      refine ⟨⟨p :: after, p.socket⟩, before, p, after, ?_, hchosen, rfl, rfl⟩
      have hp : p ∈ list.entries := by
        rw [hchosen.entries]
        exact List.mem_append_right before List.mem_cons_self
      rw [construct_of_chosen hchosen, if_pos (hfcntl p hp)]

/-- The only address there is cannot be had, and the constructor ends without a descriptor. -/
theorem not_post :
    ¬ ∀ list : AddrList ℕ, list.entries ≠ [] → (∀ p ∈ list.entries, p.fcntl = 0) → Post list := by
  intro hall
  obtain ⟨e, he⟩ := (hall ⟨[⟨0, -1, 0⟩], by decide⟩ (by decide) (by decide)).throws (by decide)
  cases he

/-- The second of two addresses is taken. -/
theorem post_second_entry : Post (⟨[⟨0, -1, 0⟩, ⟨1, 3, 0⟩], by decide⟩ : AddrList ℕ) :=
  (post_iff (by decide) (by decide)).mpr (by decide)

end Constructor
end SocketLib.SocketCore
