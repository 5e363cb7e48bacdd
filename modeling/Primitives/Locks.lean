import Primitives.Lib.Run
import Mathlib.Algebra.Order.BigOperators.Group.Finset
import Mathlib.Data.Fintype.Card

/-!
# Locks between processes

The scoped locks of `lock.h` and the two functions that run a job in one process at a time. Each party is a
call of one of them in a process of its own, on one file name, and all of them take their steps in any
order. A process can crash at each of its steps.

The lock of a file is a parameter: it is known by who has it (`FileLock`).
-/

set_option autoImplicit false

namespace Primitives.Locks

open Lib

/-- A lock that processes share through a file. One process has it, or any number of them share it. -/
structure FileLock (ι : Type) [DecidableEq ι] where
  State : Type
  init : State
  owner : State → Option ι
  sharers : State → Finset ι
  tryLock : ι → State → Option State
  tryLockSharable : ι → State → Option State
  /-- `unlock` and `unlock_sharable`, and what is left of a process that has ended. -/
  unlock : ι → State → State
  owner_init : owner init = none
  sharers_init : sharers init = ∅
  tryLock_eq_none : ∀ p s, tryLock p s = none ↔ ¬ (owner s = none ∧ sharers s = ∅)
  owner_tryLock : ∀ p s t, tryLock p s = some t → owner t = some p ∧ sharers t = sharers s
  tryLockSharable_eq_none : ∀ p s, tryLockSharable p s = none ↔ owner s ≠ none
  owner_tryLockSharable : ∀ p s t, tryLockSharable p s = some t →
    owner t = none ∧ sharers t = insert p (sharers s)
  owner_unlock : ∀ p s, owner (unlock p s) = if owner s = some p then none else owner s
  sharers_unlock : ∀ p s, sharers (unlock p s) = (sharers s).erase p

/-- The lock as a table of who has it. -/
def FileLock.table (ι : Type) [DecidableEq ι] : FileLock ι where
  State := Option ι × Finset ι
  init := (none, ∅)
  owner := Prod.fst
  sharers := Prod.snd
  tryLock p s := if s.1 = none ∧ s.2 = ∅ then some (some p, s.2) else none
  tryLockSharable p s := if s.1 = none then some (none, insert p s.2) else none
  unlock p s := (if s.1 = some p then none else s.1, s.2.erase p)
  owner_init := rfl
  sharers_init := rfl
  tryLock_eq_none := fun p s => by simp
  owner_tryLock := fun p s t h => by
    obtain ⟨-, ht⟩ := Option.ite_none_right_eq_some.mp h
    exact Option.some.inj ht ▸ ⟨rfl, rfl⟩
  tryLockSharable_eq_none := fun p s => by simp
  owner_tryLockSharable := fun p s t h => by
    obtain ⟨-, ht⟩ := Option.ite_none_right_eq_some.mp h
    exact Option.some.inj ht ▸ ⟨rfl, rfl⟩
  owner_unlock := fun _ _ => rfl
  sharers_unlock := fun _ _ => rfl

/-- What a party calls. -/
inductive Call where
  /-- A scope with a `ScopedFileLock`. -/
  | scopedFileLock
  /-- A scope with a `ScopedShareableFileLock`. -/
  | scopedShareableFileLock
  | singleProcessJob
  | trySingleProcessJob
deriving DecidableEq, Repr

/-- Where a party is. -/
inductive Pc where
  | start
  /-- Locked: in the scope, or in `f`. -/
  | body
  /-- Behind the scope or `f`, which returned or threw, and not unlocked. -/
  | leaving (threw : Bool)
  /-- In the constructor of `fl2`. -/
  | waiting
  /-- `fl2` is locked. -/
  | second
  /-- It has returned, having been in its scope or in `f` or not. -/
  | returned (ran : Bool)
  | thrown
  /-- Its process has ended, having been in its scope or in `f` or not. -/
  | crashed (ran : Bool)
deriving DecidableEq, Repr

inductive Action (ι : Type) where
  /-- The call, up to the first lock. -/
  | enter (p : ι)
  /-- The end of the scope or of `f`. -/
  | finish (p : ι) (threw : Bool)
  /-- The destructor of the first lock. -/
  | unlock (p : ι)
  /-- `fl2` gets the lock. -/
  | acquire (p : ι)
  /-- The destructor of `fl2`. -/
  | leave (p : ι)
  | crash (p : ι)

def Action.isCrash {ι : Type} : Action ι → Bool
  | .crash _ => true
  | _ => false

variable {ι : Type} [DecidableEq ι]

structure State (L : FileLock ι) where
  lock : L.State
  pc : ι → Pc

namespace Pc

/-- The call is over. -/
def isOver : Pc → Bool
  | .returned _ | .thrown | .crashed _ => true
  | _ => false

/-- It is in its scope or in `f`, or was. -/
def ran : Pc → Bool
  | .body | .leaving _ | .thrown => true
  | .returned ran | .crashed ran => ran
  | .start | .waiting | .second => false

end Pc

variable (L : FileLock ι) (calls : ι → Call)

def init : State L := ⟨L.init, fun _ => .start⟩

variable {L}

def State.goto (s : State L) (p : ι) (pc : Pc) (lock : L.State) : State L :=
  ⟨lock, Function.update s.pc p pc⟩

/-- One step of a party. A lock that is not free is waited for: there is no step. -/
def step (s : State L) : Action ι → Option (State L)
  | .enter p =>
    if s.pc p = .start then
      match calls p with
      | .scopedFileLock => (L.tryLock p s.lock).map (s.goto p .body)
      | .scopedShareableFileLock => (L.tryLockSharable p s.lock).map (s.goto p .body)
      | .singleProcessJob =>
        match L.tryLock p s.lock with
        | some lock => some (s.goto p .body lock)
        | none => some (s.goto p .waiting s.lock)
      | .trySingleProcessJob =>
        match L.tryLock p s.lock with
        | some lock => some (s.goto p .body lock)
        | none => some (s.goto p (.returned false) s.lock)
    else none
  | .finish p threw => if s.pc p = .body then some (s.goto p (.leaving threw) s.lock) else none
  | .unlock p =>
    match s.pc p with
    | .leaving threw => some (s.goto p (if threw then .thrown else .returned true) (L.unlock p s.lock))
    | _ => none
  | .acquire p => if s.pc p = .waiting then (L.tryLock p s.lock).map (s.goto p .second) else none
  | .leave p => if s.pc p = .second then some (s.goto p (.returned false) (L.unlock p s.lock)) else none
  | .crash p =>
    if (s.pc p).isOver then none else some (s.goto p (.crashed (s.pc p).ran) (L.unlock p s.lock))

/-! ## What a step does -/

/-- The steps by what they do to the lock: it is taken, or shared, or kept, or let go. -/
inductive Effect (s : State L) : Action ι → State L → Prop where
  | take {p : ι} {lock : L.State} (h : s.pc p = .start) (hcall : calls p ≠ .scopedShareableFileLock)
      (hlock : L.tryLock p s.lock = some lock) : Effect s (.enter p) (s.goto p .body lock)
  | share {p : ι} {lock : L.State} (h : s.pc p = .start) (hcall : calls p = .scopedShareableFileLock)
      (hlock : L.tryLockSharable p s.lock = some lock) : Effect s (.enter p) (s.goto p .body lock)
  | wait {p : ι} (h : s.pc p = .start) (hcall : calls p = .singleProcessJob)
      (hlock : L.tryLock p s.lock = none) : Effect s (.enter p) (s.goto p .waiting s.lock)
  | refuse {p : ι} (h : s.pc p = .start) (hcall : calls p = .trySingleProcessJob)
      (hlock : L.tryLock p s.lock = none) : Effect s (.enter p) (s.goto p (.returned false) s.lock)
  | finish {p : ι} (threw : Bool) (h : s.pc p = .body) :
      Effect s (.finish p threw) (s.goto p (.leaving threw) s.lock)
  | unlock {p : ι} (threw : Bool) (h : s.pc p = .leaving threw) :
      Effect s (.unlock p) (s.goto p (if threw then .thrown else .returned true) (L.unlock p s.lock))
  | acquire {p : ι} {lock : L.State} (h : s.pc p = .waiting) (hlock : L.tryLock p s.lock = some lock) :
      Effect s (.acquire p) (s.goto p .second lock)
  | leave {p : ι} (h : s.pc p = .second) :
      Effect s (.leave p) (s.goto p (.returned false) (L.unlock p s.lock))
  | crash {p : ι} (h : (s.pc p).isOver = false) :
      Effect s (.crash p) (s.goto p (.crashed (s.pc p).ran) (L.unlock p s.lock))

variable {calls} {s t : State L} {a : Action ι}

theorem effect_of_step (h : step calls s a = some t) : Effect calls s a t := by
  cases a with
  | enter p =>
    rw [step] at h
    split at h
    · rename_i hpc
      split at h
      · rename_i hcall
        obtain ⟨lock, hlock, rfl⟩ := Option.map_eq_some_iff.mp h
        exact .take hpc (by rw [hcall]; exact Call.noConfusion) hlock
      · rename_i hcall
        obtain ⟨lock, hlock, rfl⟩ := Option.map_eq_some_iff.mp h
        exact .share hpc hcall hlock
      · rename_i hcall
        split at h
        · rename_i hlock
          cases h
          exact .take hpc (by rw [hcall]; exact Call.noConfusion) hlock
        · rename_i hlock
          cases h
          exact .wait hpc hcall hlock
      · rename_i hcall
        split at h
        · rename_i hlock
          cases h
          exact .take hpc (by rw [hcall]; exact Call.noConfusion) hlock
        · rename_i hlock
          cases h
          exact .refuse hpc hcall hlock
    · cases h
  | finish p threw =>
    rw [step] at h
    split at h
    · rename_i hpc
      cases h
      exact .finish threw hpc
    · cases h
  | unlock p =>
    rw [step] at h
    split at h
    · rename_i threw hpc
      cases h
      exact .unlock threw hpc
    · cases h
  | acquire p =>
    rw [step] at h
    split at h
    · rename_i hpc
      obtain ⟨lock, hlock, rfl⟩ := Option.map_eq_some_iff.mp h
      exact .acquire hpc hlock
    · cases h
  | leave p =>
    rw [step] at h
    split at h
    · rename_i hpc
      cases h
      exact .leave hpc
    · cases h
  | crash p =>
    rw [step] at h
    split at h
    · cases h
    · rename_i hpc
      cases h
      exact .crash (Bool.eq_false_iff.mpr hpc)

/-! ## Who has the lock -/

inductive Mode where
  | exclusive
  | shared
deriving DecidableEq, Repr

/-- How a party has the lock. -/
def mode (c : Call) : Pc → Option Mode
  | .body | .leaving _ => some (if c = .scopedShareableFileLock then .shared else .exclusive)
  | .second => some .exclusive
  | _ => none

/-- The lock is known by where the parties are. -/
structure Inv (calls : ι → Call) (s : State L) : Prop where
  owner : ∀ p, L.owner s.lock = some p ↔ mode (calls p) (s.pc p) = some .exclusive
  sharers : ∀ p, p ∈ L.sharers s.lock ↔ mode (calls p) (s.pc p) = some .shared
  alone : L.owner s.lock ≠ none → L.sharers s.lock = ∅

theorem goto_pc_self (s : State L) (p : ι) (pc : Pc) (lock : L.State) : (s.goto p pc lock).pc p = pc :=
  Function.update_self ..

theorem goto_pc_of_ne (s : State L) {p q : ι} (h : q ≠ p) (pc : Pc) (lock : L.State) :
    (s.goto p pc lock).pc q = s.pc q :=
  Function.update_of_ne h ..

theorem free_of_tryLock {p : ι} {u v : L.State} (h : L.tryLock p u = some v) :
    L.owner u = none ∧ L.sharers u = ∅ := by
  by_contra hfree
  rw [(L.tryLock_eq_none p u).mpr hfree] at h
  cases h

theorem unowned_of_tryLockSharable {p : ι} {u v : L.State} (h : L.tryLockSharable p u = some v) :
    L.owner u = none := by
  by_contra howner
  rw [(L.tryLockSharable_eq_none p u).mpr howner] at h
  cases h

theorem inv_init : Inv calls (init L) where
  owner := fun p => by simp [init, L.owner_init, mode]
  sharers := fun p => by simp [init, L.sharers_init, mode]
  alone := fun h => absurd L.owner_init h

namespace Inv

variable {p : ι} {pc : Pc} {lock : L.State}

/-- The lock is as before, and so is what the party has of it. -/
theorem keep (h : Inv calls s) (hmode : mode (calls p) pc = mode (calls p) (s.pc p)) :
    Inv calls (s.goto p pc s.lock) := by
  have hpc : ∀ q, mode (calls q) ((s.goto p pc s.lock).pc q) = mode (calls q) (s.pc q) := by
    intro q
    by_cases hq : q = p
    · rw [hq, goto_pc_self, hmode]
    · rw [goto_pc_of_ne s hq]
  refine ⟨fun q => ?_, fun q => ?_, h.alone⟩
  · rw [hpc]
    exact h.owner q
  · rw [hpc]
    exact h.sharers q

theorem take (h : Inv calls s) (hlock : L.tryLock p s.lock = some lock)
    (hmode : mode (calls p) pc = some .exclusive) : Inv calls (s.goto p pc lock) := by
  obtain ⟨howner, hsharers⟩ := free_of_tryLock hlock
  obtain ⟨howner', hsharers'⟩ := L.owner_tryLock p s.lock lock hlock
  have hlocked : L.owner (s.goto p pc lock).lock = some p := howner'
  have hempty : L.sharers (s.goto p pc lock).lock = ∅ := hsharers'.trans hsharers
  refine ⟨fun q => ?_, fun q => ?_, fun _ => hempty⟩
  · rw [hlocked]
    by_cases hq : q = p
    · rw [hq, goto_pc_self, hmode]
      exact iff_of_true rfl rfl
    · rw [goto_pc_of_ne s hq, ← h.owner q, howner]
      exact iff_of_false (fun heq => hq (Option.some.inj heq).symm) (Option.some_ne_none q).symm
  · rw [hempty]
    by_cases hq : q = p
    · rw [hq, goto_pc_self, hmode]
      exact iff_of_false (Finset.notMem_empty p) (by simp)
    · rw [goto_pc_of_ne s hq, ← h.sharers q, hsharers]

theorem share (h : Inv calls s) (hlock : L.tryLockSharable p s.lock = some lock)
    (hmode : mode (calls p) pc = some .shared) : Inv calls (s.goto p pc lock) := by
  have howner := unowned_of_tryLockSharable hlock
  obtain ⟨howner', hsharers'⟩ := L.owner_tryLockSharable p s.lock lock hlock
  have hlocked : L.owner (s.goto p pc lock).lock = none := howner'
  have hshared : L.sharers (s.goto p pc lock).lock = insert p (L.sharers s.lock) := hsharers'
  refine ⟨fun q => ?_, fun q => ?_, fun hne => absurd hlocked hne⟩
  · rw [hlocked]
    by_cases hq : q = p
    · rw [hq, goto_pc_self, hmode]
      exact iff_of_false (Option.some_ne_none p).symm (by simp)
    · rw [goto_pc_of_ne s hq, ← h.owner q, howner]
  · rw [hshared, Finset.mem_insert]
    by_cases hq : q = p
    · rw [hq, goto_pc_self, hmode]
      exact iff_of_true (.inl rfl) rfl
    · rw [goto_pc_of_ne s hq, ← h.sharers q]
      exact or_iff_right hq

theorem letGo (h : Inv calls s) (hmode : mode (calls p) pc = none) :
    Inv calls (s.goto p pc (L.unlock p s.lock)) := by
  have hlocked : L.owner (s.goto p pc (L.unlock p s.lock)).lock =
      if L.owner s.lock = some p then none else L.owner s.lock := L.owner_unlock p s.lock
  have hshared : L.sharers (s.goto p pc (L.unlock p s.lock)).lock = (L.sharers s.lock).erase p :=
    L.sharers_unlock p s.lock
  refine ⟨fun q => ?_, fun q => ?_, fun hne => ?_⟩
  · rw [hlocked]
    by_cases hq : q = p
    · rw [hq, goto_pc_self, hmode]
      refine iff_of_false (fun heq => ?_) (Option.some_ne_none _).symm
      split at heq
      · cases heq
      · rename_i hnot
        exact hnot heq
    · rw [goto_pc_of_ne s hq, ← h.owner q]
      split
      · rename_i howner
        rw [howner]
        exact iff_of_false (Option.some_ne_none q).symm fun heq => hq (Option.some.inj heq).symm
      · exact Iff.rfl
  · rw [hshared, Finset.mem_erase]
    by_cases hq : q = p
    · rw [hq, goto_pc_self, hmode]
      exact iff_of_false (fun hmem => hmem.1 rfl) (Option.some_ne_none _).symm
    · rw [goto_pc_of_ne s hq, ← h.sharers q]
      exact and_iff_right hq
  · rw [hlocked] at hne
    rw [hshared]
    split at hne
    · exact absurd rfl hne
    · rw [h.alone hne]
      rfl

end Inv

theorem Inv.step (h : Inv calls s) (hs : step calls s a = some t) : Inv calls t := by
  cases effect_of_step hs with
  | take hpc hcall hlock => exact h.take hlock (by rw [mode, if_neg hcall])
  | share hpc hcall hlock => exact h.share hlock (by rw [mode, if_pos hcall])
  | wait hpc hcall hlock => exact h.keep (by rw [hpc]; rfl)
  | refuse hpc hcall hlock => exact h.keep (by rw [hpc]; rfl)
  | finish threw hpc => exact h.keep (by rw [hpc]; rfl)
  | unlock threw hpc => exact h.letGo (by cases threw <;> rfl)
  | acquire hpc hlock => exact h.take hlock rfl
  | leave hpc => exact h.letGo rfl
  | crash hpc => exact h.letGo rfl

theorem inv_of_reachable (h : Reachable (Locks.step calls) (init L) s) : Inv calls s :=
  h.invariant inv_init fun hinv _ hs => hinv.step hs

/-- **Who is alone**: while a party has the lock for itself, no other one has a part of it. -/
theorem body_alone (h : Reachable (step calls) (init L) s) {p : ι} (hp : s.pc p = .body)
    (hcall : calls p ≠ .scopedShareableFileLock) :
    ∀ q, q ≠ p → mode (calls q) (s.pc q) = none := by
  intro q hq
  have hinv := inv_of_reachable h
  have howner : L.owner s.lock = some p := by
    rw [hinv.owner, hp, mode, if_neg hcall]
  cases hmode : mode (calls q) (s.pc q) with
  | none => rfl
  | some m =>
    cases m with
    | exclusive =>
      rw [(hinv.owner q).mpr hmode] at howner
      exact absurd (Option.some.inj howner) hq
    | shared =>
      have hmem := (hinv.sharers q).mpr hmode
      rw [hinv.alone (by rw [howner]; exact Option.some_ne_none p)] at hmem
      exact absurd hmem (Finset.notMem_empty q)

/-- The first of two processes that call `single_process_job` has entered. -/
def oneRuns : State (FileLock.table Bool) := (init _).goto true .body (some true, ∅)

theorem reachable_oneRuns : Reachable (step fun _ => .singleProcessJob) (init _) oneRuns :=
  have hstep : step (fun _ => .singleProcessJob) (init (FileLock.table Bool)) (.enter true) = some oneRuns :=
    rfl
  .tail .refl trivial hstep

theorem body_alone_oneRuns : mode .singleProcessJob (oneRuns.pc false) = none :=
  body_alone reachable_oneRuns (show oneRuns.pc true = .body from rfl) (by decide) false (by decide)

/-! ## Waiting -/

/-- The lock is free if no party has a part of it. -/
theorem Inv.free (h : Inv calls s) (hnone : ∀ q, mode (calls q) (s.pc q) = none) :
    L.owner s.lock = none ∧ L.sharers s.lock = ∅ := by
  constructor
  · cases howner : L.owner s.lock with
    | none => rfl
    | some q =>
      have hmode := (h.owner q).mp howner
      rw [hnone q] at hmode
      cases hmode
  · refine Finset.eq_empty_of_forall_notMem fun q hq => ?_
    have hmode := (h.sharers q).mp hq
    rw [hnone q] at hmode
    cases hmode

theorem Inv.none_of_tryLock (h : Inv calls s) {p : ι} {lock : L.State}
    (hlock : L.tryLock p s.lock = some lock) (q : ι) : mode (calls q) (s.pc q) = none := by
  obtain ⟨howner, hsharers⟩ := free_of_tryLock hlock
  cases hmode : mode (calls q) (s.pc q) with
  | none => rfl
  | some m =>
    cases m with
    | exclusive =>
      rw [(h.owner q).mpr hmode] at howner
      cases howner
    | shared =>
      have hmem := (h.sharers q).mpr hmode
      rw [hsharers] at hmem
      exact absurd hmem (Finset.notMem_empty q)

theorem Inv.exists_of_tryLock (h : Inv calls s) {p : ι} (hlock : L.tryLock p s.lock = none) :
    ∃ q, (mode (calls q) (s.pc q)).isSome = true := by
  by_contra hnone
  refine (L.tryLock_eq_none p s.lock).mp hlock (h.free fun q => ?_)
  exact Option.not_isSome_iff_eq_none.mp fun hsome => hnone ⟨q, hsome⟩

/-- A party that has had its part of the lock. -/
def Past (calls : ι → Call) (s : State L) (q : ι) : Prop :=
  (s.pc q).isOver = true ∨ (mode (calls q) (s.pc q)).isSome = true

/-- What a step does to one party, by what it was before. -/
theorem step_pc (hs : step calls s a = some t) (q : ι) : t.pc q = s.pc q ∨
    (s.pc q).isOver = false ∧ (s.pc q = .start ∨ s.pc q = .waiting ∨ (t.pc q).isOver = true ∨
      s.pc q = .body ∧ ∃ threw, t.pc q = .leaving threw) := by
  have hother : ∀ (p : ι) (pc : Pc) (lock : L.State), ((s.pc p).isOver = false ∧ (s.pc p = .start ∨
      s.pc p = .waiting ∨ pc.isOver = true ∨ s.pc p = .body ∧ ∃ threw, pc = .leaving threw)) →
        (s.goto p pc lock).pc q = s.pc q ∨ (s.pc q).isOver = false ∧ (s.pc q = .start ∨ s.pc q = .waiting ∨
          ((s.goto p pc lock).pc q).isOver = true ∨
            s.pc q = .body ∧ ∃ threw, (s.goto p pc lock).pc q = .leaving threw) := by
    intro p pc lock h
    by_cases hq : q = p
    · rw [hq, goto_pc_self]
      exact .inr h
    · exact .inl (goto_pc_of_ne s hq pc lock)
  cases effect_of_step hs with
  | take hpc => exact hother _ _ _ ⟨by rw [hpc]; rfl, .inl hpc⟩
  | share hpc => exact hother _ _ _ ⟨by rw [hpc]; rfl, .inl hpc⟩
  | wait hpc => exact hother _ _ _ ⟨by rw [hpc]; rfl, .inl hpc⟩
  | refuse hpc => exact hother _ _ _ ⟨by rw [hpc]; rfl, .inl hpc⟩
  | finish threw hpc => exact hother _ _ _ ⟨by rw [hpc]; rfl, .inr (.inr (.inr ⟨hpc, threw, rfl⟩))⟩
  | unlock threw hpc =>
    exact hother _ _ _ ⟨by rw [hpc]; rfl, .inr (.inr (.inl (by cases threw <;> rfl)))⟩
  | acquire hpc => exact hother _ _ _ ⟨by rw [hpc]; rfl, .inr (.inl hpc)⟩
  | leave hpc => exact hother _ _ _ ⟨by rw [hpc]; rfl, .inr (.inr (.inl rfl))⟩
  | crash hpc => exact hother _ _ _ ⟨hpc, .inr (.inr (.inl rfl))⟩

theorem over_step (hs : step calls s a = some t) {q : ι} (h : (s.pc q).isOver = true) :
    (t.pc q).isOver = true := by
  rcases step_pc hs q with heq | ⟨hnot, -⟩
  · rwa [heq]
  · rw [h] at hnot
    cases hnot

theorem Past.step {q : ι} (h : Past calls s q) (hs : step calls s a = some t) : Past calls t q := by
  rcases step_pc hs q with heq | ⟨hnot, hcases⟩
  · rwa [Past, heq]
  · have hmode : (mode (calls q) (s.pc q)).isSome = true := by
      rcases h with hover | hmode
      · rw [hover] at hnot
        cases hnot
      · exact hmode
    rcases hcases with hpc | hpc | hover | ⟨-, threw, hpc⟩
    · rw [hpc] at hmode
      cases hmode
    · rw [hpc] at hmode
      cases hmode
    · exact .inl hover
    · right
      rw [hpc]
      rfl

/-- While `p` waits, the others are where they can be let go, and behind that they have. -/
def WaitsFor (calls : ι → Call) (p : ι) (others : ι → Prop) (s : State L) : Prop :=
  Inv calls s ∧ (∀ q, others q → Past calls s q) ∧
    (s.pc p = .waiting ∨ s.pc p = .crashed false ∨ ∀ q, others q → (s.pc q).isOver = true)

theorem WaitsFor.step {p : ι} {others : ι → Prop} (h : WaitsFor calls p others s)
    (hs : step calls s a = some t) : WaitsFor calls p others t := by
  obtain ⟨hinv, hpast, hcases⟩ := h
  refine ⟨hinv.step hs, fun q hq => (hpast q hq).step hs, ?_⟩
  rcases hcases with hpc | hpc | hover
  · -- the one that waits gets the lock only if no other one has a part of it
    have hpcs : ∀ (q : ι) (pc : Pc) (lock : L.State), t = s.goto q pc lock → s.pc q ≠ .waiting →
        t.pc p = .waiting := by
      rintro q pc lock rfl hne
      have hq : p ≠ q := by
        rintro rfl
        exact hne hpc
      rw [goto_pc_of_ne s hq, hpc]
    cases effect_of_step hs with
    | take hq => exact .inl (hpcs _ _ _ rfl (by rw [hq]; exact Pc.noConfusion))
    | share hq => exact .inl (hpcs _ _ _ rfl (by rw [hq]; exact Pc.noConfusion))
    | wait hq => exact .inl (hpcs _ _ _ rfl (by rw [hq]; exact Pc.noConfusion))
    | refuse hq => exact .inl (hpcs _ _ _ rfl (by rw [hq]; exact Pc.noConfusion))
    | finish threw hq => exact .inl (hpcs _ _ _ rfl (by rw [hq]; exact Pc.noConfusion))
    | unlock threw hq => exact .inl (hpcs _ _ _ rfl (by rw [hq]; exact Pc.noConfusion))
    | leave hq => exact .inl (hpcs _ _ _ rfl (by rw [hq]; exact Pc.noConfusion))
    | acquire hq hlock =>
      refine .inr (.inr fun r hr => ?_)
      refine over_step hs ((hpast r hr).resolve_right fun hmode => ?_)
      rw [hinv.none_of_tryLock hlock r] at hmode
      cases hmode
    | @crash q hq =>
      by_cases hqp : q = p
      · subst hqp
        refine .inr (.inl ?_)
        rw [goto_pc_self, hpc]
        rfl
      · left
        rw [goto_pc_of_ne s (Ne.symm hqp), hpc]
  · refine .inr (.inl ?_)
    rcases step_pc hs p with heq | ⟨hnot, -⟩
    · rw [heq, hpc]
    · rw [hpc] at hnot
      cases hnot
  · exact .inr (.inr fun q hq => over_step hs (hover q hq))

/-- **A call that waits returns behind what it waits for**: each party that had a part of the lock when
`single_process_job` found that it was not free has let it go. -/
theorem returns_behind {s₁ : State L} (h : Reachable (step calls) (init L) s) {p : ι}
    (hs : step calls s (.enter p) = some s₁) (hwait : s₁.pc p = .waiting)
    (hrun : Reachable (step calls) s₁ t) (hret : t.pc p = .returned false) :
    ∀ q, (mode (calls q) (s.pc q)).isSome = true → (t.pc q).isOver = true := by
  have hinv := inv_of_reachable h
  have hstart : WaitsFor calls p (fun q => (mode (calls q) (s.pc q)).isSome = true) s₁ :=
    ⟨hinv.step hs, fun q hq => Past.step (.inr hq) hs, .inl hwait⟩
  obtain ⟨-, -, hcases⟩ := hrun.invariant hstart fun hw _ hs => hw.step hs
  rcases hcases with hpc | hpc | hover
  · rw [hret] at hpc
    cases hpc
  · rw [hret] at hpc
    cases hpc
  · exact hover

/-- The second process waits for the job of the first one. -/
theorem returns_behind_oneRuns : ∃ t : State (FileLock.table Bool),
    t.pc false = .returned false ∧ (t.pc true).isOver = true := by
  have hwait : step (fun _ => .singleProcessJob) oneRuns (.enter false) =
      some (oneRuns.goto false .waiting oneRuns.lock) := rfl
  obtain ⟨t, hrun, hret⟩ := exists_run_of_exec (step fun _ => .singleProcessJob) (fun _ _ => true)
    (oneRuns.goto false .waiting oneRuns.lock)
    [.finish true false, .unlock true, .acquire false, .leave false]
    (fun t => decide (t.pc false = .returned false)) (by decide)
  have hret := of_decide_eq_true hret
  exact ⟨t, hret, returns_behind reachable_oneRuns hwait rfl hrun.reachable hret true rfl⟩

theorem ran_step (hs : step calls s a = some t) {q : ι} (h : (s.pc q).ran = true) :
    (t.pc q).ran = true := by
  have hother : ∀ (p : ι) (pc : Pc) (lock : L.State), ((s.pc p).ran = true → pc.ran = true) →
      ((s.goto p pc lock).pc q).ran = true := by
    intro p pc lock hpc
    by_cases hq : q = p
    · rw [hq, goto_pc_self]
      exact hpc (hq ▸ h)
    · rwa [goto_pc_of_ne s hq]
  cases effect_of_step hs with
  | take hpc => exact hother _ _ _ fun _ => rfl
  | share hpc => exact hother _ _ _ fun _ => rfl
  | wait hpc => exact hother _ _ _ fun h => by rw [hpc] at h; cases h
  | refuse hpc => exact hother _ _ _ fun h => by rw [hpc] at h; cases h
  | finish threw hpc => exact hother _ _ _ fun _ => rfl
  | unlock threw hpc => exact hother _ _ _ fun _ => by cases threw <;> rfl
  | acquire hpc => exact hother _ _ _ fun h => by rw [hpc] at h; cases h
  | leave hpc => exact hother _ _ _ fun h => by rw [hpc] at h; cases h
  | crash hpc => exact hother _ _ _ fun h => h

/-- A party that goes by without its body, or did. -/
def Pc.without : Pc → Bool
  | .waiting | .second => true
  | .returned ran => !ran
  | _ => false

/-- If a party goes by without its body, another one is in its, or was. -/
def Ran (s : State L) : Prop := ∀ p, (s.pc p).without = true → ∃ q, (s.pc q).ran = true

theorem Ran.step (h : Ran s) (hinv : Inv calls s) (hs : step calls s a = some t) : Ran t := by
  have hkeep : (∃ q, (s.pc q).ran = true) → ∃ q, (t.pc q).ran = true := by
    rintro ⟨q, hq⟩
    exact ⟨q, ran_step hs hq⟩
  -- the lock is not free: the party that has it is in its body, or goes by without it
  have hlocked : ∀ {p : ι}, L.tryLock p s.lock = none → ∃ q, (s.pc q).ran = true := by
    intro p hlock
    obtain ⟨q, hmode⟩ := hinv.exists_of_tryLock hlock
    cases hpc : s.pc q with
    | body => exact ⟨q, by rw [hpc]; rfl⟩
    | leaving threw => exact ⟨q, by rw [hpc]; rfl⟩
    | second => exact h q (by rw [hpc]; rfl)
    | start => rw [hpc] at hmode; cases hmode
    | waiting => rw [hpc] at hmode; cases hmode
    | returned ran => rw [hpc] at hmode; cases hmode
    | thrown => rw [hpc] at hmode; cases hmode
    | crashed ran => rw [hpc] at hmode; cases hmode
  have hother : ∀ (p : ι) (pc : Pc) (lock : L.State), t = s.goto p pc lock →
      (pc.without = true → ∃ q, (s.pc q).ran = true) → Ran t := by
    rintro p pc lock rfl hpc q hq
    by_cases hqp : q = p
    · rw [hqp, goto_pc_self] at hq
      exact hkeep (hpc hq)
    · rw [goto_pc_of_ne s hqp] at hq
      exact hkeep (h q hq)
  cases effect_of_step hs with
  | take hpc => exact hother _ _ _ rfl Bool.noConfusion
  | share hpc => exact hother _ _ _ rfl Bool.noConfusion
  | wait hpc hcall hlock => exact hother _ _ _ rfl fun _ => hlocked hlock
  | refuse hpc hcall hlock => exact hother _ _ _ rfl fun _ => hlocked hlock
  | finish threw hpc => exact hother _ _ _ rfl Bool.noConfusion
  | unlock threw hpc => exact hother _ _ _ rfl (by cases threw <;> exact Bool.noConfusion)
  | @acquire p _ hpc => exact hother _ _ _ rfl fun _ => h p (by rw [hpc]; rfl)
  | @leave p hpc => exact hother _ _ _ rfl fun _ => h p (by rw [hpc]; rfl)
  | crash hpc => exact hother _ _ _ rfl Bool.noConfusion

/-- **No job is skipped for nothing**: a call returns without having run its job only if another party has
been in its body. -/
theorem returned_without (h : Reachable (step calls) (init L) s) {p : ι}
    (hp : s.pc p = .returned false) : ∃ q, q ≠ p ∧ (s.pc q).ran = true := by
  have hstart : Inv calls (init L) ∧ Ran (init L) := ⟨inv_init, fun _ hq => by cases hq⟩
  have hstep : ∀ {s t : State L} {a : Action ι}, Inv calls s ∧ Ran s → step calls s a = some t →
      Inv calls t ∧ Ran t :=
    fun hi hs => ⟨hi.1.step hs, hi.2.step hi.1 hs⟩
  obtain ⟨q, hq⟩ := (h.invariant hstart fun hi _ hs => hstep hi hs).2 p (by rw [hp]; rfl)
  refine ⟨q, ?_, hq⟩
  rintro rfl
  rw [hp] at hq
  cases hq

theorem returned_without_oneRuns : ∃ t : State (FileLock.table Bool),
    t.pc false = .returned false ∧ ∃ q, q ≠ false ∧ (t.pc q).ran = true := by
  obtain ⟨t, hrun, hret⟩ := exists_run_of_exec (step fun _ => .singleProcessJob) (fun _ _ => true) oneRuns
    [.enter false, .finish true false, .unlock true, .acquire false, .leave false]
    (fun t => decide (t.pc false = .returned false)) (by decide)
  have hret := of_decide_eq_true hret
  exact ⟨t, hret, returned_without (reachable_oneRuns.trans hrun.reachable) hret⟩

/-! ## The end -/

/-- How many steps a party has before it, at most. -/
def Pc.rank : Pc → Nat
  | .start => 4
  | .waiting => 3
  | .body => 2
  | .leaving _ | .second => 1
  | .returned _ | .thrown | .crashed _ => 0

theorem rank_pos {pc : Pc} (h : pc.isOver = false) : 0 < pc.rank := by
  cases pc with
  | start => exact Nat.succ_pos 3
  | body => exact Nat.succ_pos 1
  | leaving threw => exact Nat.succ_pos 0
  | waiting => exact Nat.succ_pos 2
  | second => exact Nat.succ_pos 0
  | returned ran => cases h
  | thrown => cases h
  | crashed ran => cases h

/-- The steps of all parties, at most. -/
def total [Fintype ι] (s : State L) : Nat := ∑ p, (s.pc p).rank

theorem total_step [Fintype ι] (hs : step calls s a = some t) : total t < total s := by
  have hless : ∀ (p : ι) (pc : Pc) (lock : L.State), pc.rank < (s.pc p).rank →
      total (s.goto p pc lock) < total s := by
    intro p pc lock hlt
    refine Finset.sum_lt_sum (fun q _ => ?_) ⟨p, Finset.mem_univ p, ?_⟩
    · by_cases hq : q = p
      · rw [hq, goto_pc_self]
        exact Nat.le_of_lt hlt
      · rw [goto_pc_of_ne s hq]
    · rwa [goto_pc_self]
  cases effect_of_step hs with
  | take hpc => exact hless _ _ _ (by rw [hpc]; decide)
  | share hpc => exact hless _ _ _ (by rw [hpc]; decide)
  | wait hpc => exact hless _ _ _ (by rw [hpc]; decide)
  | refuse hpc => exact hless _ _ _ (by rw [hpc]; decide)
  | finish threw hpc => exact hless _ _ _ (by rw [hpc]; exact Nat.one_lt_two)
  | unlock threw hpc => exact hless _ _ _ (by rw [hpc]; cases threw <;> decide)
  | acquire hpc => exact hless _ _ _ (by rw [hpc]; decide)
  | leave hpc => exact hless _ _ _ (by rw [hpc]; decide)
  | crash hpc => exact hless _ _ _ (rank_pos hpc)

theorem length_exec [Fintype ι] {as : List (Action ι)}
    (h : exec (step calls) (fun _ _ => true) s as = some t) : as.length + total t ≤ total s := by
  induction as generalizing s with
  | nil =>
    cases h
    exact Nat.le_of_eq (Nat.zero_add _)
  | cons a as ih =>
    rw [exec, if_pos rfl] at h
    split at h
    · cases h
    · rename_i u hu
      have hlt := total_step hu
      have hle := ih h
      rw [List.length_cons]
      omega

/-- A party that is not over can go on, or another one can. -/
theorem over_of_stuck (hinv : Inv calls s) (hstuck : ∀ a, a.isCrash = false → step calls s a = none)
    (p : ι) : (s.pc p).isOver = true := by
  have hnone : ∀ q, mode (calls q) (s.pc q) = none := by
    intro q
    cases hpc : s.pc q with
    | body =>
      have hstep := hstuck (.finish q false) rfl
      rw [step, if_pos hpc] at hstep
      cases hstep
    | leaving threw =>
      have hstep := hstuck (.unlock q) rfl
      simp only [step, hpc] at hstep
      cases hstep
    | second =>
      have hstep := hstuck (.leave q) rfl
      rw [step, if_pos hpc] at hstep
      cases hstep
    | start => rfl
    | waiting => rfl
    | returned ran => rfl
    | thrown => rfl
    | crashed ran => rfl
  obtain ⟨howner, hsharers⟩ := hinv.free hnone
  obtain ⟨lock, hlock⟩ : ∃ lock, L.tryLock p s.lock = some lock := by
    refine Option.ne_none_iff_exists'.mp fun hnot => ?_
    exact (L.tryLock_eq_none p s.lock).mp hnot ⟨howner, hsharers⟩
  obtain ⟨shared, hshared⟩ : ∃ lock, L.tryLockSharable p s.lock = some lock := by
    refine Option.ne_none_iff_exists'.mp fun hnot => ?_
    exact (L.tryLockSharable_eq_none p s.lock).mp hnot howner
  cases hpc : s.pc p with
  | start =>
    have hstep := hstuck (.enter p) rfl
    rw [step, if_pos hpc] at hstep
    cases hcall : calls p <;> simp [hcall, hlock, hshared] at hstep
  | waiting =>
    have hstep := hstuck (.acquire p) rfl
    rw [step, if_pos hpc, hlock] at hstep
    cases hstep
  | body =>
    have hmode := hnone p
    rw [hpc] at hmode
    cases hmode
  | leaving threw =>
    have hmode := hnone p
    rw [hpc] at hmode
    cases hmode
  | second =>
    have hmode := hnone p
    rw [hpc] at hmode
    cases hmode
  | returned ran => rfl
  | thrown => rfl
  | crashed ran => rfl

/-- **All calls come to an end**, in whatever order the steps are taken: there are no more than four for
each, and where none is left but that a process crashes, each call is over. -/
theorem calls_end [Fintype ι] (L : FileLock ι) (calls : ι → Call) :
    (∀ as t, exec (step calls) (fun _ _ => true) (init L) as = some t → as.length ≤ 4 * Fintype.card ι) ∧
      ∀ t, Reachable (step calls) (init L) t →
        (∀ a, a.isCrash = false → step calls t a = none) → ∀ p, (t.pc p).isOver = true := by
  refine ⟨fun as t h => ?_, fun t h hstuck => over_of_stuck (inv_of_reachable h) hstuck⟩
  have hle := length_exec h
  have htotal : total (init L) = 4 * Fintype.card ι := by
    rw [total, init]
    simp [Pc.rank, Nat.mul_comm]
  omega

end Primitives.Locks
