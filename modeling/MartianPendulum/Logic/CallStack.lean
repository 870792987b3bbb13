import Mathlib.Data.BitVec
import Mathlib.Logic.Function.Basic

/-
  A stack of 32-bit words.

  The stack grows down.  `Stacked` lists the words from the
  top of the stack on; pushing and popping act on this list.
  The registers are a parameter, so that registers narrower
  than a word can be saved as well.

  Key definitions include:
    * `RegisterFile`
    * `Machine.push`
    * `Machine.pop`
    * `Stacked`

  Key theorems include:
    * `stacked_push`
    * `stacked_pushAll`
    * `popAll_of_stacked`
-/

------------------------------------------------------------
-- Machines
------------------------------------------------------------

namespace Logic

/-
  Registers that are saved and loaded as words.  A word that
  was read from a register fits into it.
-/
structure RegisterFile
    (ρ σ : Type) where
  read : σ → ρ → BitVec 32
  write : ρ → BitVec 32 → σ → σ
  fits : ∀ s₀ s r,
    read (write r (read s₀ r) s) r = read s₀ r
  other : ∀ s r r' v, r' ≠ r →
    read (write r v s) r' = read s r'

/- Memory is read by the address of a word. -/
@[ext] structure Machine
    (σ : Type) where
  regs : σ
  esp : BitVec 32
  mem : BitVec 32 → BitVec 32

namespace Machine

variable {ρ σ : Type}

def push
    (v : BitVec 32)
    (m : Machine σ) : Machine σ :=
  { m with
    esp := m.esp - 4
    mem := Function.update m.mem (m.esp - 4) v }

/- The word that a pop takes. -/
def top
    (m : Machine σ) : BitVec 32 :=
  m.mem m.esp

variable (F : RegisterFile ρ σ)

def pushReg
    (r : ρ)
    (m : Machine σ) : Machine σ :=
  m.push (F.read m.regs r)

def pop
    (r : ρ)
    (m : Machine σ) : Machine σ :=
  { m with
    regs := F.write r m.top m.regs
    esp := m.esp + 4 }

/- Push or pop registers, the first one first. -/
def pushAll
    (rs : List ρ)
    (m : Machine σ) : Machine σ :=
  rs.foldl (fun m r => m.pushReg F r) m

def popAll
    (rs : List ρ)
    (m : Machine σ) : Machine σ :=
  rs.foldl (fun m r => m.pop F r) m

end Machine

/- The words from address `a` on. -/
def Stacked
    (mem : BitVec 32 → BitVec 32) :
    BitVec 32 → List (BitVec 32) → Prop
| _, [] => True
| a, v :: vs => mem a = v ∧ Stacked mem (a + 4) vs

end Logic

------------------------------------------------------------
-- Words on the Stack
------------------------------------------------------------

namespace Logic

variable {σ : Type}

theorem word_succ
    (a : BitVec 32)
    (i : Nat) :
    a + 4 + 4 * BitVec.ofNat 32 i =
      a + 4 * BitVec.ofNat 32 (i + 1) := by
  apply BitVec.eq_of_toNat_eq
  simp only [BitVec.toNat_add, BitVec.toNat_mul,
    BitVec.toNat_ofNat, BitVec.ofNat_eq_ofNat]
  omega

/- Only the words of the list matter. -/
theorem Stacked.congr
    {mem mem' : BitVec 32 → BitVec 32}
    {a : BitVec 32}
    {vs : List (BitVec 32)}
    (hStacked : Stacked mem a vs)
    (hSame : ∀ i < vs.length,
      mem' (a + 4 * BitVec.ofNat 32 i) =
        mem (a + 4 * BitVec.ofNat 32 i)) :
    Stacked mem' a vs := by
  induction vs generalizing a with
  | nil => trivial
  | cons v vs ih =>
      have hHere := hSame 0 (by simp)
      simp only [BitVec.ofNat_eq_ofNat, BitVec.mul_zero,
        BitVec.add_zero] at hHere
      refine ⟨hHere.trans hStacked.1, ih hStacked.2 ?_⟩
      intro i hi
      rw [word_succ]
      exact hSame (i + 1) (by simpa using hi)

/- The words below the list. -/
theorem stacked_append
    {mem : BitVec 32 → BitVec 32}
    {a : BitVec 32}
    (vs ws : List (BitVec 32)) :
    Stacked mem a (vs ++ ws) ↔
      Stacked mem a vs ∧
        Stacked mem
          (a + 4 * BitVec.ofNat 32 vs.length) ws := by
  induction vs generalizing a with
  | nil => simp [Stacked]
  | cons v vs ih =>
      rw [List.cons_append, Stacked, Stacked, ih, word_succ,
        List.length_cons, and_assoc]

/- A push puts its word in front. -/
theorem stacked_push
    {m : Machine σ}
    {vs : List (BitVec 32)}
    (hStacked : Stacked m.mem m.esp vs)
    (hRoom : vs.length < 2 ^ 30 - 1)
    (v : BitVec 32) :
    Stacked (m.push v).mem (m.push v).esp (v :: vs) := by
  refine ⟨Function.update_self _ _ _, ?_⟩
  have hBack : (m.push v).esp + 4 = m.esp :=
    BitVec.sub_add_cancel m.esp 4
  rw [hBack]
  refine hStacked.congr ?_
  intro i hi
  refine Function.update_of_ne ?_ _ _
  -- the stack does not reach around the address space
  intro hWrap
  have hNat := congrArg BitVec.toNat hWrap
  simp only [BitVec.toNat_add, BitVec.toNat_sub,
    BitVec.toNat_mul, BitVec.toNat_ofNat,
    BitVec.ofNat_eq_ofNat] at hNat
  omega

end Logic

------------------------------------------------------------
-- Saving and Restoring Registers
------------------------------------------------------------

namespace Logic

variable {ρ σ : Type}
variable (F : RegisterFile ρ σ)

namespace Machine

theorem regs_pushAll
    (rs : List ρ)
    (m : Machine σ) :
    (m.pushAll F rs).regs = m.regs := by
  induction rs generalizing m with
  | nil => rfl
  | cons r rs ih => exact ih (m.pushReg F r)

theorem esp_pushAll
    (rs : List ρ)
    (m : Machine σ) :
    (m.pushAll F rs).esp +
        4 * BitVec.ofNat 32 rs.length = m.esp := by
  induction rs generalizing m with
  | nil => simp [pushAll]
  | cons r rs ih =>
      have hNext := ih (m.pushReg F r)
      simp only [pushAll, List.foldl_cons] at hNext ⊢
      rw [List.length_cons, ← word_succ, BitVec.add_assoc,
        BitVec.add_comm 4, ← BitVec.add_assoc, hNext]
      exact BitVec.sub_add_cancel m.esp 4

/- Pushes write below the stack pointer. -/
theorem mem_push_of_le
    {m : Machine σ}
    {a : BitVec 32}
    (hRoom : 4 ≤ m.esp.toNat)
    (hAbove : m.esp.toNat ≤ a.toNat)
    (v : BitVec 32) :
    (m.push v).mem a = m.mem a ∧
      (m.push v).esp.toNat = m.esp.toNat - 4 := by
  have hEsp : (m.esp - 4).toNat = m.esp.toNat - 4 := by
    rw [BitVec.toNat_sub_of_le]
    · rfl
    · exact hRoom
  refine ⟨Function.update_of_ne ?_ _ _, hEsp⟩
  rintro rfl
  omega

theorem mem_pushAll_of_le
    {m : Machine σ}
    {a : BitVec 32}
    (rs : List ρ)
    (hRoom : 4 * rs.length ≤ m.esp.toNat)
    (hAbove : m.esp.toNat ≤ a.toNat) :
    (m.pushAll F rs).mem a = m.mem a ∧
      (m.pushAll F rs).esp.toNat =
        m.esp.toNat - 4 * rs.length := by
  induction rs generalizing m with
  | nil => exact ⟨rfl, rfl⟩
  | cons r rs ih =>
      rw [List.length_cons] at hRoom
      rcases mem_push_of_le (by omega) hAbove
          (F.read m.regs r) with
        ⟨hMem, hEsp⟩
      rcases @ih (m.pushReg F r) (by
          simp only [pushReg]
          omega) (by
          simp only [pushReg]
          omega) with
        ⟨hRest, hDown⟩
      refine ⟨hRest.trans hMem, hDown.trans ?_⟩
      simp only [pushReg, hEsp, List.length_cons]
      omega

end Machine

/- The registers pushed last are on top. -/
theorem stacked_pushAll
    {m : Machine σ}
    {vs : List (BitVec 32)}
    (rs : List ρ)
    (hStacked : Stacked m.mem m.esp vs)
    (hRoom : rs.length + vs.length < 2 ^ 30) :
    Stacked (m.pushAll F rs).mem (m.pushAll F rs).esp
      (rs.reverse.map (F.read m.regs) ++ vs) := by
  induction rs generalizing m vs with
  | nil => simpa [Machine.pushAll] using hStacked
  | cons r rs ih =>
      rw [List.length_cons] at hRoom
      have hPush := stacked_push hStacked (by omega)
        (F.read m.regs r)
      have hRest := @ih (m.pushReg F r) _ hPush (by
        rw [List.length_cons]
        omega)
      rw [List.reverse_cons, List.map_append,
        List.append_assoc]
      exact hRest

/-
  Popping the words of saved registers restores these
  registers and touches nothing else.
-/
theorem popAll_of_stacked
    (s₀ : σ)
    {m : Machine σ}
    {vs : List (BitVec 32)}
    (rs : List ρ)
    (hStacked : Stacked m.mem m.esp
      (rs.map (F.read s₀) ++ vs)) :
    Stacked m.mem (m.popAll F rs).esp vs ∧
      (m.popAll F rs).mem = m.mem ∧
      (m.popAll F rs).esp =
        m.esp + 4 * BitVec.ofNat 32 rs.length ∧
      (∀ r ∈ rs,
        F.read (m.popAll F rs).regs r = F.read s₀ r) ∧
      ∀ r ∉ rs,
        F.read (m.popAll F rs).regs r =
          F.read m.regs r := by
  induction rs generalizing m with
  | nil => simpa [Machine.popAll] using hStacked
  | cons x rs ih =>
      rcases @ih (m.pop F x) hStacked.2 with
        ⟨hRest, hMem, hEsp, hIn, hOut⟩
      simp only [Machine.popAll, List.foldl_cons] at *
      have hHere : F.read (m.pop F x).regs x =
          F.read s₀ x := by
        simp only [Machine.pop, Machine.top]
        rw [hStacked.1, F.fits]
      refine ⟨hRest, hMem, ?_, ?_, ?_⟩
      · rw [hEsp, List.length_cons, ← word_succ]
        rfl
      · intro r hr
        by_cases hTail : r ∈ rs
        · exact hIn r hTail
        · rcases List.mem_cons.mp hr with rfl | hTail'
          · exact (hOut r hTail).trans hHere
          · exact absurd hTail' hTail
      · intro r hr
        rw [List.mem_cons, not_or] at hr
        rw [hOut r hr.2]
        exact F.other _ _ _ _ hr.1

end Logic
