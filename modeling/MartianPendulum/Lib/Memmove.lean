import MartianPendulum.Lib.Memory

/-
  `memmove`, `memset_word` and `memset_dword` of `lib.c`.

  `memmove` copies upwards from a source that lies above,
  and downwards from one that lies below, so that no byte is
  overwritten before it is read.  It leaves the direction
  flag as it was needed.

  Key definitions include:
    * `memmove`
    * `memsetWord`, `memsetDword`

  Key theorems include:
    * `movsbUp_eq_blit`, `movsbDown_eq_blit`
    * `memmove_moves_overlapping`
-/

------------------------------------------------------------
-- The Routines
------------------------------------------------------------

namespace MartianPendulum

/- A register after a subtraction. -/
def subReg
    (r n : Nat) : Nat :=
  (r + (2 ^ 32 - n)) % 2 ^ 32

/- `movsb` with the direction flag set -/
def movsbDown
    (s : CopyState) : CopyState :=
  { edi := subReg s.edi 1
    esi := subReg s.esi 1
    mem := Function.update s.mem s.edi (s.mem s.esi) }

/- `memmove`: memory and the direction flag. -/
def memmove
    (dest src n : Nat)
    (mem : Ptr) : Ptr × Bool :=
  if src ≥ dest then
    ((movsb^[n] { edi := dest, esi := src, mem := mem }).mem,
      false)
  else
    ((movsbDown^[n]
      { edi := subReg (addReg dest n) 1
        esi := subReg (addReg src n) 1
        mem := mem }).mem, true)

/- `stosw` -/
def stosw
    (eax : UInt32)
    (s : CopyState) : CopyState :=
  { s with
    edi := addReg s.edi 2
    mem := (List.range 2).foldl
      (fun mem i =>
        Function.update mem (addReg s.edi i) (byteOf eax i))
      s.mem }

/- `memset_word`; `n` counts words. -/
def memsetWord
    (s : Nat)
    (c : UInt32)
    (n : Nat)
    (mem : Ptr) : Ptr :=
  ((stosw c)^[n] { edi := s, esi := 0, mem := mem }).mem

/- `memset_dword`; `n` counts words of four bytes. -/
def memsetDword
    (s : Nat)
    (c : UInt32)
    (n : Nat)
    (mem : Ptr) : Ptr :=
  ((stosl c)^[n] { edi := s, esi := 0, mem := mem }).mem

end MartianPendulum

------------------------------------------------------------
-- Moving Bytes
------------------------------------------------------------

namespace MartianPendulum

section Move

variable {dest src n : Nat}

/- Upwards the next source byte is not yet written. -/
theorem movsbUp_eq_blit
    (hDest : dest + n ≤ 2 ^ 32)
    (hDestStart : dest < 2 ^ 32)
    (hSrc : src + n ≤ 2 ^ 32)
    (hSrcStart : src < 2 ^ 32)
    (hAbove : dest ≤ src)
    (mem : Ptr) :
    (movsb^[n] { edi := dest, esi := src, mem := mem }).mem =
      Logic.blit mem dest n (fun i => mem (src + i)) := by
  have hInit : CopiedUpTo dest src mem 0
      { edi := dest, esi := src, mem := mem } :=
    ⟨(Nat.mod_eq_of_lt hDestStart).symm,
      (Nat.mod_eq_of_lt hSrcStart).symm,
      (Logic.blit_zero mem dest _).symm⟩
  have hEnd := Logic.iterate_invariant (f := movsb)
    (I := CopiedUpTo dest src mem) (n := n) (k := 0)
    (fun k r hCopied hk => by
      rcases hCopied with ⟨hEdi, hEsi, hMem⟩
      have hTo := addReg_of_lt
        (show dest + k < 2 ^ 32 by omega)
      have hFrom := addReg_of_lt
        (show src + k < 2 ^ 32 by omega)
      refine ⟨?_, ?_, ?_⟩
      · change addReg r.edi 1 = _
        rw [hEdi, addReg_addReg]
      · change addReg r.esi 1 = _
        rw [hEsi, addReg_addReg]
      · change Function.update r.mem r.edi (r.mem r.esi) = _
        rw [hEdi, hEsi, hTo, hFrom, hMem,
          Logic.blit_apply_of_outside mem
            (fun i => mem (src + i)) (by omega)]
        exact Logic.blit_succ mem dest k
          (fun i => mem (src + i)))
    hInit (show 0 + n * 1 ≤ n by omega)
  rw [Nat.zero_add, Nat.mul_one] at hEnd
  exact hEnd.mem

/- The last `k` bytes are copied. -/
structure CopiedDownTo
    (dest src n : Nat)
    (mem : Ptr)
    (k : Nat)
    (r : CopyState) : Prop where
  edi : r.edi = subReg (addReg dest (n - k)) 1
  esi : r.esi = subReg (addReg src (n - k)) 1
  mem : r.mem =
    Logic.blit mem (dest + (n - k)) k
      (fun i => mem (src + (n - k) + i))

theorem subReg_addReg
    {r m : Nat}
    (hFit : r + m ≤ 2 ^ 32)
    (hPos : 0 < m) :
    subReg (addReg r m) 1 = r + (m - 1) := by
  unfold subReg addReg
  omega

theorem subReg_step
    {r m : Nat}
    (hFit : r + m ≤ 2 ^ 32)
    (hPos : 0 < m) :
    subReg (subReg (addReg r m) 1) 1 =
      subReg (addReg r (m - 1)) 1 := by
  rw [subReg_addReg hFit hPos]
  unfold subReg addReg
  omega

/- Downwards the next source byte lies below what is written. -/
theorem movsbDown_eq_blit
    (hDest : dest + n ≤ 2 ^ 32)
    (hBelow : src < dest)
    (mem : Ptr) :
    (movsbDown^[n]
        { edi := subReg (addReg dest n) 1
          esi := subReg (addReg src n) 1
          mem := mem }).mem =
      Logic.blit mem dest n (fun i => mem (src + i)) := by
  have hInit : CopiedDownTo dest src n mem 0
      { edi := subReg (addReg dest n) 1
        esi := subReg (addReg src n) 1
        mem := mem } :=
    ⟨rfl, rfl, (Logic.blit_zero mem _ _).symm⟩
  have hEnd := Logic.iterate_invariant (f := movsbDown)
    (I := CopiedDownTo dest src n mem) (n := n) (k := 0)
    (fun k r hCopied hk => by
      rcases hCopied with ⟨hEdi, hEsi, hMem⟩
      obtain ⟨m, hm⟩ : ∃ m, n - k = m + 1 :=
        ⟨n - k - 1, by omega⟩
      have hNext : n - (k + 1) = m := by omega
      have hTo : subReg (addReg dest (m + 1)) 1 = dest + m :=
        subReg_addReg (by omega) (Nat.succ_pos m)
      have hFrom : subReg (addReg src (m + 1)) 1 = src + m :=
        subReg_addReg (by omega) (Nat.succ_pos m)
      rw [hm] at hEdi hEsi hMem
      refine ⟨?_, ?_, ?_⟩
      · change subReg r.edi 1 = _
        rw [hEdi, subReg_step (by omega) (by omega),
          hNext, Nat.add_sub_cancel]
      · change subReg r.esi 1 = _
        rw [hEsi, subReg_step (by omega) (by omega),
          hNext, Nat.add_sub_cancel]
      · change Function.update r.mem r.edi (r.mem r.esi) = _
        have hRest : (fun i => mem (src + (m + 1) + i)) =
            fun i => mem (src + m + (i + 1)) := by
          funext i
          rw [show src + (m + 1) + i = src + m + (i + 1) by
            omega]
        rw [hEdi, hEsi, hTo, hFrom, hMem, hNext,
          Logic.blit_apply_of_outside _ _ (by omega), hRest]
        exact Logic.blit_pred mem (dest + m) k
          (fun i => mem (src + m + i)))
    hInit (show 0 + n * 1 ≤ n by omega)
  rw [Nat.zero_add, Nat.mul_one] at hEnd
  have hMem := hEnd.mem
  rw [Nat.sub_self, Nat.add_zero, Nat.add_zero] at hMem
  exact hMem

/-
  `memmove` moves the bytes however the two areas overlap,
  and leaves the direction flag set exactly if it had to go
  downwards.
-/
theorem memmove_moves_overlapping
    (hDest : dest + n ≤ 2 ^ 32)
    (hDestStart : dest < 2 ^ 32)
    (hSrc : src + n ≤ 2 ^ 32)
    (hSrcStart : src < 2 ^ 32)
    (mem : Ptr) :
    memmove dest src n mem =
      (Logic.blit mem dest n (fun i => mem (src + i)),
        decide (src < dest)) := by
  unfold memmove
  by_cases hAbove : src ≥ dest
  · rw [if_pos hAbove, movsbUp_eq_blit hDest hDestStart hSrc
      hSrcStart hAbove, decide_eq_false (by omega)]
  · rw [if_neg hAbove, movsbDown_eq_blit hDest (by omega),
      decide_eq_true (by omega)]

end Move

/- A move by one byte onto itself. -/
theorem memmove_moves_overlapping_shift :
    memmove 1 0 3 (fun i => UInt8.ofNat i) =
      (Logic.blit (fun i => UInt8.ofNat i) 1 3
        (fun i => UInt8.ofNat (0 + i)), true) :=
  memmove_moves_overlapping (by decide) (by decide)
    (by decide) (by decide) (fun i => UInt8.ofNat i)

end MartianPendulum

------------------------------------------------------------
-- Filling with Words
------------------------------------------------------------

namespace MartianPendulum

/- `k` bytes are filled with the bytes of a register. -/
structure FilledUpTo
    (s size : Nat)
    (c : UInt32)
    (mem : Ptr)
    (k : Nat)
    (r : CopyState) : Prop where
  edi : r.edi = addReg s k
  whole : k % size = 0
  mem : r.mem =
    Logic.blit mem s k (fun i => byteOf c (i % size))

section Fill

variable {s n : Nat}

theorem memsetWord_eq_blit
    (hFit : s + n * 2 ≤ 2 ^ 32)
    (hStart : s < 2 ^ 32)
    (c : UInt32)
    (mem : Ptr) :
    memsetWord s c n mem =
      Logic.blit mem s (n * 2) (fun i => byteOf c (i % 2)) := by
  have hInit : FilledUpTo s 2 c mem 0
      { edi := s, esi := 0, mem := mem } :=
    ⟨(Nat.mod_eq_of_lt hStart).symm, rfl,
      (Logic.blit_zero mem s _).symm⟩
  have hEnd := Logic.iterate_invariant (f := stosw c)
    (I := FilledUpTo s 2 c mem) (n := n) (k := 0)
    (fun k r hFilled hk => by
      rcases hFilled with ⟨hEdi, hWhole, hMem⟩
      have hHere := addReg_of_lt
        (show s + k < 2 ^ 32 by omega)
      refine ⟨?_, by omega, ?_⟩
      · change addReg r.edi 2 = _
        rw [hEdi, addReg_addReg]
      · change (List.range 2).foldl
          (fun mem i => Function.update mem
            (addReg r.edi i) (byteOf c i)) r.mem = _
        have hLow : k % 2 = 0 := hWhole
        have hHigh : (k + 1) % 2 = 1 := by omega
        have hFirst := Logic.blit_succ mem s k
          (fun i => byteOf c (i % 2))
        have hSecond := Logic.blit_succ mem s (k + 1)
          (fun i => byteOf c (i % 2))
        simp only [List.range_succ, List.range_zero,
          List.nil_append, List.cons_append,
          List.foldl_cons, List.foldl_nil]
        rw [hEdi, hHere, addReg_of_lt (by omega),
          addReg_of_lt (by omega), hMem]
        rw [hLow] at hFirst
        rw [hHigh, ← hFirst] at hSecond
        exact hSecond)
    hInit (show 0 + n * 2 ≤ n * 2 by omega)
  rw [Nat.zero_add] at hEnd
  exact hEnd.mem

theorem memsetDword_eq_blit
    (hFit : s + n * 4 ≤ 2 ^ 32)
    (hStart : s < 2 ^ 32)
    (c : UInt32)
    (mem : Ptr) :
    memsetDword s c n mem =
      Logic.blit mem s (n * 4) (fun i => byteOf c (i % 4)) := by
  have hInit : FilledUpTo s 4 c mem 0
      { edi := s, esi := 0, mem := mem } :=
    ⟨(Nat.mod_eq_of_lt hStart).symm, rfl,
      (Logic.blit_zero mem s _).symm⟩
  have hEnd := Logic.iterate_invariant (f := stosl c)
    (I := FilledUpTo s 4 c mem) (n := n) (k := 0)
    (fun k r hFilled hk => by
      rcases hFilled with ⟨hEdi, hWhole, hMem⟩
      have hHere := addReg_of_lt
        (show s + k < 2 ^ 32 by omega)
      refine ⟨?_, by omega, ?_⟩
      · change addReg r.edi 4 = _
        rw [hEdi, addReg_addReg]
      · change storeWord r.edi (byteOf c) r.mem = _
        rw [hEdi, hHere, hMem]
        apply storeWord_blit mem _ (by omega)
        intro i hi
        rw [show (k + i) % 4 = i by omega])
    hInit (show 0 + n * 4 ≤ n * 4 by omega)
  rw [Nat.zero_add] at hEnd
  exact hEnd.mem

end Fill

end MartianPendulum
