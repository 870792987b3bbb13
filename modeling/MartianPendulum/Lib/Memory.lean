import MartianPendulum.Lib.Strings
import MartianPendulum.Logic.Loop

/-
  `memset` and `memcpy` of `lib.c`.

  Both are assembly with the same three parts: a loop over
  bytes until `%edi` is aligned or `%ecx` is zero, a `rep`
  instruction over words of four bytes, and a loop over the
  bytes that remain.  They are compared with the plain loops
  over bytes.  Memory is a function of the address, and the
  registers wrap around at `2 ^ 32`.

  Key definitions include:
    * `memset`, `memcpy`
    * `memsetBytes`, `memcpyBytes`

  Key theorems include:
    * `memset_eq_blit`
    * `memcpy_eq_blit`
    * `memory_routines_eq_byte_loops`
-/

------------------------------------------------------------
-- The Routines
------------------------------------------------------------

namespace MartianPendulum

/- The registers that move, and memory. -/
structure CopyState where
  edi : Nat
  esi : Nat
  mem : Ptr

/- A register after an addition. -/
def addReg
    (r n : Nat) : Nat :=
  (r + n) % 2 ^ 32

/- `testl $0x3, %edi` -/
def CopyState.aligned
    (s : CopyState) : Bool :=
  s.edi % 4 = 0

/- A word of four bytes, the lowest one first. -/
def storeWord
    (a : Nat)
    (byte : Nat → UInt8)
    (mem : Ptr) : Ptr :=
  (List.range 4).foldl
    (fun mem i => Function.update mem (addReg a i) (byte i))
    mem

/- A byte of a register. -/
def byteOf
    (r : UInt32)
    (i : Nat) : UInt8 :=
  (r >>> (8 * UInt32.ofNat i)).toUInt8

/- `movb %al, (%edi)` and `addl $1, %edi` -/
def stosb
    (eax : UInt32)
    (s : CopyState) : CopyState :=
  { s with
    edi := addReg s.edi 1
    mem := Function.update s.mem s.edi (byteOf eax 0) }

/- `stosl` -/
def stosl
    (eax : UInt32)
    (s : CopyState) : CopyState :=
  { s with
    edi := addReg s.edi 4
    mem := storeWord s.edi (byteOf eax) s.mem }

/- `memset`, with `c << 24 | c << 16 | c << 8 | c` in `%eax` -/
def memset
    (s : Nat)
    (c : UInt32)
    (n : Nat)
    (mem : Ptr) : Ptr :=
  let c := c &&& 0xFF
  let eax := c <<< 24 ||| c <<< 16 ||| c <<< 8 ||| c
  (Logic.bulkLoop CopyState.aligned (stosb eax) (stosl eax)
    4 n { edi := s, esi := 0, mem := mem }).mem

/- A byte through `%al`, and the two additions. -/
def movsb
    (s : CopyState) : CopyState :=
  { edi := addReg s.edi 1
    esi := addReg s.esi 1
    mem := Function.update s.mem s.edi (s.mem s.esi) }

/- `movsl` -/
def movsl
    (s : CopyState) : CopyState :=
  { edi := addReg s.edi 4
    esi := addReg s.esi 4
    mem := storeWord s.edi
      (fun i => s.mem (addReg s.esi i)) s.mem }

/- `memcpy` -/
def memcpy
    (dest src n : Nat)
    (mem : Ptr) : Ptr :=
  (Logic.bulkLoop CopyState.aligned movsb movsl 4 n
    { edi := dest, esi := src, mem := mem }).mem

/- The plain loops. -/
def memsetBytes
    (s : Nat)
    (b : UInt8)
    (n : Nat)
    (mem : Ptr) : Ptr :=
  (List.range n).foldl
    (fun mem i => Function.update mem (s + i) b) mem

def memcpyBytes
    (dest src n : Nat)
    (mem : Ptr) : Ptr :=
  (List.range n).foldl
    (fun mem i =>
      Function.update mem (dest + i) (mem (src + i))) mem

end MartianPendulum

------------------------------------------------------------
-- Words
------------------------------------------------------------

namespace MartianPendulum

theorem addReg_of_lt
    {r n : Nat}
    (hLt : r + n < 2 ^ 32) :
    addReg r n = r + n :=
  Nat.mod_eq_of_lt hLt

/- A word continues a copy by four bytes. -/
theorem storeWord_blit
    (mem : Ptr)
    {pos k : Nat}
    {byte src : Nat → UInt8}
    (hByte : ∀ i < 4, byte i = src (k + i))
    (hFit : pos + k + 4 ≤ 2 ^ 32) :
    storeWord (pos + k) byte (Logic.blit mem pos k src) =
      Logic.blit mem pos (k + 4) src := by
  simp only [storeWord, List.range_succ, List.range_zero,
    List.nil_append, List.cons_append, List.foldl_cons,
    List.foldl_nil]
  rw [addReg_of_lt (by omega), addReg_of_lt (by omega),
    addReg_of_lt (by omega), addReg_of_lt (by omega),
    hByte 0 (by decide), hByte 1 (by decide),
    hByte 2 (by decide), hByte 3 (by decide)]
  simp only [Nat.add_assoc, Nat.add_zero, Logic.blit_succ]

/- Every byte of `%eax` is the low byte of the argument. -/
theorem byteOf_spread
    (c : UInt32)
    {i : Nat}
    (hi : i < 4) :
    byteOf
        ((c &&& 0xFF) <<< 24 ||| (c &&& 0xFF) <<< 16 |||
          (c &&& 0xFF) <<< 8 ||| (c &&& 0xFF)) i =
      c.toUInt8 := by
  have hLow : c &&& 0xFF =
      UInt32.ofNat (c.toNat % 256) := by
    apply UInt32.toNat_inj.mp
    rw [UInt32.toNat_and, UInt32.toNat_ofNat']
    change c.toNat &&& 255 = _
    have hMask : c.toNat &&& 255 = c.toNat % 256 :=
      Nat.and_two_pow_sub_one_eq_mod c.toNat 8
    omega
  have hByte : c.toUInt8 = UInt8.ofNat (c.toNat % 256) := by
    apply UInt8.toNat_inj.mp
    rw [UInt32.toNat_toUInt8, UInt8.toNat_ofNat']
    omega
  have hTable : ∀ n < 256, ∀ i < 4,
      byteOf
          (UInt32.ofNat n <<< 24 ||| UInt32.ofNat n <<< 16 |||
            UInt32.ofNat n <<< 8 ||| UInt32.ofNat n) i =
        UInt8.ofNat n := by
    decide +kernel
  rw [hLow, hByte]
  exact hTable _ (Nat.mod_lt _ (by decide)) i hi

end MartianPendulum

------------------------------------------------------------
-- The Loops Compared
------------------------------------------------------------

namespace MartianPendulum

/- `k` bytes are set. -/
structure SetUpTo
    (s : Nat)
    (b : UInt8)
    (mem : Ptr)
    (k : Nat)
    (r : CopyState) : Prop where
  edi : r.edi = addReg s k
  mem : r.mem = Logic.blit mem s k (fun _ => b)

/- `k` bytes are copied. -/
structure CopiedUpTo
    (dest src : Nat)
    (mem : Ptr)
    (k : Nat)
    (r : CopyState) : Prop where
  edi : r.edi = addReg dest k
  esi : r.esi = addReg src k
  mem : r.mem =
    Logic.blit mem dest k (fun i => mem (src + i))

/- A register that was advanced in steps. -/
theorem addReg_addReg
    (r m n : Nat) :
    addReg (addReg r m) n = addReg r (m + n) := by
  unfold addReg
  omega

theorem memset_eq_blit
    {s n : Nat}
    (hFit : s + n ≤ 2 ^ 32)
    (hStart : s < 2 ^ 32)
    (c : UInt32)
    (mem : Ptr) :
    memset s c n mem =
      Logic.blit mem s n (fun _ => c.toUInt8) := by
  have hBytes : ∀ i < 4, byteOf
      ((c &&& 0xFF) <<< 24 ||| (c &&& 0xFF) <<< 16 |||
        (c &&& 0xFF) <<< 8 ||| (c &&& 0xFF)) i =
      c.toUInt8 :=
    fun i hi => byteOf_spread c hi
  unfold memset
  dsimp only
  generalize (c &&& 0xFF) <<< 24 ||| (c &&& 0xFF) <<< 16 |||
    (c &&& 0xFF) <<< 8 ||| (c &&& 0xFF) = eax at hBytes ⊢
  refine (Logic.bulkLoop_invariant
    (I := SetUpTo s c.toUInt8 mem) ?_ ?_ ?_).mem
  · -- a byte, before the words or behind them
    rintro k r ⟨hEdi, hMem⟩ hk
    have hHere := addReg_of_lt (show s + k < 2 ^ 32 by omega)
    refine ⟨?_, ?_⟩
    · change addReg r.edi 1 = _
      rw [hEdi, addReg_addReg]
    · change Function.update r.mem r.edi (byteOf eax 0) = _
      rw [hEdi, hHere, hMem, hBytes 0 (by decide)]
      exact Logic.blit_succ mem s k _
  · rintro k r ⟨hEdi, hMem⟩ hk
    have hHere := addReg_of_lt (show s + k < 2 ^ 32 by omega)
    refine ⟨?_, ?_⟩
    · change addReg r.edi 4 = _
      rw [hEdi, addReg_addReg]
    · change storeWord r.edi (byteOf eax) r.mem = _
      rw [hEdi, hHere, hMem]
      exact storeWord_blit mem hBytes (by omega)
  · exact ⟨(Nat.mod_eq_of_lt hStart).symm,
      (Logic.blit_zero mem s _).symm⟩

/- The source is not written while it is read. -/
theorem blit_source
    (mem : Ptr)
    {dest src n k i : Nat}
    (hApart : dest + n ≤ src ∨ src + n ≤ dest)
    (hk : k ≤ n)
    (hi : i < n) :
    Logic.blit mem dest k (fun i => mem (src + i))
        (src + i) =
      mem (src + i) :=
  Logic.blit_apply_of_outside _ _ (by omega)

theorem memcpy_eq_blit
    {dest src n : Nat}
    (hDest : dest + n ≤ 2 ^ 32)
    (hDestStart : dest < 2 ^ 32)
    (hSrc : src + n ≤ 2 ^ 32)
    (hSrcStart : src < 2 ^ 32)
    (hApart : dest + n ≤ src ∨ src + n ≤ dest)
    (mem : Ptr) :
    memcpy dest src n mem =
      Logic.blit mem dest n (fun i => mem (src + i)) := by
  unfold memcpy
  refine (Logic.bulkLoop_invariant
    (I := CopiedUpTo dest src mem) ?_ ?_ ?_).mem
  · rintro k r ⟨hEdi, hEsi, hMem⟩ hk
    have hTo := addReg_of_lt
      (show dest + k < 2 ^ 32 by omega)
    have hFrom := addReg_of_lt
      (show src + k < 2 ^ 32 by omega)
    refine ⟨?_, ?_, ?_⟩
    · change addReg r.edi 1 = _
      rw [hEdi, addReg_addReg]
    · change addReg r.esi 1 = _
      rw [hEsi, addReg_addReg]
    · change Function.update r.mem r.edi (r.mem r.esi) = _
      rw [hEdi, hEsi, hTo, hFrom, hMem,
        blit_source mem hApart (by omega) (by omega)]
      exact Logic.blit_succ mem dest k
        (fun i => mem (src + i))
  · rintro k r ⟨hEdi, hEsi, hMem⟩ hk
    have hTo := addReg_of_lt
      (show dest + k < 2 ^ 32 by omega)
    refine ⟨?_, ?_, ?_⟩
    · change addReg r.edi 4 = _
      rw [hEdi, addReg_addReg]
    · change addReg r.esi 4 = _
      rw [hEsi, addReg_addReg]
    · change storeWord r.edi
        (fun i => r.mem (addReg r.esi i)) r.mem = _
      rw [hEdi, hEsi, hTo, hMem]
      apply storeWord_blit mem _ (by omega)
      intro i hi
      rw [addReg_addReg, addReg_of_lt (by omega)]
      exact blit_source mem hApart (by omega) (by omega)
  · exact ⟨(Nat.mod_eq_of_lt hDestStart).symm,
      (Nat.mod_eq_of_lt hSrcStart).symm,
      (Logic.blit_zero mem dest _).symm⟩

/- The plain loops leave the same memory. -/
theorem memsetBytes_eq_blit
    (s : Nat)
    (b : UInt8)
    (n : Nat)
    (mem : Ptr) :
    memsetBytes s b n mem =
      Logic.blit mem s n (fun _ => b) := by
  unfold memsetBytes
  induction n with
  | zero => exact (Logic.blit_zero mem s _).symm
  | succ n ih =>
      rw [List.range_succ, List.foldl_append, ih]
      exact Logic.blit_succ mem s n (fun _ => b)

theorem memcpyBytes_eq_blit
    {dest src n : Nat}
    (hApart : dest + n ≤ src ∨ src + n ≤ dest)
    (mem : Ptr) :
    memcpyBytes dest src n mem =
      Logic.blit mem dest n (fun i => mem (src + i)) := by
  have hUpTo : ∀ k ≤ n,
      memcpyBytes dest src k mem =
        Logic.blit mem dest k (fun i => mem (src + i)) := by
    intro k
    unfold memcpyBytes
    induction k with
    | zero =>
        intro _
        exact (Logic.blit_zero mem dest _).symm
    | succ k ih =>
        intro hk
        rw [List.range_succ, List.foldl_append,
          ih (by omega)]
        change Function.update _ (dest + k) _ = _
        rw [blit_source mem hApart (by omega) (by omega)]
        exact Logic.blit_succ mem dest k
          (fun i => mem (src + i))
  exact hUpTo n (Nat.le_refl n)

/-
  For every alignment, length and contents, `memset` and
  `memcpy` leave the memory that the plain loops leave, and
  change nothing outside of the destination.
-/
theorem memory_routines_eq_byte_loops :
    (∀ (s : Nat) (c : UInt32) (n : Nat) (mem : Ptr),
      s < 2 ^ 32 → s + n ≤ 2 ^ 32 →
      memset s c n mem =
          memsetBytes s c.toUInt8 n mem ∧
        ∀ a, ¬ (s ≤ a ∧ a < s + n) →
          memset s c n mem a = mem a) ∧
    (∀ (dest src n : Nat) (mem : Ptr),
      dest < 2 ^ 32 → dest + n ≤ 2 ^ 32 →
      src < 2 ^ 32 → src + n ≤ 2 ^ 32 →
      (dest + n ≤ src ∨ src + n ≤ dest) →
      memcpy dest src n mem =
          memcpyBytes dest src n mem ∧
        ∀ a, ¬ (dest ≤ a ∧ a < dest + n) →
          memcpy dest src n mem a = mem a) := by
  constructor
  · intro s c n mem hStart hFit
    rw [memset_eq_blit hFit hStart c mem,
      memsetBytes_eq_blit]
    exact ⟨rfl, fun a ha =>
      Logic.blit_apply_of_outside _ _ ha⟩
  · intro dest src n mem hDest hDestFit hSrc hSrcFit hApart
    rw [memcpy_eq_blit hDestFit hDest hSrcFit hSrc hApart
      mem, memcpyBytes_eq_blit hApart]
    exact ⟨rfl, fun a ha =>
      Logic.blit_apply_of_outside _ _ ha⟩

/- Seven bytes from an odd address on, and a copy of them. -/
theorem memory_routines_eq_byte_loops_odd :
    memset 5 0x1AB 7 (fun _ => 0) =
        memsetBytes 5 (0x1AB : UInt32).toUInt8 7
          (fun _ => 0) ∧
      memcpy 5 16 7 (fun a => UInt8.ofNat a) =
        memcpyBytes 5 16 7 (fun a => UInt8.ofNat a) :=
  ⟨(memory_routines_eq_byte_loops.1 5 0x1AB 7 _
      (by decide) (by decide)).1,
    (memory_routines_eq_byte_loops.2 5 16 7 _ (by decide)
      (by decide) (by decide) (by decide)
      (by decide)).1⟩

end MartianPendulum
