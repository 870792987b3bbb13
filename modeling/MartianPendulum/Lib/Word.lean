import Mathlib.Data.Int.ModEq

/-
  Machine integers of the C source.

  Arithmetic on `uint32_t` is arithmetic on `Nat` reduced by
  `u32`; a `uint32_t` read as an `int32_t` is `s32`.  Bytes
  are `UInt8`; one that is read as a `char` is `s8`.
-/

------------------------------------------------------------
-- Machine Integers
------------------------------------------------------------

namespace MartianPendulum

/- An integer converted to `uint32_t`. -/
def u32
    (x : Int) : Nat :=
  (x % 2 ^ 32).toNat

/- An integer converted to `int32_t`. -/
def s32
    (x : Int) : Int :=
  Int.bmod x (2 ^ 32)

/- A byte read as a `char`, which is signed. -/
def s8
    (c : UInt8) : Int :=
  Int.bmod c.toNat (2 ^ 8)

@[simp] theorem u32_of_lt
    {n : Nat}
    (hn : n < 2 ^ 32) :
    u32 n = n := by
  unfold u32
  omega

theorem s32_of_lt
    {n : Nat}
    (hn : n < 2 ^ 31) :
    s32 n = n := by
  unfold s32
  rw [Int.bmod_def]
  omega

/- A `char` is compared with a `uint8_t` as an `int`. -/
theorem s8_eq_toNat_iff
    (c d : UInt8) :
    s8 c = (d.toNat : Int) ↔ c = d ∧ c < 128 := by
  have hc := c.toNat_lt
  have hd := d.toNat_lt
  rw [← UInt8.toNat_inj, UInt8.lt_iff_toNat_lt,
    show (128 : UInt8).toNat = 128 from rfl]
  unfold s8
  rw [Int.bmod_def]
  omega

end MartianPendulum
