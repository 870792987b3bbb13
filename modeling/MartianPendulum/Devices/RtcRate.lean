import MartianPendulum.FileSystem.Drivers

/-
  The rate of the RTC: `rtc_write` and `set_frequency` of
  `rtc.c` on the CMOS ports.

  The byte last written to port 0x70 selects the register
  that port 0x71 reads and writes; its high bit masks the
  NMI.  What a read of port 0x70 gives is left open.

  Key definitions include:
    * `Cmos`
    * `setFrequency`
    * `rtcWrite`

  Key theorems include:
    * `validFrequency_iff`
    * `setFrequency_ports`
    * `rate_of_valid`
    * `rtc_write_programs_rate`
-/

------------------------------------------------------------
-- Ports
------------------------------------------------------------

namespace MartianPendulum

/-
  The index, the registers, and the bytes that were written
  to ports, the oldest first.  `indexIn` is what a read of
  the index port gives after those writes.
-/
structure Cmos where
  index : UInt8
  reg : UInt8 → UInt8
  sent : List (Nat × UInt8)
  indexIn : List (Nat × UInt8) → UInt8

/- `RTC_PORT`, `RTC_DATA` and `SEL_A_DIS_NMI` -/
def rtcPort : Nat := 0x70
def rtcData : Nat := 0x71
def selADisNmi : UInt8 := 0x8A

/- Register A. -/
def registerA : UInt8 := 0x0A

namespace Cmos

/- The register that the index selects. -/
def selected
    (p : Cmos) : UInt8 :=
  p.index &&& 0x7F

/- `outb` -/
def outb
    (data : UInt8)
    (port : Nat)
    (p : Cmos) : Cmos :=
  let p := { p with sent := p.sent ++ [(port, data)] }
  if port = rtcPort then { p with index := data }
  else if port = rtcData then
    { p with reg := Function.update p.reg p.selected data }
  else p

/- `inb`, on the two ports of the CMOS. -/
def inb
    (port : Nat)
    (p : Cmos) : UInt8 :=
  if port = rtcPort then p.indexIn p.sent
  else p.reg p.selected

end Cmos

end MartianPendulum

------------------------------------------------------------
-- The Driver
------------------------------------------------------------

namespace MartianPendulum

/- `while (fre >>= 1) log_fre += 1` on a positive value. -/
def logFreLoop :
    Nat → Nat → Nat → Nat
| 0, _, logFre => logFre
| fuel + 1, fre, logFre =>
    if fre >>> 1 ≠ 0 then
      logFreLoop fuel (fre >>> 1) (logFre + 1)
    else logFre

/- `set_frequency`; an `int32_t` is shifted 31 times at most. -/
def setFrequency
    (fre : Int)
    (p : Cmos) : Int × Cmos :=
  if validFrequency fre = false then (-1, p)
  else
    let logFre := logFreLoop 32 fre.toNat 0
    let frame := UInt8.ofNat (16 - logFre)
    let temp := p.inb rtcPort ||| 0x80
    let p := p.outb temp rtcPort
    let p := p.outb selADisNmi rtcPort
    let temp := p.inb rtcData
    let p := p.outb selADisNmi rtcPort
    let p := p.outb ((temp &&& 0xF0) ||| frame) rtcData
    let temp := p.inb rtcPort &&& 0x7F
    let p := p.outb temp rtcPort
    (0, p)

/- `rtc_write` -/
def rtcWrite
    (buf : Buf)
    (nbytes : Int)
    (p : Cmos) : Int × Cmos :=
  if nbytes ≠ 4 ∨ buf.isNull then (-1, p)
  else setFrequency buf.int32 p

/- The value is that of the model of the driver tables. -/
theorem rtcWrite_fst
    (buf : Buf)
    (nbytes : Int)
    (p : Cmos) :
    (rtcWrite buf nbytes p).1 = rtcWriteResult buf nbytes := by
  unfold rtcWrite rtcWriteResult setFrequency
  split
  · rfl
  · cases validFrequency buf.int32 with
    | true => rfl
    | false => rfl

end MartianPendulum

------------------------------------------------------------
-- The Rate
------------------------------------------------------------

namespace MartianPendulum

/-
  The loop on each power of two, and its divider, which fits
  into the low half.
-/
theorem rate_table :
    ∀ e < 11, 1 ≤ e →
      logFreLoop 32 (2 ^ e) 0 = e ∧
        32768 >>> (16 - e - 1) = 2 ^ e ∧
        UInt8.ofNat (16 - e) &&& 0xF0 = 0 ∧
        UInt8.ofNat (16 - e) &&& 0x0F =
          UInt8.ofNat (16 - e) ∧
        (UInt8.ofNat (16 - e)).toNat = 16 - e := by
  decide +kernel

/- The high half of the byte is old, the low half the rate. -/
theorem nibbles
    (old : UInt8)
    {frame : UInt8}
    (hHigh : frame &&& 0xF0 = 0)
    (hLow : frame &&& 0x0F = frame) :
    ((old &&& 0xF0) ||| frame) &&& 0xF0 = old &&& 0xF0 ∧
      ((old &&& 0xF0) ||| frame) &&& 0x0F = frame := by
  have hDistrib : ∀ mask : UInt8,
      ((old &&& 0xF0) ||| frame) &&& mask =
        (old &&& (0xF0 &&& mask)) ||| (frame &&& mask) := by
    intro mask
    rw [← UInt8.and_assoc]
    exact UInt8.toBitVec_inj.mp BitVec.and_or_distrib_right
  constructor
  · rw [hDistrib, hHigh, UInt8.and_self, UInt8.or_zero]
  · have hApart : (0xF0 : UInt8) &&& 0x0F = 0 := by decide
    rw [hDistrib, hLow, hApart, UInt8.and_zero,
      UInt8.zero_or]

/- A power of two within the bounds is one of ten. -/
theorem exponent_bounds
    {e : Nat}
    (hLow : 2 ≤ 2 ^ e)
    (hHigh : 2 ^ e ≤ 1024) :
    e < 11 ∧ 1 ≤ e := by
  constructor
  · by_contra hLarge
    have hPow : 2 ^ 11 ≤ 2 ^ e :=
      Nat.pow_le_pow_right (by decide) (by omega)
    omega
  · by_contra hSmall
    have hZero : e = 0 := by omega
    rw [hZero] at hLow
    omega

/- The bit test on 32-bit words is that on numbers. -/
theorem and_test_iff
    {n : Nat}
    (hPos : 2 ≤ n)
    (hBound : n ≤ 1024) :
    BitVec.ofInt 32 ((n : Int) - 1) &&&
        BitVec.ofInt 32 (n : Int) = 0 ↔
      n &&& (n - 1) = 0 := by
  have hPred : (n : Int) - 1 = ((n - 1 : Nat) : Int) := by
    omega
  rw [hPred, BitVec.ofInt_natCast, BitVec.ofInt_natCast,
    ← BitVec.toNat_inj, BitVec.toNat_and,
    BitVec.toNat_ofNat, BitVec.toNat_ofNat,
    Nat.mod_eq_of_lt (by omega), Nat.mod_eq_of_lt (by omega),
    Nat.and_comm]
  exact Iff.rfl

/- The test accepts the powers of two within the bounds. -/
theorem validFrequency_iff
    (fre : Int) :
    validFrequency fre = true ↔
      2 ≤ fre ∧ fre ≤ 1024 ∧ ∃ e : Nat, fre = 2 ^ e := by
  simp only [validFrequency, Bool.and_eq_true,
    decide_eq_true_eq, and_assoc]
  refine and_congr_right (fun hLow => ?_)
  refine and_congr_right (fun hHigh => ?_)
  obtain ⟨n, rfl⟩ :=
    Int.eq_ofNat_of_zero_le (by omega : 0 ≤ fre)
  rw [and_test_iff (by omega) (by omega),
    Nat.and_sub_one_eq_zero_iff_isPowerOfTwo (by omega)]
  refine exists_congr (fun e => ?_)
  exact_mod_cast Iff.rfl

/-
  The port writes of `set_frequency`: the one to the data
  port goes to register A, whose high half was read from it.
-/
theorem setFrequency_ports
    {fre : Int}
    (hValid : validFrequency fre = true)
    (p : Cmos) :
    ∃ a d, setFrequency fre p =
      let v := (p.reg registerA &&& 0xF0) |||
        UInt8.ofNat (16 - logFreLoop 32 fre.toNat 0)
      (0, { p with
        index := d
        sent := p.sent ++
          [(rtcPort, a), (rtcPort, selADisNmi),
            (rtcPort, selADisNmi), (rtcData, v),
            (rtcPort, d)]
        reg := Function.update p.reg registerA v }) := by
  have hSelected : selADisNmi &&& 0x7F = registerA := by
    decide
  have hPorts : rtcData ≠ rtcPort := by decide
  simp only [setFrequency, hValid, Cmos.outb, Cmos.inb,
    Cmos.selected, hPorts, hSelected, if_true, if_false,
    Bool.true_eq_false, List.append_assoc,
    List.cons_append, List.nil_append]
  exact ⟨_, _, rfl⟩

/- The byte for register A holds the old half and the rate. -/
theorem rate_of_valid
    {fre : Int}
    (hValid : validFrequency fre = true)
    (old : UInt8) :
    let v := (old &&& 0xF0) |||
      UInt8.ofNat (16 - logFreLoop 32 fre.toNat 0)
    v &&& 0xF0 = old &&& 0xF0 ∧
      ((32768 >>> ((v &&& 0x0F).toNat - 1) : Nat) : Int) =
        fre := by
  rcases (validFrequency_iff fre).mp hValid with
    ⟨hLow, hHigh, e, hPow⟩
  have hCast : fre = ((2 ^ e : Nat) : Int) := by
    rw [hPow]
    push_cast
    rfl
  rcases @exponent_bounds e (by omega) (by omega) with
    ⟨hLt, hOne⟩
  rcases rate_table e hLt hOne with
    ⟨hLog, hRate, hHighZero, hLowSame, hFrame⟩
  have hNat : fre.toNat = 2 ^ e := by omega
  rw [hNat, hLog]
  have hNibbles := nibbles old hHighZero hLowSame
  refine ⟨hNibbles.1, ?_⟩
  rw [hNibbles.2, hFrame, hRate, hCast]

/-
  Main theorem: `rtc_write` accepts the powers of two from 2
  to 1024 in four bytes.  It then writes one byte to the
  data port, which goes to register A, keeps the high half
  and selects the rate; otherwise no port is written.
-/
theorem rtc_write_programs_rate
    {buf : Buf}
    (hBuf : buf.isNull = false)
    (nbytes : Int)
    (p : Cmos) :
    ((rtcWrite buf nbytes p).1 = 0 ↔
      nbytes = 4 ∧ 2 ≤ buf.int32 ∧ buf.int32 ≤ 1024 ∧
        ∃ e : Nat, buf.int32 = 2 ^ e) ∧
    ((rtcWrite buf nbytes p).1 = 0 →
      ∃ a d v,
        (rtcWrite buf nbytes p).2.sent = p.sent ++
          [(rtcPort, a), (rtcPort, selADisNmi),
            (rtcPort, selADisNmi), (rtcData, v),
            (rtcPort, d)] ∧
        (rtcWrite buf nbytes p).2.reg =
          Function.update p.reg registerA v ∧
        v &&& 0xF0 = p.reg registerA &&& 0xF0 ∧
        ((32768 >>> ((v &&& 0x0F).toNat - 1) : Nat) : Int) =
          buf.int32) ∧
    ((rtcWrite buf nbytes p).1 ≠ 0 →
      rtcWrite buf nbytes p = (-1, p)) := by
  rw [← validFrequency_iff]
  by_cases hBytes : nbytes = 4
  · have hWrite : rtcWrite buf nbytes p =
        setFrequency buf.int32 p := by
      simp [rtcWrite, hBytes, hBuf]
    rw [hWrite]
    cases hValid : validFrequency buf.int32 with
    | false =>
        have hFail : setFrequency buf.int32 p = (-1, p) := by
          simp [setFrequency, hValid]
        rw [hFail]
        simp
    | true =>
        rcases setFrequency_ports hValid p with ⟨a, d, hSet⟩
        have hRate := rate_of_valid hValid (p.reg registerA)
        refine ⟨?_, ?_, ?_⟩
        · rw [hSet]
          simp [hBytes]
        · intro _
          refine ⟨a, d, _, ?_, ?_, hRate.1, hRate.2⟩
          · rw [hSet]
          · rw [hSet]
        · intro hFail
          rw [hSet] at hFail
          exact absurd rfl hFail
  · have hWrite : rtcWrite buf nbytes p = (-1, p) := by
      simp [rtcWrite, hBytes]
    rw [hWrite]
    simp [hBytes]

/- 1024 Hz over a register A of 0x2F. -/
theorem rtc_write_programs_rate_1024 :
    let buf : Buf :=
      { isNull := false
        mem := fun i => if i = 1 then 4 else 0 }
    let p : Cmos :=
      { index := 0
        reg := fun _ => 0x2F
        sent := []
        indexIn := fun _ => 0 }
    buf.int32 = 1024 ∧
      (rtcWrite buf 4 p).2.sent =
        [(rtcPort, 0x80), (rtcPort, selADisNmi),
          (rtcPort, selADisNmi), (rtcData, 0x26),
          (rtcPort, 0)] ∧
      ∃ a d v,
        (rtcWrite buf 4 p).2.sent = p.sent ++
          [(rtcPort, a), (rtcPort, selADisNmi),
            (rtcPort, selADisNmi), (rtcData, v),
            (rtcPort, d)] ∧
        (rtcWrite buf 4 p).2.reg =
          Function.update p.reg registerA v ∧
        v &&& 0xF0 = p.reg registerA &&& 0xF0 ∧
        ((32768 >>> ((v &&& 0x0F).toNat - 1) : Nat) : Int) =
          buf.int32 := by
  intro buf p
  refine ⟨by decide, by decide, ?_⟩
  exact (rtc_write_programs_rate rfl 4 p).2.1 (by decide)

end MartianPendulum
