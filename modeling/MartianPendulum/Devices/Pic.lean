import MartianPendulum.Logic.Run
import Mathlib.Data.BitVec

/-
  The pair of 8259 interrupt controllers and their driver.

  A controller answers to bytes at two ports.  What a byte
  at the data port means depends on what came before: three
  words of an initialization, or the mask.  The driver of
  `i8259.c` knows nothing of this state and reads the mask
  back before it changes a bit of it.

  Key definitions include:
    * `Pic8259`
    * `Pics`
    * `i8259Init`
    * `enableIrq`, `disableIrq`, `sendEoi`
    * `IrqCall`

  Key theorems include:
    * `i8259Init_ready`
    * `maskIrq_masked`
    * `irq_masks_follow_calls`
-/

------------------------------------------------------------
-- One Controller
------------------------------------------------------------

namespace MartianPendulum

/- The word that the data port expects. -/
inductive PicStage where
| icw2
| icw3
| icw4
| ready
deriving DecidableEq

/-
  The registers of a controller.  A line is requested,
  masked or in service if its bit is set.
-/
structure Pic8259 where
  stage : PicStage
  icw1 : BitVec 8
  icw2 : BitVec 8
  icw3 : BitVec 8
  icw4 : BitVec 8
  imr : BitVec 8
  irr : BitVec 8
  isr : BitVec 8
deriving DecidableEq

namespace Pic8259

/-
  A byte at the command port.  With bit 4 it starts the
  initialization.  Otherwise `011` in the top bits ends the
  service of the line in the low bits; the kernel sends no
  other command.
-/
def writeCommand
    (p : Pic8259)
    (v : BitVec 8) : Pic8259 :=
  if v.getLsbD 4 then
    { p with
      stage := .icw2
      icw1 := v
      imr := 0
      irr := 0
      isr := 0 }
  else if v >>> 3 = 0x0C#8 then
    { p with
      isr := p.isr &&& ~~~(1#8 <<< (v &&& 7#8).toNat) }
  else p

/- Bit 1 of the first word: no other controller. -/
def afterIcw2
    (p : Pic8259) : PicStage :=
  if p.icw1.getLsbD 1 then
    if p.icw1.getLsbD 0 then .icw4 else .ready
  else .icw3

/- A byte at the data port. -/
def writeData
    (p : Pic8259)
    (v : BitVec 8) : Pic8259 :=
  match p.stage with
  | .icw2 => { p with icw2 := v, stage := p.afterIcw2 }
  | .icw3 =>
      { p with
        icw3 := v
        stage :=
          if p.icw1.getLsbD 0 then .icw4 else .ready }
  | .icw4 => { p with icw4 := v, stage := .ready }
  | .ready => { p with imr := v }

/- A read of the data port. -/
def readData
    (p : Pic8259) : BitVec 8 :=
  p.imr

end Pic8259

end MartianPendulum

------------------------------------------------------------
-- The Driver
------------------------------------------------------------

namespace MartianPendulum

/- Both controllers, and the masks that `i8259.c` keeps. -/
structure Pics where
  master : Pic8259
  slave : Pic8259
  masterMask : BitVec 8
  slaveMask : BitVec 8
deriving DecidableEq

/- The ports of `i8259.h`. -/
inductive PicPort where
| masterPort
| masterData
| slavePort
| slaveData

/- The constants of `i8259.h`. -/
def icw1Init : BitVec 8 := 0x11#8
def icw2Master : BitVec 8 := 0x20#8
def icw2Slave : BitVec 8 := 0x28#8
def icw3Master : BitVec 8 := 0x04#8
def icw3Slave : BitVec 8 := 0x02#8
def icw4Init : BitVec 8 := 0x01#8
def maskAll : BitVec 8 := 0xFF#8
def irqHigh : Nat := 0x0F
def irqNum8 : Nat := 0x08
def slaveIrqLine : Nat := 0x02
def eoi : BitVec 8 := 0x60#8

namespace Pics

/- `outb` -/
def outb
    (d : Pics)
    (v : BitVec 8) :
    PicPort → Pics
| .masterPort => { d with master := d.master.writeCommand v }
| .masterData => { d with master := d.master.writeData v }
| .slavePort => { d with slave := d.slave.writeCommand v }
| .slaveData => { d with slave := d.slave.writeData v }

end Pics

/- `i8259_init` -/
def i8259Init
    (d : Pics) : Pics :=
  let d := { d with masterMask := d.master.readData }
  let d := { d with slaveMask := d.slave.readData }
  let d := d.outb maskAll .masterData
  let d := d.outb maskAll .slaveData
  let d := d.outb icw1Init .masterPort
  let d := d.outb icw2Master .masterData
  let d := d.outb icw3Master .masterData
  let d := d.outb icw4Init .masterData
  let d := d.outb icw1Init .slavePort
  let d := d.outb icw2Slave .slaveData
  let d := d.outb icw3Slave .slaveData
  let d := d.outb icw4Init .slaveData
  let d := d.outb maskAll .masterData
  d.outb maskAll .slaveData

/-
  The mask of a line read back, changed and written.  The
  message for a bad number is left out.
-/
def maskIrq
    (change : BitVec 8 → Nat → BitVec 8)
    (irqNum : Nat)
    (d : Pics) : Pics :=
  if irqNum > irqHigh then d
  else if irqNum ≥ irqNum8 then
    let mask := change d.slave.readData (irqNum - irqNum8)
    { d with slaveMask := mask }.outb mask .slaveData
  else
    let mask := change d.master.readData irqNum
    { d with masterMask := mask }.outb mask .masterData

/- `enable_irq` -/
def enableIrq : Nat → Pics → Pics :=
  maskIrq (fun mask i => mask &&& ~~~(1#8 <<< i))

/- `disable_irq` -/
def disableIrq : Nat → Pics → Pics :=
  maskIrq (fun mask i => mask ||| (1#8 <<< i))

/- `send_eoi` -/
def sendEoi
    (irqNum : Nat)
    (d : Pics) : Pics :=
  if irqNum > irqHigh then d
  else if irqNum ≥ irqNum8 then
    let d := d.outb
      (BitVec.ofNat 8 (irqNum - irqNum8) ||| eoi) .slavePort
    d.outb (eoi ||| BitVec.ofNat 8 slaveIrqLine) .masterPort
  else d.outb (BitVec.ofNat 8 irqNum ||| eoi) .masterPort

end MartianPendulum

------------------------------------------------------------
-- Masks
------------------------------------------------------------

namespace MartianPendulum

/- The state of the controllers for good after the boot. -/
structure Pics.Ready
    (d : Pics) : Prop where
  masterStage : d.master.stage = .ready
  slaveStage : d.slave.stage = .ready
  masterVector : d.master.icw2 = icw2Master
  slaveVector : d.slave.icw2 = icw2Slave
  masterCascade : d.master.icw3 = icw3Master
  slaveCascade : d.slave.icw3 = icw3Slave
  masterMode : d.master.icw4 = icw4Init
  slaveMode : d.slave.icw4 = icw4Init

/- The bit of a line in the two masks. -/
def Pics.masked
    (d : Pics)
    (n : Nat) : Bool :=
  if n ≥ irqNum8 then d.slave.imr.getLsbD (n - irqNum8)
  else d.master.imr.getLsbD n

/- The controllers after `i8259_init`. -/
def readyPic
    (vector cascade : BitVec 8) : Pic8259 :=
  { stage := .ready
    icw1 := icw1Init
    icw2 := vector
    icw3 := cascade
    icw4 := icw4Init
    imr := maskAll
    irr := 0
    isr := 0 }

/-
  Whatever state the controllers are in, the initialization
  leads to the same one.
-/
theorem i8259Init_eq
    (d : Pics) :
    i8259Init d =
      { master := readyPic icw2Master icw3Master
        slave := readyPic icw2Slave icw3Slave
        masterMask := d.master.imr
        slaveMask := d.slave.imr } := by
  cases hMaster : d.master.stage with
  | _ =>
      cases hSlave : d.slave.stage with
      | _ =>
          simp [i8259Init, Pics.outb, Pic8259.writeData,
            Pic8259.writeCommand, Pic8259.afterIcw2,
            Pic8259.readData, hMaster, hSlave, icw1Init,
            readyPic]

theorem i8259Init_ready
    (d : Pics) :
    (i8259Init d).Ready := by
  rw [i8259Init_eq]
  exact ⟨rfl, rfl, rfl, rfl, rfl, rfl, rfl, rfl⟩

theorem getLsbD_maskAll
    {n : Nat}
    (hn : n < 8) :
    maskAll.getLsbD n = true := by
  have hAll : maskAll = BitVec.allOnes 8 := by decide
  rw [hAll, BitVec.getLsbD_allOnes, decide_eq_true hn]

theorem i8259Init_masked
    (d : Pics)
    {n : Nat}
    (hn : n ≤ irqHigh) :
    (i8259Init d).masked n = true := by
  unfold irqHigh at hn
  rw [i8259Init_eq]
  unfold Pics.masked irqNum8
  split
  · exact getLsbD_maskAll (by omega)
  · exact getLsbD_maskAll (by omega)

/- A bit of the mask cleared or set, the others kept. -/
theorem getLsbD_clear
    (mask : BitVec 8)
    {i n : Nat}
    (hn : n < 8) :
    (mask &&& ~~~(1#8 <<< i)).getLsbD n =
      if n = i then false else mask.getLsbD n := by
  rw [← BitVec.twoPow_eq, BitVec.getLsbD_and,
    BitVec.getLsbD_not, BitVec.getLsbD_twoPow]
  by_cases hi : n = i
  · subst hi
    simp [hn]
  · have hi' : i ≠ n := Ne.symm hi
    simp [hn, hi, hi']

theorem getLsbD_set
    (mask : BitVec 8)
    {i n : Nat}
    (hn : n < 8) :
    (mask ||| (1#8 <<< i)).getLsbD n =
      if n = i then true else mask.getLsbD n := by
  rw [← BitVec.twoPow_eq, BitVec.getLsbD_or,
    BitVec.getLsbD_twoPow]
  by_cases hi : n = i
  · subst hi
    simp [hn]
  · have hi' : i ≠ n := Ne.symm hi
    simp [hi, hi']

section Calls

variable {change : BitVec 8 → Nat → BitVec 8}
variable {d : Pics}

theorem maskIrq_ready
    (hReady : d.Ready)
    (i : Nat) :
    (maskIrq change i d).Ready := by
  unfold maskIrq
  split
  · exact hReady
  · split
    · simp only [Pics.outb, Pic8259.writeData,
        hReady.slaveStage]
      exact { hReady with slaveStage := rfl }
    · simp only [Pics.outb, Pic8259.writeData,
        hReady.masterStage]
      exact { hReady with masterStage := rfl }

/- No line is requested or in service. -/
structure Pics.Idle
    (d : Pics) : Prop where
  masterIrr : d.master.irr = 0
  slaveIrr : d.slave.irr = 0
  masterIsr : d.master.isr = 0
  slaveIsr : d.slave.isr = 0

theorem maskIrq_idle
    (hReady : d.Ready)
    (hIdle : d.Idle)
    (i : Nat) :
    (maskIrq change i d).Idle := by
  unfold maskIrq
  split
  · exact hIdle
  · split
    · simp only [Pics.outb, Pic8259.writeData,
        hReady.slaveStage]
      exact ⟨hIdle.1, hIdle.2, hIdle.3, hIdle.4⟩
    · simp only [Pics.outb, Pic8259.writeData,
        hReady.masterStage]
      exact ⟨hIdle.1, hIdle.2, hIdle.3, hIdle.4⟩

/- Only the bit of the line changes. -/
theorem maskIrq_masked
    {v : Bool}
    (hChange : ∀ mask i n, n < 8 →
      (change mask i).getLsbD n =
        if n = i then v else mask.getLsbD n)
    (hReady : d.Ready)
    (i : Nat)
    {n : Nat}
    (hn : n ≤ irqHigh) :
    (maskIrq change i d).masked n =
      if n = i then v else d.masked n := by
  unfold irqHigh at hn
  unfold maskIrq irqHigh irqNum8
  by_cases hBad : i > 0x0F
  · have hne : n ≠ i := by omega
    rw [if_pos hBad, if_neg hne]
  · rw [if_neg hBad]
    by_cases hSlave : i ≥ 8
    · rw [if_pos hSlave]
      simp only [Pics.masked, Pics.outb, Pic8259.writeData,
        Pic8259.readData, hReady.slaveStage, irqNum8]
      by_cases hn' : n ≥ 8
      · have hIff : n - 8 = i - 8 ↔ n = i := by omega
        simp only [hn', if_true]
        rw [hChange _ _ _ (by omega)]
        simp only [hIff]
      · have hne : n ≠ i := by omega
        simp only [hn', hne, if_false]
    · rw [if_neg hSlave]
      simp only [Pics.masked, Pics.outb, Pic8259.writeData,
        Pic8259.readData, hReady.masterStage, irqNum8]
      by_cases hn' : n ≥ 8
      · have hne : n ≠ i := by omega
        simp only [hn', hne, if_true, if_false]
      · simp only [hn', if_false]
        rw [hChange _ _ _ (by omega)]

end Calls

end MartianPendulum

------------------------------------------------------------
-- Sequences of Calls
------------------------------------------------------------

namespace MartianPendulum

/- The calls that change the masks. -/
inductive IrqCall where
| enable (irqNum : Nat)
| disable (irqNum : Nat)
deriving DecidableEq

def irqStep
    (d : Pics) :
    IrqCall → Pics
| .enable irqNum => enableIrq irqNum d
| .disable irqNum => disableIrq irqNum d

theorem irqStep_ready
    {d : Pics}
    (call : IrqCall)
    (hReady : d.Ready) :
    (irqStep d call).Ready := by
  cases call with
  | enable i =>
      rw [irqStep, enableIrq]
      exact maskIrq_ready hReady i
  | disable i =>
      rw [irqStep, disableIrq]
      exact maskIrq_ready hReady i

theorem irqStep_idle
    {d : Pics}
    (call : IrqCall)
    (hReady : d.Ready)
    (hIdle : d.Idle) :
    (irqStep d call).Idle := by
  cases call with
  | enable i =>
      rw [irqStep, enableIrq]
      exact maskIrq_idle hReady hIdle i
  | disable i =>
      rw [irqStep, disableIrq]
      exact maskIrq_idle hReady hIdle i

theorem irqStep_masked
    {d : Pics}
    (hReady : d.Ready)
    (call : IrqCall)
    {n : Nat}
    (hn : n ≤ irqHigh) :
    (irqStep d call).masked n =
      if call = .enable n then false
      else if call = .disable n then true
      else d.masked n := by
  cases call with
  | enable i =>
      rw [irqStep, enableIrq, maskIrq_masked
        (fun _ _ _ => getLsbD_clear _) hReady i hn]
      simp [eq_comm]
  | disable i =>
      rw [irqStep, disableIrq, maskIrq_masked
        (fun _ _ _ => getLsbD_set _) hReady i hn]
      simp [eq_comm]

/- A call is the first of a sequence or a later one. -/
theorem exists_split_cons
    (call first : IrqCall)
    (calls : List IrqCall)
    (P : List IrqCall → Prop) :
    (∃ before after,
        first :: calls = before ++ call :: after ∧
        P after) ↔
      (first = call ∧ P calls) ∨
      ∃ before after,
        calls = before ++ call :: after ∧ P after := by
  constructor
  · rintro ⟨before, after, hCalls, hAfter⟩
    cases before with
    | nil =>
        rw [List.nil_append, List.cons.injEq] at hCalls
        rw [hCalls.2]
        exact .inl ⟨hCalls.1, hAfter⟩
    | cons c before =>
        rw [List.cons_append, List.cons.injEq] at hCalls
        exact .inr ⟨before, after, hCalls.2, hAfter⟩
  · rintro (⟨rfl, hAfter⟩ | ⟨before, after, rfl, hAfter⟩)
    · exact ⟨[], calls, rfl, hAfter⟩
    · exact ⟨first :: before, after, rfl, hAfter⟩

/- The last call for a line decides. -/
theorem run_irqStep_masked
    (calls : List IrqCall)
    {d : Pics}
    (hReady : d.Ready)
    {n : Nat}
    (hn : n ≤ irqHigh) :
    (Logic.run irqStep d calls).masked n = false ↔
      (∃ before after,
        calls = before ++ .enable n :: after ∧
        .disable n ∉ after) ∨
      (d.masked n = false ∧ .disable n ∉ calls) := by
  induction calls generalizing d with
  | nil => simp
  | cons call calls ih =>
      rw [Logic.run_cons, ih (irqStep_ready call hReady),
        irqStep_masked hReady call hn, exists_split_cons,
        List.mem_cons, not_or]
      by_cases hEnable : call = .enable n
      · subst hEnable
        simp only [if_true, true_and]
        constructor
        · rintro (hLater | hNone)
          · exact .inl (.inr hLater)
          · exact .inl (.inl hNone)
        · rintro ((hNone | hLater) | ⟨_, _, hNone⟩)
          · exact .inr hNone
          · exact .inl hLater
          · exact .inr hNone
      · by_cases hDisable : call = .disable n
        · subst hDisable
          simp
        · have hDisable' : ¬ IrqCall.disable n = call :=
            fun hEq => hDisable hEq.symm
          simp only [hEnable, hDisable, hDisable', if_false,
            false_and, false_or, not_false_iff, true_and]

/-
  Whatever the controllers held before, after the
  initialization and any calls of `enable_irq` and
  `disable_irq` a line is open exactly if the last call that
  names it is an `enable_irq`.  Numbers above 15 name none.
-/
theorem irq_masks_follow_calls
    (d : Pics)
    (calls : List IrqCall) :
    let last := Logic.run irqStep (i8259Init d) calls
    last.Ready ∧ last.Idle ∧
      ∀ n, n ≤ irqHigh →
        (last.masked n = false ↔
          ∃ before after,
            calls = before ++ .enable n :: after ∧
            .disable n ∉ after) := by
  intro last
  have hStart : (i8259Init d).Ready ∧ (i8259Init d).Idle := by
    refine ⟨i8259Init_ready d, ?_⟩
    rw [i8259Init_eq]
    exact ⟨rfl, rfl, rfl, rfl⟩
  have hLast : last.Ready ∧ last.Idle :=
    Logic.invariant_run
      (I := fun d : Pics => d.Ready ∧ d.Idle)
      (fun d call hd => ⟨irqStep_ready call hd.1,
        irqStep_idle call hd.1 hd.2⟩) hStart calls
  refine ⟨hLast.1, hLast.2, ?_⟩
  intro n hn
  have hMasked := i8259Init_masked d hn
  rw [run_irqStep_masked calls hStart.1 hn]
  constructor
  · rintro (hLater | ⟨hOpen, _⟩)
    · exact hLater
    · rw [hMasked] at hOpen
      cases hOpen
  · exact .inl

end MartianPendulum
