import Mathlib.Data.BitVec
import Mathlib.Data.Fintype.Basic
import Mathlib.Logic.Function.Basic

/-
  The interrupt descriptor table.

  `idt_init` fills in one gate for each vector that has an
  entry point, and leaves the zeros of `x86_desc.S` at the
  others.  The processor reads a gate as eight bytes: the
  address of the entry point comes from two halves that
  `SET_IDT_ENTRY` has split.

  Key definitions include:
    * `IdtDesc`
    * `entryOf`
    * `idtInit`
    * `softInt`
    * `deliver`

  Key theorems include:
    * `idtInit_apply`
    * `gate_newDesc`
    * `user_int_reaches_only_syscall_entry`
-/

------------------------------------------------------------
-- Descriptors
------------------------------------------------------------

namespace MartianPendulum

/- `KERNEL_CS` and `NUM_VEC` -/
def kernelCs : BitVec 16 := 0x0010
def numVec : Nat := 256

/- `idt_desc_t` -/
structure IdtDesc where
  offset1500 : BitVec 16
  segSelector : BitVec 16
  reserved4 : BitVec 8
  reserved3 : BitVec 1
  reserved2 : BitVec 1
  reserved1 : BitVec 1
  size : BitVec 1
  reserved0 : BitVec 1
  dpl : BitVec 2
  present : BitVec 1
  offset3116 : BitVec 16

/- The bytes of the packed fields, as one number. -/
def IdtDesc.val
    (d : IdtDesc) : Nat :=
  d.offset1500.toNat +
    2 ^ 16 * d.segSelector.toNat +
    2 ^ 32 * d.reserved4.toNat +
    2 ^ 40 * d.reserved3.toNat +
    2 ^ 41 * d.reserved2.toNat +
    2 ^ 42 * d.reserved1.toNat +
    2 ^ 43 * d.size.toNat +
    2 ^ 44 * d.reserved0.toNat +
    2 ^ 45 * d.dpl.toNat +
    2 ^ 47 * d.present.toNat +
    2 ^ 48 * d.offset3116.toNat

/- `SET_IDT_ENTRY` -/
def setIdtEntry
    (str : IdtDesc)
    (handler : BitVec 32) : IdtDesc :=
  { str with
    offset3116 :=
      ((handler &&& 0xFFFF0000#32) >>> 16).setWidth 16
    offset1500 := (handler &&& 0xFFFF#32).setWidth 16 }

end MartianPendulum

------------------------------------------------------------
-- Entry Points
------------------------------------------------------------

namespace MartianPendulum

/- The exceptions, in the order of their vectors. -/
inductive Exception where
| divisionError
| singleStepInterrupt
| nmi
| breakpoint
| overflow
| boundRangeExceeded
| invalidOpcode
| coprocessorNotAvailable
| doubleFault
| coprocessorSegmentOverrun
| invalidTaskStateSegment
| segmentNotPresent
| stackSegmentFault
| generalProtectionFault
| pageFault
| x87FloatingPointException
| alignmentCheck
| machineCheck
| simdFloatingPointException
| virtualizationException
| controlProtectionException
deriving DecidableEq

/- The labels that the gates point to. -/
inductive Entry where
| syscallEntry
| keyboardEntry
| rtcEntry
| pitEntry
| exception (e : Exception)
deriving DecidableEq

/- The constants of `idt.h`. -/
def Exception.vector : Exception → Nat
| .divisionError => 0x00
| .singleStepInterrupt => 0x01
| .nmi => 0x02
| .breakpoint => 0x03
| .overflow => 0x04
| .boundRangeExceeded => 0x05
| .invalidOpcode => 0x06
| .coprocessorNotAvailable => 0x07
| .doubleFault => 0x08
| .coprocessorSegmentOverrun => 0x09
| .invalidTaskStateSegment => 0x0A
| .segmentNotPresent => 0x0B
| .stackSegmentFault => 0x0C
| .generalProtectionFault => 0x0D
| .pageFault => 0x0E
| .x87FloatingPointException => 0x10
| .alignmentCheck => 0x11
| .machineCheck => 0x12
| .simdFloatingPointException => 0x13
| .virtualizationException => 0x14
| .controlProtectionException => 0x15

def Entry.vector : Entry → Nat
| .syscallEntry => 0x80
| .keyboardEntry => 0x21
| .rtcEntry => 0x28
| .pitEntry => 0x20
| .exception e => e.vector

/- The cases of the `switch` of `idt_init`. -/
def entryOf : Nat → Option Entry
| 0x80 => some .syscallEntry
| 0x21 => some .keyboardEntry
| 0x28 => some .rtcEntry
| 0x20 => some .pitEntry
| 0x00 => some (.exception .divisionError)
| 0x01 => some (.exception .singleStepInterrupt)
| 0x02 => some (.exception .nmi)
| 0x03 => some (.exception .breakpoint)
| 0x04 => some (.exception .overflow)
| 0x05 => some (.exception .boundRangeExceeded)
| 0x06 => some (.exception .invalidOpcode)
| 0x07 => some (.exception .coprocessorNotAvailable)
| 0x08 => some (.exception .doubleFault)
| 0x09 => some (.exception .coprocessorSegmentOverrun)
| 0x0A => some (.exception .invalidTaskStateSegment)
| 0x0B => some (.exception .segmentNotPresent)
| 0x0C => some (.exception .stackSegmentFault)
| 0x0D => some (.exception .generalProtectionFault)
| 0x0E => some (.exception .pageFault)
-- `RESERVED_EXCP`
| 0x0F => none
| 0x10 => some (.exception .x87FloatingPointException)
| 0x11 => some (.exception .alignmentCheck)
| 0x12 => some (.exception .machineCheck)
| 0x13 => some (.exception .simdFloatingPointException)
| 0x14 => some (.exception .virtualizationException)
| 0x15 => some (.exception .controlProtectionException)
| _ => none

/- The descriptor before the `switch`. -/
def commonDesc : IdtDesc :=
  { offset1500 := 0
    segSelector := kernelCs
    reserved4 := 0
    reserved3 := 0
    reserved2 := 1
    reserved1 := 1
    size := 1
    reserved0 := 0
    dpl := 0
    present := 1
    offset3116 := 0 }

/- The descriptor that the `switch` stores. -/
def newDesc
    (address : Entry → BitVec 32) :
    Entry → IdtDesc
| .syscallEntry =>
    setIdtEntry { commonDesc with dpl := 3 }
      (address .syscallEntry)
| entry => setIdtEntry commonDesc (address entry)

/- The body of the loop of `idt_init`. -/
def idtStep
    (address : Entry → BitVec 32)
    (idt : Nat → Nat)
    (i : Nat) : Nat → Nat :=
  match entryOf i with
  | some entry =>
      Function.update idt i (newDesc address entry).val
  | none => idt

/- The `.quad 0` of `x86_desc.S` -/
def emptyIdt : Nat → Nat :=
  fun _ => 0

def idtInit
    (address : Entry → BitVec 32) : Nat → Nat :=
  (List.range numVec).foldl (idtStep address) emptyIdt

end MartianPendulum

------------------------------------------------------------
-- The Processor
------------------------------------------------------------

namespace MartianPendulum

/- The types of gates. -/
inductive GateKind where
| task
| interrupt16
| trap16
| interrupt32
| trap32
deriving DecidableEq

def gateKind : Nat → Option GateKind
| 0b00101 => some .task
| 0b00110 => some .interrupt16
| 0b00111 => some .trap16
| 0b01110 => some .interrupt32
| 0b01111 => some .trap32
| _ => none

/- What the processor reads from a descriptor. -/
structure Gate where
  kind : GateKind
  dpl : Nat
  present : Bool
  selector : Nat
  offset : Nat
deriving DecidableEq

def readGate
    (val : Nat) : Option Gate :=
  (gateKind (val / 2 ^ 40 % 2 ^ 5)).map
    (fun kind =>
      { kind := kind
        dpl := val / 2 ^ 45 % 2 ^ 2
        present := decide (val / 2 ^ 47 % 2 = 1)
        selector := val / 2 ^ 16 % 2 ^ 16
        offset := val % 2 ^ 16 +
          2 ^ 16 * (val / 2 ^ 48 % 2 ^ 16) })

/- What comes of an interrupt. -/
inductive Delivery where
-- control passes to the entry point
| enter (kind : GateKind) (selector offset : Nat)
-- the processor raises an exception instead
| fault (e : Exception)
deriving DecidableEq

/- An exception or the interrupt of a device. -/
def deliver
    (idt : Nat → Nat)
    (vec : Nat) : Delivery :=
  match readGate (idt vec) with
  | none => .fault .generalProtectionFault
  | some g =>
      if g.present then .enter g.kind g.selector g.offset
      else .fault .segmentNotPresent

/- An `int` instruction at privilege level `cpl`. -/
def softInt
    (idt : Nat → Nat)
    (cpl : Nat)
    (vec : Nat) : Delivery :=
  match readGate (idt vec) with
  | none => .fault .generalProtectionFault
  | some g =>
      if g.dpl < cpl then .fault .generalProtectionFault
      else if g.present then
        .enter g.kind g.selector g.offset
      else .fault .segmentNotPresent

end MartianPendulum

------------------------------------------------------------
-- The Filled Table
------------------------------------------------------------

namespace MartianPendulum

/- A descriptor gives back the address it was given. -/
theorem setIdtEntry_offset
    (str : IdtDesc)
    (handler : BitVec 32) :
    (setIdtEntry str handler).offset1500.toNat +
        2 ^ 16 * (setIdtEntry str handler).offset3116.toNat =
      handler.toNat := by
  have hBound := handler.isLt
  have hLow : (handler &&& 0xFFFF#32).toNat =
      handler.toNat % 2 ^ 16 := by
    rw [BitVec.toNat_and]
    exact Nat.and_two_pow_sub_one_eq_mod handler.toNat 16
  have hHigh :
      ((handler &&& 0xFFFF0000#32) >>> 16).toNat =
        handler.toNat / 2 ^ 16 := by
    rw [BitVec.ushiftRight_and_distrib, BitVec.toNat_and,
      BitVec.toNat_ushiftRight, Nat.shiftRight_eq_div_pow]
    have hMask := Nat.and_two_pow_sub_one_eq_mod
      (handler.toNat / 2 ^ 16) 16
    have hSmall : handler.toNat / 2 ^ 16 < 2 ^ 16 := by
      omega
    rwa [Nat.mod_eq_of_lt hSmall] at hMask
  simp only [setIdtEntry, BitVec.toNat_setWidth, hLow, hHigh]
  omega

/- The gate of an entry point. -/
theorem gate_newDesc
    (address : Entry → BitVec 32)
    (entry : Entry) :
    readGate (newDesc address entry).val =
      some
        { kind := .interrupt32
          dpl := if entry = .syscallEntry then 3 else 0
          present := true
          selector := kernelCs.toNat
          offset := (address entry).toNat } := by
  have hGate : ∀ dpl : BitVec 2,
      readGate (setIdtEntry { commonDesc with dpl := dpl }
          (address entry)).val =
        some
          { kind := .interrupt32
            dpl := dpl.toNat
            present := true
            selector := kernelCs.toNat
            offset := (address entry).toNat } := by
    intro dpl
    have hSplit := setIdtEntry_offset
      { commonDesc with dpl := dpl } (address entry)
    have hLow := (setIdtEntry
      { commonDesc with dpl := dpl }
        (address entry)).offset1500.isLt
    have hHigh := (setIdtEntry
      { commonDesc with dpl := dpl }
        (address entry)).offset3116.isLt
    have hDpl := dpl.isLt
    have hVal : (setIdtEntry
        { commonDesc with dpl := dpl }
          (address entry)).val =
        (setIdtEntry { commonDesc with dpl := dpl }
          (address entry)).offset1500.toNat +
        (2 ^ 16 * 16 + 2 ^ 41 + 2 ^ 42 + 2 ^ 43 + 2 ^ 47) +
        2 ^ 45 * dpl.toNat +
        2 ^ 48 * (setIdtEntry { commonDesc with dpl := dpl }
          (address entry)).offset3116.toNat := by
      simp [IdtDesc.val, setIdtEntry, commonDesc, kernelCs]
      omega
    generalize (setIdtEntry { commonDesc with dpl := dpl }
      (address entry)).val = val at *
    generalize (setIdtEntry { commonDesc with dpl := dpl }
      (address entry)).offset1500.toNat = low at *
    generalize (setIdtEntry { commonDesc with dpl := dpl }
      (address entry)).offset3116.toNat = high at *
    have h47 : val / 2 ^ 47 = 2 * high + 1 := by omega
    have h45 : val / 2 ^ 45 = 8 * high + 4 + dpl.toNat := by
      omega
    have h48 : val / 2 ^ 48 = high := by omega
    have hKind : val / 2 ^ 40 % 2 ^ 5 = 0b01110 := by omega
    have hPresent : val / 2 ^ 47 % 2 = 1 := by omega
    have hSelector : val / 2 ^ 16 % 2 ^ 16 = 16 := by omega
    have hLevel : val / 2 ^ 45 % 2 ^ 2 = dpl.toNat := by
      omega
    have hOffset : val % 2 ^ 16 +
        2 ^ 16 * (val / 2 ^ 48 % 2 ^ 16) =
          (address entry).toNat := by
      rw [h48]
      omega
    simp only [readGate, hKind, hPresent, hSelector, hLevel,
      hOffset]
    rfl
  cases entry with
  | syscallEntry => exact hGate 3
  | keyboardEntry => exact hGate 0
  | rtcEntry => exact hGate 0
  | pitEntry => exact hGate 0
  | exception e => exact hGate 0

/- The loop writes the gates of the vectors it has passed. -/
theorem idtLoop_apply
    (address : Entry → BitVec 32)
    (n vec : Nat) :
    (List.range n).foldl (idtStep address) emptyIdt vec =
      if vec < n then
        ((entryOf vec).map
          (fun entry => (newDesc address entry).val)).getD 0
      else 0 := by
  induction n with
  | zero => rfl
  | succ n ih =>
      rw [List.range_succ, List.foldl_append,
        List.foldl_cons, List.foldl_nil]
      by_cases hVec : vec = n
      · subst hVec
        simp only [idtStep, Nat.lt_succ_self, if_true]
        cases hEntry : entryOf vec with
        | none => simpa using ih
        | some entry => simp
      · have hKeep : idtStep address
            ((List.range n).foldl (idtStep address)
              emptyIdt) n vec =
            (List.range n).foldl (idtStep address)
              emptyIdt vec := by
          simp only [idtStep]
          cases entryOf n with
          | none => rfl
          | some entry =>
              exact Function.update_of_ne hVec _ _
        have hIff : vec < n + 1 ↔ vec < n := by omega
        simp only [hKeep, ih, hIff]

/- A vector has the gate of its entry point, or none. -/
theorem idtInit_apply
    (address : Entry → BitVec 32)
    {vec : Nat}
    (hVec : vec < numVec) :
    readGate (idtInit address vec) =
      (entryOf vec).map (fun entry =>
        { kind := .interrupt32
          dpl := if entry = .syscallEntry then 3 else 0
          present := true
          selector := kernelCs.toNat
          offset := (address entry).toNat }) := by
  rw [idtInit, idtLoop_apply, if_pos hVec]
  cases entryOf vec with
  | none =>
      have hZero : readGate 0 = none := by decide
      exact hZero
  | some entry => exact gate_newDesc address entry

theorem entryOf_eq_some
    {vec : Nat}
    {entry : Entry}
    (hEntry : entryOf vec = some entry) :
    entry.vector = vec := by
  unfold entryOf at hEntry
  split at hEntry <;> cases hEntry <;> rfl

theorem entryOf_vector
    (entry : Entry) :
    entryOf entry.vector = some entry := by
  cases entry with
  | exception e =>
      cases e <;> rfl
  | _ => rfl

end MartianPendulum

------------------------------------------------------------
-- Interrupts of User Programs
------------------------------------------------------------

namespace MartianPendulum

/- An exception or a device reaches its own entry point. -/
theorem deliver_vector
    (address : Entry → BitVec 32)
    (entry : Entry) :
    deliver (idtInit address) entry.vector =
      .enter .interrupt32 kernelCs.toNat
        (address entry).toNat := by
  have hVec : entry.vector < numVec := by
    cases entry with
    | exception e => cases e <;> decide
    | _ => decide
  simp only [deliver, idtInit_apply address hVec,
    entryOf_vector, Option.map_some, if_true]

/-
  The only vector whose entry point a user program can reach
  with an `int` instruction is that of the system calls.
  Every other one raises a general protection fault, and
  this fault finds its entry point.  All entry points are
  entered in the kernel segment, with interrupts off.
-/
theorem user_int_reaches_only_syscall_entry
    (address : Entry → BitVec 32)
    (vec : Nat)
    (hVec : vec < numVec) :
    softInt (idtInit address) 3 vec =
        (if vec = 0x80 then
          .enter .interrupt32 kernelCs.toNat
            (address .syscallEntry).toNat
        else .fault .generalProtectionFault) ∧
      (∀ entry : Entry,
        deliver (idtInit address) entry.vector =
          .enter .interrupt32 kernelCs.toNat
            (address entry).toNat) ∧
      ((∀ entry : Entry, entry.vector ≠ vec) →
        deliver (idtInit address) vec =
          .fault .generalProtectionFault) := by
  refine ⟨?_, deliver_vector address, ?_⟩
  · rw [softInt, idtInit_apply address hVec]
    cases hEntry : entryOf vec with
    | none =>
        have hNe : vec ≠ 0x80 := by
          rintro rfl
          cases hEntry
        rw [if_neg hNe]
        rfl
    | some entry =>
        have hSame := entryOf_eq_some hEntry
        by_cases hCall : entry = .syscallEntry
        · subst hCall
          have hEq : vec = 0x80 := hSame.symm
          rw [if_pos hEq]
          rfl
        · have hNe : vec ≠ 0x80 := by
            rintro rfl
            exact hCall (Option.some.inj hEntry).symm
          rw [if_neg hNe]
          simp [hCall]
  · intro hNone
    rw [deliver, idtInit_apply address hVec]
    cases hEntry : entryOf vec with
    | none => rfl
    | some entry =>
        exact absurd (entryOf_eq_some hEntry) (hNone entry)

theorem user_int_reaches_only_syscall_entry_pit :
    softInt (idtInit (fun _ => 0x400010)) 3 0x20 =
      .fault .generalProtectionFault :=
  (user_int_reaches_only_syscall_entry
    (fun _ => 0x400010) 0x20 (by decide)).1

end MartianPendulum
