import MartianPendulum.Devices.Pic
import MartianPendulum.Kernel.Idt
import MartianPendulum.Logic.Scan

/-
  Interrupts from a device to its handler and back.

  A controller presents the first open request above all
  lines in service.  Each of the three handlers ends the
  service of its line before it lets interrupts in again, so
  that whenever interrupts are let in no line is in service
  and none can be held up.

  Key definitions include:
    * `Pics.acknowledge`
    * `handlerActs`
    * `IrqState`, `irqEvent`
    * `IrqSettled`, `IrqServing`

  Key theorems include:
    * `acknowledge_cases`
    * `sendEoi_serving`
    * `irqEvent_inv`
    * `interrupts_reach_handlers`
-/

------------------------------------------------------------
-- Requests
------------------------------------------------------------

namespace MartianPendulum

namespace Pic8259

/-
  The line that is served next: requested, not masked, and
  above every line in service.
-/
def pick
    (p : Pic8259)
    (lines : BitVec 8) : Option Nat :=
  (List.range 8).find? (fun n =>
    lines.getLsbD n && !p.imr.getLsbD n &&
      (List.range (n + 1)).all (fun m => !p.isr.getLsbD m))

/- Bit 1 of the fourth word: the service ends at once. -/
def serve
    (p : Pic8259)
    (n : Nat) : Pic8259 :=
  { p with
    irr := p.irr &&& ~~~(1#8 <<< n)
    isr :=
      if p.icw4.getLsbD 1 then p.isr
      else p.isr ||| (1#8 <<< n) }

/- The low bits of the second word are those of the line. -/
def vector
    (p : Pic8259)
    (n : Nat) : Nat :=
  (p.icw2 &&& 0xF8#8).toNat + n

end Pic8259

namespace Pics

/- A device raises its line. -/
def request
    (n : Nat)
    (d : Pics) : Pics :=
  if n ≥ irqNum8 then
    { d with
      slave :=
        { d.slave with
          irr := d.slave.irr ||| (1#8 <<< (n - irqNum8)) } }
  else
    { d with
      master :=
        { d.master with
          irr := d.master.irr ||| (1#8 <<< n) } }

def requested
    (d : Pics)
    (n : Nat) : Bool :=
  if n ≥ irqNum8 then d.slave.irr.getLsbD (n - irqNum8)
  else d.master.irr.getLsbD n

def slaveLine
    (d : Pics) : Option Nat :=
  d.slave.pick d.slave.irr

/- The slave is wired to line 2 of the master. -/
def masterLines
    (d : Pics) : BitVec 8 :=
  if d.slaveLine.isSome then
    d.master.irr ||| (1#8 <<< slaveIrqLine)
  else d.master.irr

/-
  The vector that the processor gets when it takes an
  interrupt.  For a line with a slave it comes from there.
-/
def acknowledge
    (d : Pics) : Option (Nat × Pics) := do
  let n ← d.master.pick d.masterLines
  if d.master.icw3.getLsbD n then do
    let m ← d.slaveLine
    if (d.slave.icw3 &&& 7#8).toNat = n then
      some (d.slave.vector m,
        { d with
          master := d.master.serve n
          slave := d.slave.serve m })
    else none
  else
    some (d.master.vector n,
      { d with master := d.master.serve n })

end Pics

end MartianPendulum

------------------------------------------------------------
-- Handlers
------------------------------------------------------------

namespace MartianPendulum

/- What a handler does to interrupts. -/
inductive HandlerAct where
| cli
| sti
| eoi (irqNum : Nat)
| schedule
deriving DecidableEq

/- The constants of `pit.h`, `keyboard.h` and `rtc.h`. -/
def pitIrq : Nat := 0
def keyboardIrq : Nat := 1
def rtcIrq : Nat := 8

/-
  `pit_int_handler`, `rtc_int_handler`, and both ways
  through `keyboard_int_handler`.
-/
def handlerActs : Entry → List HandlerAct
| .pitEntry => [.cli, .eoi pitIrq, .schedule, .sti]
| .rtcEntry => [.cli, .eoi rtcIrq, .sti]
| .keyboardEntry => [.cli, .eoi keyboardIrq, .sti]
| .syscallEntry => []
| .exception _ => []

/-
  The stack of a process: what is left to do of each handler
  that was entered, the innermost first.
-/
abbrev HandlerStack := List (List HandlerAct)

structure IrqState where
  pics : Pics
  iflag : Bool
  frames : HandlerStack
  -- the processes that `schedule` has left
  suspended : List HandlerStack

inductive IrqEvent where
| request (irqNum : Nat)
| interrupt
-- the next step of the innermost handler
| act
| iret
-- `schedule` goes on with another process
| switch (k : Nat)
-- `schedule` starts a shell
| launch
-- `cli` and `sti` outside of the handlers
| setIf (b : Bool)

/-
  One event; an event that cannot happen changes nothing.
  The gates clear the flag, and `iret` brings it back: an
  interrupt is only taken while the flag is set.
-/
def irqEvent
    (s : IrqState) :
    IrqEvent → IrqState
| .request n => { s with pics := s.pics.request n }
| .interrupt =>
    match s.iflag, s.pics.acknowledge with
    | true, some (v, pics) =>
        { s with
          pics := pics
          iflag := false
          frames :=
            ((entryOf v).elim [] handlerActs) :: s.frames }
    | _, _ => s
| .act =>
    match s.frames with
    | (.cli :: acts) :: rest =>
        { s with iflag := false, frames := acts :: rest }
    | (.sti :: acts) :: rest =>
        { s with iflag := true, frames := acts :: rest }
    | (.eoi n :: acts) :: rest =>
        { s with
          pics := sendEoi n s.pics
          frames := acts :: rest }
    | _ => s
| .iret =>
    match s.frames with
    | [] :: rest => { s with iflag := true, frames := rest }
    | _ => s
| .switch k =>
    match s.frames, s.suspended[k]? with
    | (.schedule :: acts) :: rest, some other =>
        { s with
          frames := other
          suspended := s.suspended.set k (acts :: rest) }
    | (.schedule :: acts) :: rest, none =>
        { s with frames := acts :: rest }
    | _, _ => s
| .launch =>
    match s.frames with
    | (.schedule :: acts) :: rest =>
        { s with
          iflag := true
          frames := []
          suspended := (acts :: rest) :: s.suspended }
    | _ => s
| .setIf b =>
    match s.frames with
    | [] => { s with iflag := b }
    | _ => s

/-
  The calls of `rtc_init`, `keyboard_init` and `pit_init`
  after `i8259_init`, and the `sti` of the kernel.
-/
def bootIrqs
    (d : Pics) : Pics :=
  let d := i8259Init d
  let d := enableIrq rtcIrq d
  let d := enableIrq slaveIrqLine d
  let d := enableIrq keyboardIrq d
  enableIrq pitIrq d

def bootIrqState
    (d : Pics) : IrqState :=
  { pics := bootIrqs d
    iflag := true
    frames := []
    suspended := [] }

end MartianPendulum

------------------------------------------------------------
-- Service of a Line
------------------------------------------------------------

namespace MartianPendulum

/- The lines that the boot has opened stay open. -/
structure Pics.Booted
    (d : Pics) : Prop where
  ready : d.Ready
  masterImr : d.master.imr = 0xF8#8
  slaveImr : d.slave.imr = 0xFE#8

theorem bootIrqs_eq
    (d : Pics) :
    bootIrqs d =
      { master :=
          { readyPic icw2Master icw3Master with
            imr := 0xF8#8 }
        slave :=
          { readyPic icw2Slave icw3Slave with
            imr := 0xFE#8 }
        masterMask := 0xF8#8
        slaveMask := 0xFE#8 } := by
  rw [bootIrqs, i8259Init_eq]
  simp [enableIrq, maskIrq, Pics.outb, Pic8259.writeData,
    Pic8259.readData, readyPic, pitIrq, keyboardIrq, rtcIrq,
    slaveIrqLine, irqHigh, irqNum8, maskAll]

theorem bootIrqs_booted
    (d : Pics) :
    (bootIrqs d).Booted := by
  rw [bootIrqs_eq]
  exact ⟨⟨rfl, rfl, rfl, rfl, rfl, rfl, rfl, rfl⟩, rfl, rfl⟩

/- The lines with a handler. -/
def irqLines : List (Nat × Entry) :=
  [(pitIrq, .pitEntry), (keyboardIrq, .keyboardEntry),
    (rtcIrq, .rtcEntry)]

/- The registers while a line is in service. -/
structure Pics.InService
    (d : Pics)
    (n : Nat) : Prop where
  master : d.master.isr =
    if n ≥ irqNum8 then 1#8 <<< slaveIrqLine else 1#8 <<< n
  slave : d.slave.isr =
    if n ≥ irqNum8 then 1#8 <<< (n - irqNum8) else 0

structure Pics.NoService
    (d : Pics) : Prop where
  master : d.master.isr = 0
  slave : d.slave.isr = 0

theorem request_booted
    {d : Pics}
    (hBooted : d.Booted)
    (n : Nat) :
    (d.request n).Booted := by
  unfold Pics.request
  split
  · exact ⟨{ hBooted.ready with }, hBooted.masterImr,
      hBooted.slaveImr⟩
  · exact ⟨{ hBooted.ready with }, hBooted.masterImr,
      hBooted.slaveImr⟩

/- Only the open lines of a controller are picked. -/
theorem pick_open
    {p : Pic8259}
    {lines : BitVec 8}
    {n : Nat}
    (hPick : p.pick lines = some n) :
    n < 8 ∧ lines.getLsbD n = true ∧
      p.imr.getLsbD n = false := by
  have hTest := List.find?_some hPick
  have hMem := List.mem_of_find?_eq_some hPick
  simp only [Bool.and_eq_true, Bool.not_eq_true'] at hTest
  exact ⟨List.mem_range.mp hMem, hTest.1.1, hTest.1.2⟩

/- With nothing in service an open request is picked. -/
theorem pick_isSome
    {p : Pic8259}
    (hIsr : p.isr = 0)
    {lines : BitVec 8}
    {n : Nat}
    (hn : n < 8)
    (hLine : lines.getLsbD n = true)
    (hOpen : p.imr.getLsbD n = false) :
    ∃ m, p.pick lines = some m := by
  apply Option.isSome_iff_exists.mp
  rw [Pic8259.pick, List.find?_isSome]
  refine ⟨n, List.mem_range.mpr hn, ?_⟩
  rw [hLine, hOpen, hIsr]
  simp

/- The masks of the boot. -/
theorem getLsbD_masterImr
    {n : Nat}
    (hn : n < 8)
    (hOpen : (0xF8#8).getLsbD n = false) :
    n = 0 ∨ n = 1 ∨ n = 2 := by
  have hAll : ∀ n < 8, (0xF8#8).getLsbD n = false →
      n = 0 ∨ n = 1 ∨ n = 2 := by
    decide
  exact hAll n hn hOpen

theorem getLsbD_slaveImr
    {n : Nat}
    (hn : n < 8)
    (hOpen : (0xFE#8).getLsbD n = false) :
    n = 0 := by
  have hAll : ∀ n < 8, (0xFE#8).getLsbD n = false →
      n = 0 := by
    decide
  exact hAll n hn hOpen

section Acknowledge

variable {d : Pics}

theorem serve_booted
    (hBooted : d.Booted)
    (n : Nat) :
    { d with master := d.master.serve n }.Booted ∧
      { d with slave := d.slave.serve n }.Booted :=
  ⟨⟨{ hBooted.ready with }, hBooted.masterImr,
      hBooted.slaveImr⟩,
    ⟨{ hBooted.ready with }, hBooted.masterImr,
      hBooted.slaveImr⟩⟩

theorem serve_isr
    {p : Pic8259}
    (hMode : p.icw4 = icw4Init)
    (hIsr : p.isr = 0)
    (n : Nat) :
    (p.serve n).isr = 1#8 <<< n := by
  have hBit : icw4Init.getLsbD 1 = false := by decide
  simp only [Pic8259.serve, hMode, hIsr, hBit,
    Bool.false_eq_true, if_false]
  exact BitVec.zero_or

theorem slaveLine_eq
    (hBooted : d.Booted)
    {m : Nat}
    (hLine : d.slaveLine = some m) :
    m = 0 ∧ d.slave.irr.getLsbD 0 = true := by
  rcases pick_open hLine with ⟨hm, hRequest, hOpen⟩
  rw [hBooted.slaveImr] at hOpen
  have hZero := getLsbD_slaveImr hm hOpen
  rw [hZero] at hRequest
  exact ⟨hZero, hRequest⟩

theorem masterLines_getLsbD
    {n : Nat}
    (hn : n < 8)
    (hLine : n ≠ slaveIrqLine) :
    d.masterLines.getLsbD n = d.master.irr.getLsbD n := by
  unfold Pics.masterLines
  split
  · rw [getLsbD_set _ hn, if_neg hLine]
  · rfl

/- A line of the master with a handler of its own. -/
theorem acknowledge_master
    (hBooted : d.Booted)
    (hNone : d.NoService)
    {n : Nat}
    {entry : Entry}
    (hn : n < 2)
    (hMem : (n, entry) ∈ irqLines)
    (hLine : d.masterLines.getLsbD n = true)
    (hEntry : entryOf (0x20 + n) = some entry) :
    (n, entry) ∈ irqLines ∧ d.requested n = true ∧
      d.master.vector n = 0x20 + n ∧
      entryOf (d.master.vector n) = some entry ∧
      { d with master := d.master.serve n }.Booted ∧
      { d with master := d.master.serve n }.InService n := by
  have hVector : d.master.vector n = 0x20 + n := by
    rw [Pic8259.vector, hBooted.ready.masterVector]
    rfl
  have hSmall : ¬ n ≥ irqNum8 := by
    unfold irqNum8
    omega
  rw [masterLines_getLsbD (by omega)
    (by unfold slaveIrqLine; omega)] at hLine
  refine ⟨hMem, ?_, hVector, by rw [hVector]; exact hEntry,
    (serve_booted hBooted n).1, ?_, ?_⟩
  · rw [Pics.requested, if_neg hSmall]
    exact hLine
  · rw [if_neg hSmall]
    exact serve_isr hBooted.ready.masterMode hNone.master n
  · rw [if_neg hSmall]
    exact hNone.slave

/-
  With no line in service the processor gets the vector of a
  requested line with a handler, and that line is in service
  then.
-/
theorem acknowledge_cases
    (hBooted : d.Booted)
    (hNone : d.NoService)
    {v : Nat}
    {d' : Pics}
    (hAck : d.acknowledge = some (v, d')) :
    ∃ n entry, (n, entry) ∈ irqLines ∧
      d.requested n = true ∧ v = 0x20 + n ∧
      entryOf v = some entry ∧
      d'.Booted ∧ d'.InService n := by
  unfold Pics.acknowledge at hAck
  cases hPick : d.master.pick d.masterLines with
  | none =>
      rw [hPick] at hAck
      cases hAck
  | some n =>
      rcases pick_open hPick with ⟨hn, hLine, hOpen⟩
      rw [hBooted.masterImr] at hOpen
      simp only [hPick, Option.bind_eq_bind,
        Option.bind_some, hBooted.ready.masterCascade] at hAck
      rcases getLsbD_masterImr hn hOpen with rfl | rfl | rfl
      · rw [if_neg (by decide), Option.some_inj,
          Prod.mk.injEq] at hAck
        rcases hAck with ⟨rfl, rfl⟩
        exact ⟨0, .pitEntry, acknowledge_master hBooted hNone
          (by decide) (by decide) hLine rfl⟩
      · rw [if_neg (by decide), Option.some_inj,
          Prod.mk.injEq] at hAck
        rcases hAck with ⟨rfl, rfl⟩
        exact ⟨1, .keyboardEntry, acknowledge_master hBooted
          hNone (by decide) (by decide) hLine rfl⟩
      · rw [if_pos (by decide)] at hAck
        cases hSlave : d.slaveLine with
        | none =>
            rw [hSlave] at hAck
            cases hAck
        | some m =>
            rcases slaveLine_eq hBooted hSlave with
              ⟨rfl, hRequest⟩
            have hVector : d.slave.vector 0 = 0x28 := by
              rw [Pic8259.vector, hBooted.ready.slaveVector]
              rfl
            rw [hSlave, Option.bind_some,
              hBooted.ready.slaveCascade,
              if_pos (by decide), Option.some_inj,
              Prod.mk.injEq] at hAck
            rcases hAck with ⟨rfl, rfl⟩
            refine ⟨8, .rtcEntry, by decide, hRequest,
              hVector, by rw [hVector]; rfl, ?_, ?_, ?_⟩
            · exact ⟨{ hBooted.ready with },
                hBooted.masterImr, hBooted.slaveImr⟩
            · exact serve_isr hBooted.ready.masterMode
                hNone.master 2
            · exact serve_isr hBooted.ready.slaveMode
                hNone.slave 0

/-
  What the master picks is taken, unless it is line 2 with
  nothing behind it.
-/
theorem acknowledge_of_pick
    (hBooted : d.Booted)
    {n : Nat}
    (hPick : d.master.pick d.masterLines = some n)
    (hSlave : n = 2 → d.slaveLine ≠ none) :
    ∃ v d', d.acknowledge = some (v, d') := by
  rcases pick_open hPick with ⟨hn, _, hOpen⟩
  rw [hBooted.masterImr] at hOpen
  unfold Pics.acknowledge
  simp only [hPick, Option.bind_eq_bind, Option.bind_some,
    hBooted.ready.masterCascade]
  rcases getLsbD_masterImr hn hOpen with rfl | rfl | rfl
  · rw [if_neg (by decide)]
    exact ⟨_, _, rfl⟩
  · rw [if_neg (by decide)]
    exact ⟨_, _, rfl⟩
  · rcases Option.ne_none_iff_exists'.mp (hSlave rfl) with
      ⟨m, hm⟩
    rw [if_pos (by decide), hm, Option.bind_some,
      hBooted.ready.slaveCascade, if_pos (by decide)]
    exact ⟨_, _, rfl⟩

/- The line picked is the first of the open requests. -/
theorem pick_le
    {p : Pic8259}
    (hIsr : p.isr = 0)
    {lines : BitVec 8}
    {n m : Nat}
    (hn : n < 8)
    (hLine : lines.getLsbD n = true)
    (hOpen : p.imr.getLsbD n = false)
    (hPick : p.pick lines = some m) :
    m ≤ n := by
  by_contra hLater
  have hLeast := (Logic.find?_least
    List.pairwise_lt_range hPick).2.2 n
      (List.mem_range.mpr hn) (by omega)
  rw [hLine, hOpen, hIsr] at hLeast
  simp at hLeast

/- An open request is never held up. -/
theorem acknowledge_isSome
    (hBooted : d.Booted)
    (hNone : d.NoService)
    {n : Nat}
    {entry : Entry}
    (hMem : (n, entry) ∈ irqLines)
    (hRequest : d.requested n = true) :
    ∃ v d', d.acknowledge = some (v, d') := by
  by_cases hRtc : n = 8
  · subst hRtc
    have hSlaveBit : d.slave.irr.getLsbD 0 = true := hRequest
    rcases pick_isSome hNone.slave (by decide) hSlaveBit
        (by rw [hBooted.slaveImr]; decide) with
      ⟨m, hSlave⟩
    have hLine : d.masterLines.getLsbD 2 = true := by
      unfold Pics.masterLines Pics.slaveLine
      rw [hSlave, Option.isSome_some, if_pos rfl,
        getLsbD_set _ (by decide)]
      rfl
    rcases pick_isSome hNone.master (by decide) hLine
        (by rw [hBooted.masterImr]; decide) with
      ⟨k, hPick⟩
    refine acknowledge_of_pick hBooted hPick (fun _ => ?_)
    rw [Pics.slaveLine, hSlave]
    exact Option.some_ne_none m
  · have hSmall : n < 2 := by
      simp only [irqLines, pitIrq, keyboardIrq, rtcIrq,
        List.mem_cons, Prod.mk.injEq, List.not_mem_nil,
        or_false] at hMem
      omega
    have hOpen : d.master.imr.getLsbD n = false := by
      rw [hBooted.masterImr]
      have hCases : n = 0 ∨ n = 1 := by omega
      rcases hCases with rfl | rfl
      · decide
      · decide
    have hLine : d.masterLines.getLsbD n = true := by
      rw [masterLines_getLsbD (by omega)
        (by unfold slaveIrqLine; omega)]
      rw [Pics.requested, if_neg (by unfold irqNum8; omega)]
        at hRequest
      exact hRequest
    rcases pick_isSome hNone.master (by omega) hLine hOpen
      with ⟨k, hPick⟩
    have hLe := pick_le hNone.master (by omega) hLine hOpen
      hPick
    exact acknowledge_of_pick hBooted hPick
      (fun hTwo => absurd hTwo (by omega))

/- The end of the service of a line. -/
theorem writeCommand_eoi
    (p : Pic8259)
    {n : Nat}
    (hn : n < 8) :
    p.writeCommand (BitVec.ofNat 8 n ||| eoi) =
      { p with isr := p.isr &&& ~~~(1#8 <<< n) } := by
  have hWord : ∀ n < 8,
      (BitVec.ofNat 8 n ||| eoi).getLsbD 4 = false ∧
      (BitVec.ofNat 8 n ||| eoi) >>> 3 = 0x0C#8 ∧
      ((BitVec.ofNat 8 n ||| eoi) &&& 7#8).toNat = n := by
    decide
  rcases hWord n hn with ⟨hInit, hCommand, hLine⟩
  rw [Pic8259.writeCommand, hInit, if_neg (by decide),
    if_pos hCommand, hLine]

/- One controller, or both of them. -/
theorem sendEoi_master
    (d : Pics)
    {n : Nat}
    (hn : n < 8) :
    sendEoi n d =
      { d with
        master :=
          { d.master with
            isr := d.master.isr &&& ~~~(1#8 <<< n) } } := by
  rw [sendEoi, if_neg (by unfold irqHigh; omega),
    if_neg (by unfold irqNum8; omega), Pics.outb,
    writeCommand_eoi _ hn]

theorem sendEoi_slave
    (d : Pics)
    {n : Nat}
    (hLow : 8 ≤ n)
    (hHigh : n < 16) :
    sendEoi n d =
      { d with
        master :=
          { d.master with
            isr := d.master.isr &&&
              ~~~(1#8 <<< slaveIrqLine) }
        slave :=
          { d.slave with
            isr := d.slave.isr &&&
              ~~~(1#8 <<< (n - irqNum8)) } } := by
  have hLine : eoi ||| BitVec.ofNat 8 slaveIrqLine =
      BitVec.ofNat 8 slaveIrqLine ||| eoi := by
    decide
  rw [sendEoi, if_neg (by unfold irqHigh; omega),
    if_pos (by unfold irqNum8; omega), hLine]
  simp only [Pics.outb]
  rw [writeCommand_eoi _ (show slaveIrqLine < 8 by decide),
    writeCommand_eoi _ (by unfold irqNum8; omega)]

theorem sendEoi_serving
    (hBooted : d.Booted)
    {n : Nat}
    {entry : Entry}
    (hMem : (n, entry) ∈ irqLines)
    (hService : d.InService n) :
    (sendEoi n d).Booted ∧ (sendEoi n d).NoService := by
  have hBits : ∀ i < 8,
      1#8 <<< i &&& ~~~(1#8 <<< i) = 0#8 := by
    decide
  have hMaster := hService.master
  have hSlave := hService.slave
  by_cases hn : n < 8
  · have hSmall : ¬ n ≥ irqNum8 := by
      unfold irqNum8
      omega
    rw [if_neg hSmall] at hMaster hSlave
    rw [sendEoi_master d hn, hMaster, hBits n hn]
    exact ⟨⟨{ hBooted.ready with }, hBooted.masterImr,
      hBooted.slaveImr⟩, rfl, hSlave⟩
  · have hRtc : n = 8 := by
      simp only [irqLines, pitIrq, keyboardIrq, rtcIrq,
        List.mem_cons, Prod.mk.injEq, List.not_mem_nil,
        or_false] at hMem
      omega
    subst hRtc
    rw [if_pos (by decide)] at hMaster hSlave
    rw [sendEoi_slave d (by decide) (by decide), hMaster,
      hSlave, hBits slaveIrqLine (by decide),
      hBits (8 - irqNum8) (by decide)]
    exact ⟨⟨{ hBooted.ready with }, hBooted.masterImr,
      hBooted.slaveImr⟩, rfl, rfl⟩

end Acknowledge

end MartianPendulum

------------------------------------------------------------
-- Runs
------------------------------------------------------------

namespace MartianPendulum

/- A handler that has ended the service of its line. -/
def Acked
    (acts : List HandlerAct) : Prop :=
  ∀ n, .eoi n ∉ acts

/- A handler that still has to. -/
def IrqEntered
    (n : Nat)
    (acts : List HandlerAct) : Prop :=
  ∃ tail, Acked tail ∧
    (acts = .cli :: .eoi n :: tail ∨ acts = .eoi n :: tail)

/- No line is in service. -/
structure IrqSettled
    (s : IrqState) : Prop where
  isr : s.pics.NoService
  frames : ∀ acts ∈ s.frames, Acked acts
  suspended : ∀ stack ∈ s.suspended,
    ∀ acts ∈ stack, Acked acts

/- The innermost handler serves a line. -/
structure IrqServing
    (s : IrqState)
    (n : Nat) : Prop where
  line : ∃ entry, (n, entry) ∈ irqLines
  isr : s.pics.InService n
  iflag : s.iflag = false
  frames : ∃ acts rest, s.frames = acts :: rest ∧
    IrqEntered n acts ∧ ∀ acts ∈ rest, Acked acts
  suspended : ∀ stack ∈ s.suspended,
    ∀ acts ∈ stack, Acked acts

structure IrqInv
    (s : IrqState) : Prop where
  booted : s.pics.Booted
  service : IrqSettled s ∨ ∃ n, IrqServing s n

theorem bootIrqState_inv
    (d : Pics) :
    IrqInv (bootIrqState d) := by
  refine ⟨bootIrqs_booted d, .inl ⟨?_, nofun, nofun⟩⟩
  simp only [bootIrqState, bootIrqs_eq]
  exact ⟨rfl, rfl⟩

/- The handler of a line starts with its acknowledgement. -/
theorem handlerActs_entered
    {n : Nat}
    {entry : Entry}
    (hMem : (n, entry) ∈ irqLines) :
    IrqEntered n (handlerActs entry) := by
  simp only [irqLines, List.mem_cons, Prod.mk.injEq,
    List.not_mem_nil, or_false] at hMem
  rcases hMem with ⟨rfl, rfl⟩ | ⟨rfl, rfl⟩ | ⟨rfl, rfl⟩
  · exact ⟨[.schedule, .sti], by simp [Acked], .inl rfl⟩
  · exact ⟨[.sti], by simp [Acked], .inl rfl⟩
  · exact ⟨[.sti], by simp [Acked], .inl rfl⟩

section Step

variable {s : IrqState}

theorem interrupt_inv
    (hInv : IrqInv s) :
    IrqInv (irqEvent s .interrupt) := by
  rw [irqEvent]
  split
  next v pics hFlag hAck =>
    rcases hInv.service with hSettled | ⟨n, hServing⟩
    · rcases acknowledge_cases hInv.booted hSettled.isr hAck
        with ⟨n, entry, hMem, _, _, hEntry, hBooted, hIn⟩
      refine ⟨hBooted, .inr ⟨n, ⟨entry, hMem⟩, hIn, rfl, ?_,
        hSettled.suspended⟩⟩
      rw [hEntry]
      exact ⟨_, _, rfl, handlerActs_entered hMem,
        hSettled.frames⟩
    · rw [hServing.iflag] at hFlag
      cases hFlag
  next => exact hInv

/- What is left of a handler after one of its steps. -/
theorem Acked.tail
    {act : HandlerAct}
    {acts : List HandlerAct}
    (hAcked : Acked (act :: acts)) :
    Acked acts :=
  fun n hMem => hAcked n (List.mem_cons_of_mem act hMem)

theorem IrqSettled.act
    (hSettled : IrqSettled s)
    {act : HandlerAct}
    {acts : List HandlerAct}
    {rest : HandlerStack}
    (hFrames : s.frames = (act :: acts) :: rest) :
    Acked (act :: acts) ∧
      ∀ frame ∈ acts :: rest, Acked frame := by
  have hAll := hSettled.frames
  rw [hFrames] at hAll
  have hTop := hAll _ (List.mem_cons_self ..)
  refine ⟨hTop, ?_⟩
  intro frame hMem
  rcases List.mem_cons.mp hMem with rfl | hRest
  · exact hTop.tail
  · exact hAll frame (List.mem_cons_of_mem _ hRest)

/- The handler that serves a line is at its start. -/
theorem IrqServing.act
    {n : Nat}
    (hServing : IrqServing s n)
    {act : HandlerAct}
    {acts : List HandlerAct}
    {rest : HandlerStack}
    (hFrames : s.frames = (act :: acts) :: rest) :
    (∀ frame ∈ rest, Acked frame) ∧
      ((act = .cli ∧ ∃ tail, Acked tail ∧
          acts = .eoi n :: tail) ∨
        (act = .eoi n ∧ Acked acts)) := by
  rcases hServing.frames with
    ⟨acts', rest', hSame, ⟨tail, hTail, hCases⟩, hRest⟩
  rw [hFrames, List.cons.injEq] at hSame
  rcases hSame with ⟨rfl, rfl⟩
  refine ⟨hRest, ?_⟩
  rcases hCases with hCli | hEoi
  · rw [List.cons.injEq] at hCli
    exact .inl ⟨hCli.1, tail, hTail, hCli.2⟩
  · rw [List.cons.injEq] at hEoi
    exact .inr ⟨hEoi.1, by rw [hEoi.2]; exact hTail⟩

theorem act_inv
    (hInv : IrqInv s) :
    IrqInv (irqEvent s .act) := by
  rw [irqEvent]
  split
  next acts rest hFrames =>
    -- `cli`
    rcases hInv.service with hSettled | ⟨n, hServing⟩
    · exact ⟨hInv.booted, .inl ⟨hSettled.isr,
        (hSettled.act hFrames).2, hSettled.suspended⟩⟩
    · rcases hServing.act hFrames with
        ⟨hRest, ⟨_, tail, hTail, rfl⟩ | ⟨hEoi, _⟩⟩
      · exact ⟨hInv.booted, .inr ⟨n, hServing.line,
          hServing.isr, rfl,
          ⟨_, _, rfl, ⟨tail, hTail, .inr rfl⟩, hRest⟩,
          hServing.suspended⟩⟩
      · cases hEoi
  next acts rest hFrames =>
    -- `sti`
    rcases hInv.service with hSettled | ⟨n, hServing⟩
    · exact ⟨hInv.booted, .inl ⟨hSettled.isr,
        (hSettled.act hFrames).2, hSettled.suspended⟩⟩
    · rcases (hServing.act hFrames).2 with
        ⟨hCli, _⟩ | ⟨hEoi, _⟩
      · cases hCli
      · cases hEoi
  next m acts rest hFrames =>
    -- the end of the service
    rcases hInv.service with hSettled | ⟨n, hServing⟩
    · exact absurd (List.mem_cons_self ..)
        ((hSettled.act hFrames).1 m)
    · rcases hServing.act hFrames with
        ⟨hRest, ⟨hCli, _⟩ | ⟨hEoi, hAcked⟩⟩
      · cases hCli
      · cases hEoi
        rcases hServing.line with ⟨entry, hMem⟩
        rcases sendEoi_serving hInv.booted hMem hServing.isr
          with ⟨hBooted, hNone⟩
        refine ⟨hBooted, .inl ⟨hNone, ?_,
          hServing.suspended⟩⟩
        intro frame hFrame
        rcases List.mem_cons.mp hFrame with rfl | hOther
        · exact hAcked
        · exact hRest frame hOther
  next => exact hInv

/- Between the handlers, and in `schedule`. -/
theorem IrqServing.ne_nil
    {n : Nat}
    (hServing : IrqServing s n) :
    s.frames ≠ [] ∧ ∀ rest, s.frames ≠ [] :: rest := by
  rcases hServing.frames with
    ⟨acts, rest, hFrames, ⟨tail, _, hCases⟩, _⟩
  rw [hFrames]
  refine ⟨List.cons_ne_nil _ _, ?_⟩
  intro rest' hEq
  rw [List.cons.injEq] at hEq
  rcases hCases with rfl | rfl
  · exact List.cons_ne_nil _ _ hEq.1
  · exact List.cons_ne_nil _ _ hEq.1

theorem IrqServing.not_schedule
    {n : Nat}
    (hServing : IrqServing s n)
    {acts : List HandlerAct}
    {rest : HandlerStack} :
    s.frames ≠ (.schedule :: acts) :: rest := by
  intro hFrames
  rcases (hServing.act hFrames).2 with ⟨hCli, _⟩ | ⟨hEoi, _⟩
  · cases hCli
  · cases hEoi

theorem irqEvent_inv
    (hInv : IrqInv s)
    (e : IrqEvent) :
    IrqInv (irqEvent s e) := by
  cases e with
  | interrupt => exact interrupt_inv hInv
  | act => exact act_inv hInv
  | request n =>
      have hIsr : (s.pics.request n).master.isr =
          s.pics.master.isr ∧
          (s.pics.request n).slave.isr =
            s.pics.slave.isr := by
        unfold Pics.request
        split
        · exact ⟨rfl, rfl⟩
        · exact ⟨rfl, rfl⟩
      refine ⟨request_booted hInv.booted n, ?_⟩
      rcases hInv.service with hSettled | ⟨m, hServing⟩
      · exact .inl ⟨⟨hIsr.1.trans hSettled.isr.master,
          hIsr.2.trans hSettled.isr.slave⟩,
          hSettled.frames, hSettled.suspended⟩
      · exact .inr ⟨m, hServing.line,
          ⟨hIsr.1.trans hServing.isr.master,
            hIsr.2.trans hServing.isr.slave⟩,
          hServing.iflag, hServing.frames,
          hServing.suspended⟩
  | iret =>
      rw [irqEvent]
      split
      next rest hFrames =>
        rcases hInv.service with hSettled | ⟨m, hServing⟩
        · have hAll := hSettled.frames
          rw [hFrames] at hAll
          exact ⟨hInv.booted, .inl ⟨hSettled.isr,
            fun acts hMem => hAll acts
              (List.mem_cons_of_mem _ hMem),
            hSettled.suspended⟩⟩
        · exact absurd hFrames (hServing.ne_nil.2 rest)
      next => exact hInv
  | switch k =>
      rw [irqEvent]
      split
      next acts rest other hFrames hOther =>
        rcases hInv.service with hSettled | ⟨m, hServing⟩
        · have hStack := (hSettled.act hFrames).2
          refine ⟨hInv.booted, .inl ⟨hSettled.isr,
            hSettled.suspended other
              (List.mem_of_getElem? hOther), ?_⟩⟩
          intro stack hMem
          rcases List.mem_or_eq_of_mem_set hMem with
            hOld | rfl
          · exact hSettled.suspended stack hOld
          · exact hStack
        · exact absurd hFrames hServing.not_schedule
      next acts rest hFrames _ =>
        rcases hInv.service with hSettled | ⟨m, hServing⟩
        · exact ⟨hInv.booted, .inl ⟨hSettled.isr,
            (hSettled.act hFrames).2, hSettled.suspended⟩⟩
        · exact absurd hFrames hServing.not_schedule
      next => exact hInv
  | launch =>
      rw [irqEvent]
      split
      next acts rest hFrames =>
        rcases hInv.service with hSettled | ⟨m, hServing⟩
        · have hStack := (hSettled.act hFrames).2
          refine ⟨hInv.booted, .inl ⟨hSettled.isr, nofun, ?_⟩⟩
          intro stack hMem
          rcases List.mem_cons.mp hMem with rfl | hOld
          · exact hStack
          · exact hSettled.suspended stack hOld
        · exact absurd hFrames hServing.not_schedule
      next => exact hInv
  | setIf b =>
      rw [irqEvent]
      split
      next hFrames =>
        rcases hInv.service with hSettled | ⟨m, hServing⟩
        · exact ⟨hInv.booted, .inl ⟨hSettled.isr,
            hSettled.frames, hSettled.suspended⟩⟩
        · exact absurd hFrames hServing.ne_nil.1
      next => exact hInv

end Step

/-
  Along any interleaving of requests, handlers and context
  switches: whenever interrupts are let in, no line is in
  service, an interrupt is taken exactly if a line with a
  handler is requested, and the gate of its vector leads to
  the handler of a line that was requested.
-/
theorem interrupts_reach_handlers
    (d : Pics)
    (es : List IrqEvent)
    (hFlag : (Logic.run irqEvent (bootIrqState d) es).iflag =
      true) :
    let pics := (Logic.run irqEvent (bootIrqState d) es).pics
    pics.NoService ∧
      ((∃ v pics', pics.acknowledge = some (v, pics')) ↔
        ∃ n entry, (n, entry) ∈ irqLines ∧
          pics.requested n = true) ∧
      ∀ v pics', pics.acknowledge = some (v, pics') →
        ∃ n entry, (n, entry) ∈ irqLines ∧
          pics.requested n = true ∧ v = 0x20 + n ∧
          entryOf v = some entry := by
  intro pics
  have hInv : IrqInv
      (Logic.run irqEvent (bootIrqState d) es) :=
    Logic.invariant_run (I := IrqInv)
      (fun s e hs => irqEvent_inv hs e)
      (bootIrqState_inv d) es
  have hNone : pics.NoService := by
    rcases hInv.service with hSettled | ⟨n, hServing⟩
    · exact hSettled.isr
    · rw [hServing.iflag] at hFlag
      cases hFlag
  have hCases : ∀ v pics',
      pics.acknowledge = some (v, pics') →
        ∃ n entry, (n, entry) ∈ irqLines ∧
          pics.requested n = true ∧ v = 0x20 + n ∧
          entryOf v = some entry := by
    intro v pics' hAck
    rcases acknowledge_cases hInv.booted hNone hAck with
      ⟨n, entry, hMem, hRequest, hVector, hEntry, _, _⟩
    exact ⟨n, entry, hMem, hRequest, hVector, hEntry⟩
  refine ⟨hNone, ?_, hCases⟩
  constructor
  · rintro ⟨v, pics', hAck⟩
    rcases hCases v pics' hAck with
      ⟨n, entry, hMem, hRequest, _, _⟩
    exact ⟨n, entry, hMem, hRequest⟩
  · rintro ⟨n, entry, hMem, hRequest⟩
    exact acknowledge_isSome hInv.booted hNone hMem hRequest

/- Controllers as another system may have left them. -/
def usedPics : Pics :=
  { master :=
      { stage := .icw3
        icw1 := 0x13#8
        icw2 := 0x08#8
        icw3 := 0
        icw4 := 0x03#8
        imr := 0
        irr := 0xFF#8
        isr := 0x10#8 }
    slave := readyPic 0x70#8 icw3Slave
    masterMask := 0
    slaveMask := 0 }

/-
  A key is pressed while the handler of the clock runs; its
  interrupt is taken after the handler.
-/
theorem interrupts_reach_handlers_nested :
    let s := Logic.run irqEvent (bootIrqState usedPics)
      [.request rtcIrq, .interrupt, .act,
        .request keyboardIrq, .act, .act]
    s.pics.NoService ∧
      ∃ v pics', s.pics.acknowledge = some (v, pics') := by
  intro s
  have hFlag : s.iflag = true := by decide
  have hRun := interrupts_reach_handlers usedPics
    [.request rtcIrq, .interrupt, .act,
      .request keyboardIrq, .act, .act] hFlag
  exact ⟨hRun.1, hRun.2.1.mpr
    ⟨keyboardIrq, .keyboardEntry, by decide, by decide⟩⟩

end MartianPendulum
