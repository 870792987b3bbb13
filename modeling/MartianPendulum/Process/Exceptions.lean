import MartianPendulum.Lib.Printf
import MartianPendulum.Kernel.Idt
import MartianPendulum.Process.ContextSwitch

/-
  The exceptions of processes.

  Every handler of `exception_handler.c` prints a message and
  calls `syscall_halt(0xFF)`.  The process that raised the
  exception is gone after it, its parent continues with 256,
  and every other process is as it was.

  Key definitions include:
    * `Kernel.excp`
    * `Kernel.exceptionHandler`

  Key theorems include:
    * `exceptionHandler_transition`
    * `halt_transition`
    * `exception_ends_only_its_process`
-/

------------------------------------------------------------
-- Handlers
------------------------------------------------------------

namespace MartianPendulum

/- The line with the address that `cr2` holds. -/
def pageFaultLine
    (pageFaultAddr : UInt32) : List UInt8 :=
  render
    { word := fun _ => pageFaultAddr
      string := fun _ _ => 0
      convBuf := fun _ _ => 0 }
    .text 0 (text "page fault address is: %x\n")

namespace Kernel

variable (fs : FileSystem)
variable (frame : CallFrame)
variable (k : Kernel)

/- A handler of `exception_handler.c` with its message. -/
def excp
    (message : String) : Outcome × Kernel :=
  (k.printf message).syscallHalt fs frame 0xFF

def excpDivisionError : Outcome × Kernel :=
  k.excp fs frame "division error occured!\n"

def excpSingleStepInterrupt : Outcome × Kernel :=
  k.excp fs frame "single_step_interrupt occured!\n"

def excpNMI : Outcome × Kernel :=
  k.excp fs frame "NMI occured!\n"

def excpBreakpoint : Outcome × Kernel :=
  k.excp fs frame "breakpoint occured!\n"

def excpOverflow : Outcome × Kernel :=
  k.excp fs frame "overflow occured!\n"

def excpBoundRangeExceeded : Outcome × Kernel :=
  k.excp fs frame "bound_range_exceeded occured!\n"

def excpInvalidOpcode : Outcome × Kernel :=
  k.excp fs frame "invalid_opcode occured!\n"

def excpCoprocessorNotAvailable : Outcome × Kernel :=
  k.excp fs frame "coprocessor_not_available occured!\n"

def excpDoubleFault : Outcome × Kernel :=
  k.excp fs frame "double_fault occured!\n"

def excpCoprocessorSegmentOverrun : Outcome × Kernel :=
  k.excp fs frame "coprocessor_segment_overrun occured!\n"

def excpInvalidTaskStateSegment : Outcome × Kernel :=
  k.excp fs frame "invalid_task_state_segment occured!\n"

def excpSegmentNotPresent : Outcome × Kernel :=
  k.excp fs frame "segment_not_present occured!\n"

def excpStackSegmentFault : Outcome × Kernel :=
  k.excp fs frame "stack_segment_fault occured!\n"

def excpGeneralProtectionFault : Outcome × Kernel :=
  k.excp fs frame "general_protection_fault occured!\n"

/- This handler prints the address that was accessed. -/
def excpPageFault
    (pageFaultAddr : UInt32) : Outcome × Kernel :=
  (k.setDisplay (fun g d =>
    d.putBytes g (pageFaultLine pageFaultAddr))).excp fs frame
      "page_fault occured!\n"

def excpX87FloatingPointException : Outcome × Kernel :=
  k.excp fs frame "x87_floating_point_exception occured!\n"

def excpAlignmentCheck : Outcome × Kernel :=
  k.excp fs frame "alignment_check occured!\n"

def excpMachineCheck : Outcome × Kernel :=
  k.excp fs frame "machine_check occured!\n"

def excpSIMDFloatingPointException : Outcome × Kernel :=
  k.excp fs frame
    "SIMD_floating_point_exception occured!\n"

def excpVirtualizationException : Outcome × Kernel :=
  k.excp fs frame "virtualization_exception occured!\n"

def excpControlProtectionException : Outcome × Kernel :=
  k.excp fs frame
    "control_protection_exception occured!\n"

/- The handler that the entry of an exception calls. -/
def exceptionHandler
    (cr2 : UInt32) :
    Exception → Outcome × Kernel
| .divisionError => k.excpDivisionError fs frame
| .singleStepInterrupt => k.excpSingleStepInterrupt fs frame
| .nmi => k.excpNMI fs frame
| .breakpoint => k.excpBreakpoint fs frame
| .overflow => k.excpOverflow fs frame
| .boundRangeExceeded => k.excpBoundRangeExceeded fs frame
| .invalidOpcode => k.excpInvalidOpcode fs frame
| .coprocessorNotAvailable =>
    k.excpCoprocessorNotAvailable fs frame
| .doubleFault => k.excpDoubleFault fs frame
| .coprocessorSegmentOverrun =>
    k.excpCoprocessorSegmentOverrun fs frame
| .invalidTaskStateSegment =>
    k.excpInvalidTaskStateSegment fs frame
| .segmentNotPresent => k.excpSegmentNotPresent fs frame
| .stackSegmentFault => k.excpStackSegmentFault fs frame
| .generalProtectionFault =>
    k.excpGeneralProtectionFault fs frame
| .pageFault => k.excpPageFault fs frame cr2
| .x87FloatingPointException =>
    k.excpX87FloatingPointException fs frame
| .alignmentCheck => k.excpAlignmentCheck fs frame
| .machineCheck => k.excpMachineCheck fs frame
| .simdFloatingPointException =>
    k.excpSIMDFloatingPointException fs frame
| .virtualizationException =>
    k.excpVirtualizationException fs frame
| .controlProtectionException =>
    k.excpControlProtectionException fs frame

/- Messages do not reach the process table. -/
theorem excp_transition
    (message : String) :
    Transition fs k.toControl (.halt frame 0xFF)
      (k.excp fs frame message).1
      (k.excp fs frame message).2.toControl :=
  (k.printf message).step_transition fs (.halt frame 0xFF)

/- Every handler halts the process with 0xFF. -/
theorem exceptionHandler_transition
    (cr2 : UInt32)
    (e : Exception) :
    Transition fs k.toControl (.halt frame 0xFF)
      (k.exceptionHandler fs frame cr2 e).1
      (k.exceptionHandler fs frame cr2 e).2.toControl := by
  cases e with
  | pageFault =>
      exact excp_transition fs frame
        (k.setDisplay (fun g d =>
          d.putBytes g (pageFaultLine cr2))) _
  | _ => exact excp_transition fs frame k _

end Kernel

end MartianPendulum

------------------------------------------------------------
-- What a Halt Does
------------------------------------------------------------

namespace MartianPendulum

variable {fs : FileSystem}
variable {g g' : Control}
variable {o : Outcome}
variable {creator : Int → Option Call}

/- A pid keeps its entry in the bitmap, and its PCB. -/
def SamePid
    (g g' : Control)
    (q : Int) : Prop :=
  g'.pcbBitmap q = g.pcbBitmap q ∧ g'.pcbOf q = g.pcbOf q

/-
  Where a process that halts leaves the processor, and what
  happens to the other pids: a new base shell gets the pid
  of the old one or one that was free.
-/
structure Halted
    (creator : Int → Option Call)
    (g : Control)
    (status : UInt8)
    (o : Outcome)
    (g' : Control) : Prop where
  toParent : g.parentOf g.curPid ≠ -1 →
    ∃ call,
      creator g.curPid = some call ∧
      call.caller = g.parentOf g.curPid ∧
      o = .restored call.regs
        (if status = 255 then 256 else status.toNat) ∧
      g'.curPid = g.parentOf g.curPid ∧
      g'.pcbBitmap g.curPid = 0 ∧
      ∀ q ∈ pids, q ≠ g.curPid → SamePid g g' q
  toShell : g.parentOf g.curPid = -1 →
    ∃ n ∈ pids, ∃ eip,
      o = .started n eip ∧
      g'.curPid = n ∧
      g'.parentOf n = -1 ∧
      (n ≠ g.curPid → g.pcbBitmap n = 0) ∧
      ∀ q ∈ pids, q ≠ g.curPid → q ≠ n → SamePid g g' q

/- A process that halts writes its own PCB only. -/
theorem samePid_haltToParent
    {stack : Tid → List Int}
    (hProc : Processes g stack)
    (hCur : g.curPid ≠ -1)
    (hParent : g.released.cur.parentPid ≠ -1)
    (status : UInt8)
    {q : Int}
    (hOther : q ≠ g.curPid) :
    SamePid g (g.released.haltToParent status).2 q := by
  have hPtr : getPcbPtr q ≠ g.curPcbPtr := by
    rw [hProc.curPcb hCur]
    exact getPcbPtr_injective.ne hOther
  rw [Control.haltToParent_eq hParent, g.released_eq]
  constructor
  · exact Function.update_of_ne hOther _ _
  · simp only [Control.pcbOf]
    rw [Function.update_of_ne hPtr]

/- A new base shell writes the PCB that it gets. -/
theorem samePid_restart
    {n : Int}
    (args : Ptr)
    (regs : Regs)
    {q : Int}
    (hq : q ∈ pids)
    (hOther : q ≠ g.curPid)
    (hNew : q ≠ n) :
    SamePid g (g.orphaned.spawn n args regs) q := by
  constructor
  · rw [Control.spawn_eq]
    unfold Control.orphaned
    rw [g.released_eq]
    simp only [Function.update_of_ne hNew,
      Function.update_of_ne hOther]
  · exact (Control.spawn_pcbOf (fun hNone => absurd rfl hNone)
      n args regs hNew (ne_neg_one_of_mem_pids hq)).trans
        (released_pcbOf g q)

/- The pid of a new base shell. -/
theorem orphaned_free
    {n : Int}
    (hFree : g.orphaned.freePid = some n)
    (hNe : n ≠ g.curPid) :
    g.pcbBitmap n = 0 := by
  have hZero := Control.freePid_bitmap hFree
  unfold Control.orphaned at hZero
  rw [g.released_eq] at hZero
  simpa only [Function.update_of_ne hNe] using hZero

theorem halt_transition
    (hShell : Loadable fs shellName)
    (hSettled : Settled g)
    (hSaved : Saved g creator)
    {frame : CallFrame}
    {status : UInt8}
    (hStep : Transition fs g (.halt frame status) o g') :
    Halted creator g status o g' := by
  have hCur := hSettled.curPid_ne
  rcases hSettled.scheduled with ⟨stack, hProc, hStack⟩
  have hPid := hProc.released_parentPid hCur
  cases hStep with
  | idle _ _ hIdle => cases hIdle
  | ret _ _ hReturns =>
      have hParent := hReturns
      rw [hPid] at hParent
      refine ⟨?_, fun hNone => absurd hNone hParent⟩
      intro _
      rcases hSaved g.curPid (hProc.cur_live hCur)
          hParent with
        ⟨call, hCreator, hCaller, hEsp, hEbp⟩
      refine ⟨call, hCreator, hCaller, ?_, ?_, ?_,
        fun q _ hOther => samePid_haltToParent hProc hCur
          hReturns status hOther⟩
      · have hRegs : call.regs =
            { esp := (g.pcbOf (g.parentOf g.curPid)).esp
              ebp := (g.pcbOf (g.parentOf g.curPid)).ebp } := by
          rw [hEsp, hEbp]
        rw [Control.haltToParent_outcome hReturns, hPid,
          g.released_eq, hRegs]
        rfl
      · rw [Control.haltToParent_eq hReturns, hPid]
      · rw [Control.haltToParent_eq hReturns, g.released_eq]
        exact Function.update_self _ _ _
  | restart _ _ n args eip hParent hFree =>
      rw [hPid] at hParent
      refine ⟨fun hNot => absurd hParent hNot, ?_⟩
      intro _
      refine ⟨n, Control.freePid_mem hFree, eip, rfl, ?_, ?_,
        orphaned_free hFree,
        fun q hq hOther hNew =>
          samePid_restart args _ hq hOther hNew⟩
      · rw [Control.spawn_eq]
      · rw [Control.spawn_parentOf, if_pos rfl]
        rfl
  | stuck _ _ hParent hFail =>
      exact absurd (hFail hShell)
        (hProc.orphaned_freePid hCur)

/- The other processes do not notice a halt. -/
theorem Halted.samePid
    {status : UInt8}
    (hHalted : Halted creator g status o g')
    {q : Int}
    (hLive : g.live q)
    (hOther : q ≠ g.curPid) :
    SamePid g g' q := by
  by_cases hParent : g.parentOf g.curPid = -1
  · rcases hHalted.toShell hParent with
      ⟨n, _, _, _, _, _, hFree, hSame⟩
    apply hSame q hLive.1 hOther
    rintro rfl
    have hOne := hLive.2
    rw [hFree hOther] at hOne
    cases hOne
  · rcases hHalted.toParent hParent with
      ⟨_, _, _, _, _, _, hSame⟩
    exact hSame q hLive.1 hOther

end MartianPendulum

------------------------------------------------------------
-- Exceptions
------------------------------------------------------------

namespace MartianPendulum

/-
  Whatever exception a process raises, only this process
  ends.  Its parent continues after the call that created
  it, with the registers that this call saved and with 256;
  a base shell is replaced by a new one.  Every other
  process, running or suspended, keeps its entry in the
  bitmap and its PCB, the other terminals keep their
  processes, and the process table stays well formed.
-/
theorem exception_ends_only_its_process
    (fs : FileSystem)
    (hShell : Loadable fs shellName)
    (k : Kernel)
    (hStart : Launched fs k)
    (es : List Event)
    (s : Traced)
    (hRun : s = Logic.run (traceStep fs)
      { kernel := k, creator := fun _ => none } es)
    (e : Exception)
    (cr2 : UInt32)
    (frame : CallFrame)
    (o : Outcome)
    (k' : Kernel)
    (hRaised :
      s.kernel.exceptionHandler fs frame cr2 e = (o, k')) :
    Halted s.creator s.kernel.toControl 255 o k'.toControl ∧
      TableInvariant k'.toControl ∧
      (∀ q, s.kernel.live q → q ≠ s.kernel.curPid →
        SamePid s.kernel.toControl k'.toControl q) ∧
      k'.runningTermPtr = s.kernel.runningTermPtr ∧
      ∀ t, t ≠ s.kernel.runningTermPtr →
        k'.active t = s.kernel.active t ∧
        k'.pcbOf (k'.active t) =
          s.kernel.pcbOf (s.kernel.active t) := by
  rcases saved_run hShell hStart es s hRun with
    ⟨hSettled, hSaved⟩
  have hStep := s.kernel.exceptionHandler_transition fs
    frame cr2 e
  rw [hRaised] at hStep
  have hHalted := halt_transition hShell hSettled hSaved hStep
  refine ⟨hHalted,
    (hSettled.transition hShell hStep).tableInvariant,
    fun q hLive hOther => hHalted.samePid hLive hOther,
    hStep.running_of_not_tick rfl, ?_⟩
  intro t hOther
  have hWait : Suspended s.kernel.toControl t
      (s.kernel.active t)
      (s.kernel.pcbOf (s.kernel.active t)) :=
    ⟨hOther, rfl, rfl⟩
  have hNot : ¬ Selects s.kernel.toControl t
      (.halt frame 0xFF) := by
    rintro ⟨hTick, _⟩
    cases hTick
  have hStill := hWait.transition hShell hSettled hStep hNot
  refine ⟨hStill.active, ?_⟩
  rw [hStill.active]
  exact hStill.pcb

/- A call to `syscall_execute` with this stack. -/
def callerFrame : CallFrame :=
  { blankFrame with esp := 391, ebp := 392 }

/- The third base shell has executed a shell. -/
def shellInShell : Traced :=
  Logic.run (traceStep sampleFs)
    { kernel := threeShells, creator := fun _ => none }
    [.execute callerFrame (some shellLiteral.ptr)]

theorem shellInShell_live
    {q : Int}
    (hLow : 0 ≤ q)
    (hHigh : q ≤ 2) :
    shellInShell.kernel.live q := by
  have hCases : q = 0 ∨ q = 1 ∨ q = 2 := by omega
  rcases hCases with rfl | rfl | rfl
  · exact ⟨by decide, by decide +kernel⟩
  · exact ⟨by decide, by decide +kernel⟩
  · exact ⟨by decide, by decide +kernel⟩

/-
  The inner shell has a page fault: the base shell goes on
  behind its call with 256, and the base shells stay as they
  are.
-/
theorem exception_ends_only_its_process_child :
    let g := shellInShell.kernel
    let raised := g.exceptionHandler sampleFs blankFrame
      0xB8000 .pageFault
    raised.1 = .restored { esp := 391, ebp := 392 } 256 ∧
      raised.2.curPid = 2 ∧
      TableInvariant raised.2.toControl ∧
      ∀ q, 0 ≤ q → q ≤ 2 →
        SamePid g.toControl raised.2.toControl q := by
  intro g raised
  have hCur : shellInShell.kernel.curPid = 3 := by
    decide +kernel
  have hUp : shellInShell.kernel.parentOf 3 = 2 := by
    decide +kernel
  have hRegs : (shellInShell.creator 3).map
      (fun call => (call.regs.esp, call.regs.ebp)) =
        some (391, 392) := by
    decide +kernel
  rcases exception_ends_only_its_process sampleFs
      sampleFs_loadable threeShells threeShells_launched
      [.execute callerFrame (some shellLiteral.ptr)]
      shellInShell rfl .pageFault 0xB8000 blankFrame
      raised.1 raised.2 rfl with
    ⟨hHalted, hTable, hSame, -⟩
  rw [hCur] at hSame
  rcases hHalted.toParent (by rw [hCur, hUp]; decide) with
    ⟨⟨caller, ⟨esp, ebp⟩⟩, hCreator, _, hBack, hParent, -⟩
  rw [hCur] at hCreator hParent
  rw [hCreator] at hRegs
  cases hRegs
  refine ⟨hBack, hParent.trans hUp, hTable, ?_⟩
  intro q hLow hHigh
  exact hSame q (shellInShell_live hLow hHigh) (by omega)

end MartianPendulum
