import MartianPendulum.Logic.CallStack
import MartianPendulum.Kernel.Process

/-
  The assembly code between the processor and the handlers
  of the devices.

  The instructions of `interrupt_handler_entries.S` are
  functions on the registers and the stack.  A handler is a
  compiled C function, from its first instruction to its
  `ret`; all that is asked of it is that it comes back with
  its stack as it found it.  Where control is within the
  code is not recorded: `eip` is what the processor saves
  and loads.

  Key definitions include:
    * `Reg`
    * `Cpu.enter`
    * `Cpu.iret`
    * `interruptEntry`
    * `Returned`

  Key theorems include:
    * `iret_of_stacked`
    * `Returned.stacked`
    * `interrupt_transparent`
-/

------------------------------------------------------------
-- Registers
------------------------------------------------------------

namespace MartianPendulum

/- The registers other than `esp`. -/
inductive Reg where
| eax
| ebx
| ecx
| edx
| esi
| edi
| ebp
| ds
| es
| fs
| cs
| ss
| eflags
| eip
deriving DecidableEq

/- Segment registers have 16 bits. -/
abbrev Reg.width : Reg → Nat
| .ds => 16
| .es => 16
| .fs => 16
| .cs => 16
| .ss => 16
| _ => 32

theorem Reg.width_le
    (r : Reg) :
    r.width ≤ 32 := by
  cases r <;> decide

abbrev Registers : Type :=
  (r : Reg) → BitVec r.width

theorem setWidth_setWidth
    (r : Reg)
    (x : BitVec r.width) :
    (x.setWidth 32).setWidth r.width = x := by
  rw [BitVec.setWidth_setWidth_of_le x r.width_le,
    BitVec.setWidth_eq]

/- Registers on the stack take a word each. -/
def registerFile : Logic.RegisterFile Reg Registers where
  read regs r := (regs r).setWidth 32
  write r v regs :=
    Function.update regs r (v.setWidth r.width)
  fits := by
    intro s₀ s r
    rw [Function.update_self, setWidth_setWidth]
  other := by
    intro s r r' v hNe
    rw [Function.update_of_ne hNe]

theorem eq_of_read_eq
    {regs regs' : Registers}
    {r : Reg}
    (hRead : registerFile.read regs r =
      registerFile.read regs' r) :
    regs r = regs' r := by
  have hTrim := congrArg (BitVec.setWidth r.width) hRead
  simp only [registerFile] at hTrim
  rwa [setWidth_setWidth, setWidth_setWidth] at hTrim

abbrev Cpu : Type := Logic.Machine Registers

namespace Cpu

def setReg
    (r : Reg)
    (v : BitVec r.width)
    (m : Cpu) : Cpu :=
  { m with regs := Function.update m.regs r v }

/- Push or pop registers, the first one first. -/
abbrev pushl
    (rs : List Reg)
    (m : Cpu) : Cpu :=
  m.pushAll registerFile rs

abbrev popl
    (rs : List Reg)
    (m : Cpu) : Cpu :=
  m.popAll registerFile rs

/- Push a word that is not in one of these registers. -/
abbrev pushWord
    (v : BitVec 32)
    (m : Cpu) : Cpu :=
  m.push v

/- The current privilege level. -/
def cpl
    (m : Cpu) : Nat :=
  (m.regs .cs).toNat % 4

end Cpu

end MartianPendulum

------------------------------------------------------------
-- The Processor
------------------------------------------------------------

namespace MartianPendulum

namespace Cpu

/- `KERNEL_CS` and `KERNEL_DS` as register values. -/
def kernelCode : BitVec 16 := 0x0010
def kernelData : BitVec 16 := BitVec.ofNat 16 kernelDs

/- The flags that an interrupt gate clears. -/
def gateFlags : BitVec 32 := 0x34300

/-
  The processor passes through an interrupt gate of `idt`.
  From user code it changes to the stack of the TSS and
  saves the user's there.
-/
def enter
    (esp0 offset : BitVec 32)
    (m : Cpu) : Cpu :=
  let onStack :=
    if m.cpl = 0 then m
    else
      let kernel : Cpu :=
        { m.setReg .ss kernelData with esp := esp0 }
      (kernel.pushWord (registerFile.read m.regs .ss)).pushWord
        m.esp
  let saved := onStack.pushl [.eflags, .cs, .eip]
  ((saved.setReg .eflags
    (saved.regs .eflags &&& ~~~gateFlags)).setReg .cs
      kernelCode).setReg .eip offset

/- `iret` takes the user's stack only if it goes there. -/
def iret
    (m : Cpu) : Cpu :=
  let back := m.popl [.eip, .cs, .eflags]
  if m.cpl < back.cpl then
    { back.setReg .ss
        ((back.mem (back.esp + 4)).setWidth 16) with
      esp := back.top }
  else back

def cld
    (m : Cpu) : Cpu :=
  m.setReg .eflags (m.regs .eflags &&& ~~~0x400#32)

/- `call`, up to the return of the function. -/
def call
    (f : Cpu → Cpu)
    (next : BitVec 32)
    (m : Cpu) : Cpu :=
  f (m.pushWord next)

def ret
    (m : Cpu) : Cpu :=
  m.popl [.eip]

end Cpu

end MartianPendulum

------------------------------------------------------------
-- Interrupt Entries
------------------------------------------------------------

namespace MartianPendulum

/- The code before the call of the handler. -/
def interruptSave
    (m : Cpu) : Cpu :=
  (m.pushl [.eax, .ebx, .ecx, .edx, .edi, .esi]).cld

/- The entries of `interrupt_handler_entries.S`. -/
def interruptEntry
    (handler : Cpu → Cpu)
    (next : BitVec 32)
    (m : Cpu) : Cpu :=
  let called := (interruptSave m).call handler next
  (called.popl [.esi, .edi, .edx, .ecx, .ebx, .eax]).iret

def keyboardEntry
    (intKeyboard : Cpu → Cpu) :
    BitVec 32 → Cpu → Cpu :=
  interruptEntry intKeyboard

def rtcEntry
    (intRtc : Cpu → Cpu) :
    BitVec 32 → Cpu → Cpu :=
  interruptEntry intRtc

def pitEntry
    (intPit : Cpu → Cpu) :
    BitVec 32 → Cpu → Cpu :=
  interruptEntry intPit

end MartianPendulum

------------------------------------------------------------
-- Interrupt Frames
------------------------------------------------------------

namespace MartianPendulum

namespace Cpu

/- What the processor saves about the interrupted code. -/
def frame
    (m : Cpu) : List (BitVec 32) :=
  [registerFile.read m.regs .eip,
    registerFile.read m.regs .cs,
    registerFile.read m.regs .eflags] ++
  if m.cpl = 0 then []
  else [m.esp, registerFile.read m.regs .ss]

theorem length_frame
    (m : Cpu) :
    m.frame.length ≤ 5 := by
  unfold frame
  split <;> simp

theorem setReg_self
    (r : Reg)
    (v : BitVec r.width)
    (m : Cpu) :
    (m.setReg r v).regs r = v :=
  Function.update_self _ _ _

theorem setReg_of_ne
    {r r' : Reg}
    (hNe : r' ≠ r)
    (v : BitVec r.width)
    (m : Cpu) :
    (m.setReg r v).regs r' = m.regs r' :=
  Function.update_of_ne hNe _ _

variable (esp0 offset : BitVec 32)
variable (m : Cpu)

theorem stacked_enter :
    Logic.Stacked (m.enter esp0 offset).mem
      (m.enter esp0 offset).esp m.frame := by
  unfold enter frame
  split
  next hKernel =>
      have hNone : Logic.Stacked m.mem m.esp [] := trivial
      exact Logic.stacked_pushAll registerFile
        [.eflags, .cs, .eip] hNone (by simp)
  next hUser =>
      let kernel : Cpu :=
        { m.setReg .ss kernelData with esp := esp0 }
      have hNone :
          Logic.Stacked kernel.mem kernel.esp [] := trivial
      have hSs := Logic.stacked_push hNone (by simp)
        (registerFile.read m.regs .ss)
      have hEsp := Logic.stacked_push hSs (by simp) m.esp
      exact Logic.stacked_pushAll registerFile
        [.eflags, .cs, .eip] hEsp (by simp)

theorem cpl_enter :
    (m.enter esp0 offset).cpl = 0 := by
  have hCs : (m.enter esp0 offset).regs .cs =
      kernelCode := rfl
  rw [cpl, hCs]
  decide

/- The gate changes four registers. -/
theorem enter_regs
    {r : Reg}
    (hr : r ∉ [Reg.eip, .cs, .eflags, .ss]) :
    (m.enter esp0 offset).regs r = m.regs r := by
  simp only [List.mem_cons, List.not_mem_nil, or_false,
    not_or] at hr
  unfold enter
  dsimp only
  rw [setReg_of_ne hr.1, setReg_of_ne hr.2.1,
    setReg_of_ne hr.2.2.1, Logic.Machine.regs_pushAll]
  split
  · rfl
  · exact setReg_of_ne hr.2.2.2 _ _

/- From kernel code the stack is not changed. -/
theorem enter_of_kernel
    (hKernel : m.cpl = 0) :
    (m.enter esp0 offset).esp + 12 = m.esp ∧
      (m.enter esp0 offset).regs .ss = m.regs .ss := by
  unfold enter
  rw [if_pos hKernel]
  refine ⟨?_, rfl⟩
  exact Logic.Machine.esp_pushAll registerFile
    [.eflags, .cs, .eip] m

end Cpu

/-
  `iret` on a saved frame goes back to the interrupted code
  with the remaining registers as they are.
-/
theorem iret_of_stacked
    (m : Cpu)
    {x : Cpu}
    (hCpl : x.cpl = 0)
    (hStacked : Logic.Stacked x.mem x.esp m.frame)
    (hKernel : m.cpl = 0 →
      x.esp + 12 = m.esp ∧ x.regs .ss = m.regs .ss) :
    x.iret =
      { regs := fun r =>
          if r ∈ [Reg.eip, .cs, .eflags, .ss] then m.regs r
          else x.regs r
        esp := m.esp
        mem := x.mem } := by
  have hPops := Logic.popAll_of_stacked registerFile m.regs
    [.eip, .cs, .eflags] hStacked
  rcases hPops with ⟨hRest, hMem, hEsp, hIn, hOut⟩
  have hBack : (x.popl [.eip, .cs, .eflags]).cpl =
      m.cpl := by
    have hCs := eq_of_read_eq (hIn .cs (by simp))
    unfold Cpu.cpl
    rw [hCs]
  have hRegs : ∀ r, r ≠ .ss →
      (x.popl [.eip, .cs, .eflags]).regs r =
        if r ∈ [Reg.eip, .cs, .eflags, .ss] then m.regs r
        else x.regs r := by
    intro r hSs
    by_cases hr : r ∈ [Reg.eip, .cs, .eflags]
    · have hMem : r ∈ [Reg.eip, .cs, .eflags, .ss] :=
        List.mem_append_left [Reg.ss] hr
      rw [if_pos hMem]
      exact eq_of_read_eq (hIn r hr)
    · have hNot : r ∉ [Reg.eip, .cs, .eflags, .ss] := by
        simp only [List.mem_cons, List.not_mem_nil,
          or_false, not_or] at hr ⊢
        exact ⟨hr.1, hr.2.1, hr.2.2, hSs⟩
      rw [if_neg hNot]
      exact eq_of_read_eq (hOut r hr)
  unfold Cpu.iret
  dsimp only
  rw [hBack, hCpl]
  by_cases hLevel : m.cpl = 0
  · rw [hLevel, if_neg (lt_irrefl 0)]
    refine Logic.Machine.ext ?_ ?_ hMem
    · funext r
      by_cases hSs : r = .ss
      · subst hSs
        dsimp only
        rw [if_pos (by decide), ← (hKernel hLevel).2]
        exact eq_of_read_eq (hOut .ss (by simp))
      · exact hRegs r hSs
    · rw [← (hKernel hLevel).1]
      exact hEsp
  · rw [if_pos (Nat.pos_of_ne_zero hLevel)]
    rw [if_neg hLevel] at hRest
    rcases hRest with ⟨hTop, hSsWord, _⟩
    refine Logic.Machine.ext ?_ ?_ hMem
    · funext r
      by_cases hSs : r = .ss
      · subst hSs
        dsimp only
        rw [if_pos (by decide), Cpu.setReg_self, hMem,
          hSsWord]
        exact setWidth_setWidth .ss _
      · dsimp only
        rw [← hRegs r hSs]
        exact Cpu.setReg_of_ne hSs _ _
    · exact (congrFun hMem _).trans hTop

end MartianPendulum

------------------------------------------------------------
-- Device Interrupts
------------------------------------------------------------

namespace MartianPendulum

/-
  A handler comes back to its caller.  Apart from its
  arguments it has left `n` words of the stack alone.
-/
structure Returned
    (args n : Nat)
    (c c' : Cpu) : Prop where
  esp : c'.esp = c.esp + 4
  stack : ∀ i < n,
    c'.mem (c.esp + 4 * BitVec.ofNat 32 (1 + args + i)) =
      c.mem (c.esp + 4 * BitVec.ofNat 32 (1 + args + i))
  cs : c'.regs .cs = c.regs .cs
  ss : c'.regs .ss = c.regs .ss

/- The words above the arguments are still there. -/
theorem Returned.stacked
    {args n : Nat}
    {c c' : Cpu}
    (hBack : Returned args n c c')
    {vs ws : List (BitVec 32)}
    (hStacked : Logic.Stacked c.mem c.esp (vs ++ ws))
    (hArgs : vs.length = 1 + args)
    (hLength : ws.length ≤ n) :
    Logic.Stacked c'.mem
      (c'.esp + 4 * BitVec.ofNat 32 args) ws := by
  rw [Logic.stacked_append, hArgs] at hStacked
  have hAbove : c.esp + 4 * BitVec.ofNat 32 (1 + args) =
      c'.esp + 4 * BitVec.ofNat 32 args := by
    rw [hBack.esp, Logic.word_succ, Nat.add_comm]
  rw [← hAbove]
  refine hStacked.2.congr ?_
  intro i hi
  have hWord := hBack.stack i (by omega)
  have hSum : c.esp + 4 * BitVec.ofNat 32 (1 + args) +
      4 * BitVec.ofNat 32 i =
        c.esp + 4 * BitVec.ofNat 32 (1 + args + i) := by
    rw [BitVec.add_assoc, ← BitVec.mul_add,
      ← BitVec.ofNat_add]
  rw [hSum]
  exact hWord

/- A handler that uses `eax` and `ebx` and returns 7. -/
def sampleHandler
    (c : Cpu) : Cpu :=
  { (c.setReg .ebx 0).setReg .eax 7 with esp := c.esp + 4 }

theorem returned_sampleHandler
    (args n : Nat)
    (c : Cpu) :
    Returned args n c (sampleHandler c) :=
  ⟨rfl, fun _ _ => rfl, rfl, rfl⟩

/- A user program whose memory holds addresses. -/
def sampleUser : Cpu :=
  { regs := fun r =>
      match r with
      | .cs => 0x23
      | .ds => 0x2B
      | .ss => 0x2B
      | .eax => 3
      | .ebx => 391
      | _ => 0
    esp := 0x83FFF00
    mem := fun a => a }

/- The registers that the entries save. -/
def interruptSaved : List Reg :=
  [.esi, .edi, .edx, .ecx, .ebx, .eax]

/- The state in which the handler is called. -/
def interruptCalled
    (next : BitVec 32)
    (m : Cpu) : Cpu :=
  (interruptSave m).pushWord next

section

variable (next : BitVec 32)
variable (k : Cpu)

theorem interruptCalled_regs
    {r : Reg}
    (hr : r ≠ .eflags) :
    (interruptCalled next k).regs r = k.regs r := by
  unfold interruptCalled interruptSave Cpu.cld
  refine (Cpu.setReg_of_ne hr _ _).trans ?_
  rw [Logic.Machine.regs_pushAll]

theorem interruptCalled_esp :
    (interruptCalled next k).esp + 4 +
        4 * BitVec.ofNat 32 interruptSaved.length =
      k.esp := by
  have hSave := Logic.Machine.esp_pushAll registerFile
    [.eax, .ebx, .ecx, .edx, .edi, .esi] k
  have hCall : (interruptCalled next k).esp + 4 =
      (k.pushl [.eax, .ebx, .ecx, .edx, .edi, .esi]).esp :=
    BitVec.sub_add_cancel _ 4
  rw [hCall]
  exact hSave

theorem stacked_interruptCalled
    {vs : List (BitVec 32)}
    (hStacked : Logic.Stacked k.mem k.esp vs)
    (hLength : vs.length ≤ 5) :
    Logic.Stacked (interruptCalled next k).mem
      (interruptCalled next k).esp
      ([next] ++ (interruptSaved.map
        (registerFile.read k.regs) ++ vs)) := by
  have hSaved := Logic.stacked_pushAll registerFile
    [.eax, .ebx, .ecx, .edx, .edi, .esi] hStacked (by
      simp only [List.length_cons, List.length_nil]
      omega)
  refine Logic.stacked_push hSaved ?_ next
  simp only [List.length_append, List.length_map,
    List.length_reverse, List.length_cons, List.length_nil]
  omega

end

/-
  An interrupt does not disturb the code it interrupts, be
  it a user program or the kernel: it continues with every
  register, its flags and its stack pointer as they were.
  The handler may use the registers that the entry saves; it
  must leave `ebp`, `ds`, `es` and `fs` as they were.  Copies
  of the library load `es` with `ds`.
-/
theorem interrupt_transparent
    (m : Cpu)
    (esp0 offset next : BitVec 32)
    (handler : Cpu → Cpu)
    (c : Cpu)
    (hCalled :
      c = interruptCalled next (m.enter esp0 offset))
    (hReturned : Returned 0 11 c (handler c))
    (hKept : ∀ r ∈ [Reg.ebp, .ds, .es, .fs],
      (handler c).regs r = c.regs r) :
    interruptEntry handler next (m.enter esp0 offset) =
      { m with mem := (handler c).mem } := by
  have hFrame := m.length_frame
  have hStacked := stacked_interruptCalled next
    (m.enter esp0 offset) (m.stacked_enter esp0 offset)
    hFrame
  have hCalledRegs : ∀ {r}, r ≠ Reg.eflags →
      c.regs r = (m.enter esp0 offset).regs r := by
    intro r hr
    rw [hCalled]
    exact interruptCalled_regs next _ hr
  have hCalledEsp := interruptCalled_esp next
    (m.enter esp0 offset)
  rw [← hCalled] at hStacked hCalledEsp
  have hThere := hReturned.stacked hStacked rfl (by
    simp only [List.length_append, List.length_map,
      interruptSaved, List.length_cons, List.length_nil]
    omega)
  have hNoArgs : (handler c).esp + 4 * BitVec.ofNat 32 0 =
      (handler c).esp := by
    simp
  rw [hNoArgs] at hThere
  rcases Logic.popAll_of_stacked registerFile
      (m.enter esp0 offset).regs interruptSaved hThere with
    ⟨hRest, hMem, hEsp, hIn, hOut⟩
  have hOut' : ∀ r ∉ interruptSaved,
      ((handler c).popl interruptSaved).regs r =
        (handler c).regs r :=
    fun r hr => eq_of_read_eq (hOut r hr)
  have hEntry : interruptEntry handler next
      (m.enter esp0 offset) =
        ((handler c).popl interruptSaved).iret := by
    rw [hCalled]
    rfl
  rw [← hMem] at hRest
  rw [hEntry, iret_of_stacked m ?_ hRest ?_]
  · refine Logic.Machine.ext ?_ rfl hMem
    funext r
    by_cases hFrameReg :
        r ∈ [Reg.eip, .cs, .eflags, .ss]
    · exact if_pos hFrameReg
    · refine (if_neg hFrameReg).trans ?_
      have hUser := m.enter_regs esp0 offset hFrameReg
      by_cases hSaved : r ∈ interruptSaved
      · exact (eq_of_read_eq (hIn r hSaved)).trans hUser
      · have hOther : r ∈ [Reg.ebp, .ds, .es, .fs] := by
          revert hFrameReg hSaved
          cases r <;> decide
        have hFlags : r ≠ .eflags := by
          rintro rfl
          exact hFrameReg (by decide)
        rw [hOut' r hSaved, hKept r hOther,
          hCalledRegs hFlags, hUser]
  · unfold Cpu.cpl
    rw [hOut' .cs (by decide), hReturned.cs,
      hCalledRegs (by decide)]
    exact m.cpl_enter esp0 offset
  · intro hKernel
    rcases m.enter_of_kernel esp0 offset hKernel with
      ⟨hEspKernel, hSsKernel⟩
    refine ⟨?_, ?_⟩
    · rw [hEsp, hReturned.esp, hCalledEsp]
      exact hEspKernel
    · rw [hOut' .ss (by decide), hReturned.ss,
        hCalledRegs (by decide)]
      exact hSsKernel

theorem interrupt_transparent_sample :
    (interruptEntry sampleHandler 0x400010
      (sampleUser.enter 0x7FFFFC 0x400000)).regs =
        sampleUser.regs := by
  have hKept : ∀ c : Cpu, ∀ r ∈ [Reg.ebp, .ds, .es, .fs],
      (sampleHandler c).regs r = c.regs r := by
    intro c r hr
    simp only [List.mem_cons, List.not_mem_nil,
      or_false] at hr
    rcases hr with rfl | rfl | rfl | rfl <;> rfl
  rw [interrupt_transparent sampleUser 0x7FFFFC 0x400000
    0x400010 sampleHandler _ rfl
    (returned_sampleHandler 0 11 _) (hKept _)]

end MartianPendulum
