import MartianPendulum.Kernel.System
import MartianPendulum.Kernel.Entry

/-
  System calls, from the C function that a program calls to
  the handler in the kernel and back.

  `ece391syscall.S` moves the arguments from the stack to
  registers, and `syscall_handler_entry.S` moves them to the
  stack of the kernel.  Both save what the handler may use.

  Key definitions include:
    * `syscallEntry`
    * `sysNumber`
    * `ece391Call`

  Key theorems include:
    * `stacked_syscallCalled`
    * `syscallEntry_sysNumber`
    * `syscall_entry_calls_handler`
    * `ece391_call_calls_handler`
-/

------------------------------------------------------------
-- System Call Entry
------------------------------------------------------------

namespace MartianPendulum

inductive Syscall where
| halt
| execute
| read
| write
| open
| close
| getargs
| vidmap
| sethandler
| sigreturn
deriving DecidableEq

/- `syscall_jump_table` -/
def syscallJumpTable : List Syscall :=
  [.halt, .execute, .read, .write, .open, .close,
    .getargs, .vidmap, .sethandler, .sigreturn]

/- `MAX_SYSCALL_IDX` -/
def maxSyscallIdx : Int := 10

/- The code between the checks and the call. -/
def syscallSave
    (m : Cpu) : Cpu :=
  let m := m.pushl
    [.fs, .es, .ds, .ebx, .ecx, .edx, .ebp, .edi, .esi]
  let m := m.pushWord m.esp
  let m := m.setReg .cs Cpu.kernelCode
  let m := m.setReg .edi
    (m.regs .edi &&& 0xFFFF0000#32 |||
      Cpu.kernelData.setWidth 32)
  let m := m.setReg .ds ((m.regs .edi).setWidth 16)
  m.pushl [.edx, .ecx, .ebx]

/- The code from `finish` on. -/
def syscallFinish
    (m : Cpu) : Cpu :=
  let m : Cpu := { m with esp := m.top }
  (m.popl
    [.esi, .edi, .ebp, .edx, .ecx, .ebx, .ds, .es,
      .fs]).iret

/- `call *syscall_jump_table-4(,%eax,4)` -/
def syscallTarget
    (handler : Syscall → Cpu → Cpu)
    (m : Cpu) : Cpu → Cpu :=
  match syscallJumpTable[(m.regs .eax).toNat - 1]? with
  | some s => handler s
  | none => id

def syscallEntry
    (handler : Syscall → Cpu → Cpu)
    (next : BitVec 32)
    (m : Cpu) : Cpu :=
  if (m.regs .eax).toInt ≤ 0 then
    (m.setReg .eax (-1)).iret
  else if maxSyscallIdx < (m.regs .eax).toInt then
    (m.setReg .eax (-1)).iret
  else
    let called :=
      (syscallSave m).call (syscallTarget handler m) next
    syscallFinish { called with esp := called.esp + 12 }

/- The numbers of `ece391sysnum.h`. -/
def sysNumber : Syscall → BitVec 32
| .halt => 1
| .execute => 2
| .read => 3
| .write => 4
| .open => 5
| .close => 6
| .getargs => 7
| .vidmap => 8
| .sethandler => 9
| .sigreturn => 10

/- `DO_CALL` up to the `INT` instruction -/
def ece391Load
    (number : BitVec 32)
    (m : Cpu) : Cpu :=
  let m := m.pushl [.ebx]
  let m := m.setReg .eax number
  let m := m.setReg .ebx (m.mem (m.esp + 8))
  let m := m.setReg .ecx (m.mem (m.esp + 12))
  m.setReg .edx (m.mem (m.esp + 16))

/- `DO_CALL` -/
def ece391Call
    (number : BitVec 32)
    (int80 : Cpu → Cpu)
    (m : Cpu) : Cpu :=
  let m := int80 (ece391Load number m)
  let m := m.popl [.ebx]
  m.ret

end MartianPendulum

------------------------------------------------------------
-- System Calls
------------------------------------------------------------

namespace MartianPendulum

/- The registers that the entry saves. -/
def syscallSaved : List Reg :=
  [.esi, .edi, .ebp, .edx, .ecx, .ebx, .ds, .es, .fs]

/- The state in which the handler is called. -/
def syscallCalled
    (next : BitVec 32)
    (m : Cpu) : Cpu :=
  (syscallSave m).pushWord next

section

variable (next : BitVec 32)
variable (k : Cpu)

/- The stack pointer that the entry saves. -/
def savedEsp : BitVec 32 :=
  (k.pushl
    [.fs, .es, .ds, .ebx, .ecx, .edx, .ebp, .edi, .esi]).esp

theorem savedEsp_add :
    savedEsp k + 4 * BitVec.ofNat 32 syscallSaved.length =
      k.esp :=
  Logic.Machine.esp_pushAll registerFile
    [.fs, .es, .ds, .ebx, .ecx, .edx, .ebp, .edi, .esi] k

/- The handler runs in the segments of the kernel. -/
theorem syscallCalled_regs
    (r : Reg) :
    (syscallCalled next k).regs r =
      match r with
      | .cs => Cpu.kernelCode
      | .ds => Cpu.kernelData
      | .edi =>
          k.regs .edi &&& 0xFFFF0000#32 |||
            Cpu.kernelData.setWidth 32
      | r => k.regs r := by
  have hData : ∀ edi : BitVec 32,
      (edi &&& 0xFFFF0000#32 |||
        Cpu.kernelData.setWidth 32).setWidth 16 =
          Cpu.kernelData := by
    intro edi
    have hLow : (0xFFFF0000#32).setWidth 16 = 0#16 := by
      decide
    rw [BitVec.setWidth_or, BitVec.setWidth_and, hLow,
      BitVec.and_zero, BitVec.zero_or]
    decide
  cases r with
  | ds => exact hData _
  | _ => rfl

theorem syscallCalled_esp :
    (syscallCalled next k).esp + 4 +
        4 * BitVec.ofNat 32 4 = savedEsp k := by
  simp only [syscallCalled, syscallSave, savedEsp,
    Cpu.pushWord, Logic.Machine.push,
    Logic.Machine.pushAll, Logic.Machine.pushReg,
    List.foldl_cons, List.foldl_nil, Cpu.setReg]
  bv_omega

/- The stack when the handler is called. -/
theorem stacked_syscallCalled
    {vs : List (BitVec 32)}
    (hStacked : Logic.Stacked k.mem k.esp vs)
    (hLength : vs.length ≤ 5) :
    Logic.Stacked (syscallCalled next k).mem
      (syscallCalled next k).esp
      ([next, k.regs .ebx, k.regs .ecx, k.regs .edx] ++
        (savedEsp k ::
          (syscallSaved.map
            (registerFile.read k.regs) ++ vs))) := by
  have hSaved := Logic.stacked_pushAll registerFile
    [.fs, .es, .ds, .ebx, .ecx, .edx, .ebp, .edi, .esi]
    hStacked (by
      simp only [List.length_cons, List.length_nil]
      omega)
  have hEsp := Logic.stacked_push hSaved (by
    simp only [List.length_append, List.length_map,
      List.length_reverse, List.length_cons,
      List.length_nil]
    omega) (savedEsp k)
  have hArgs : Logic.Stacked (syscallSave k).mem
      (syscallSave k).esp
      ([.ebx, .ecx, .edx].map (registerFile.read k.regs) ++
        (savedEsp k ::
          (syscallSaved.map
            (registerFile.read k.regs) ++ vs))) := by
    refine Logic.stacked_pushAll registerFile
      [.edx, .ecx, .ebx] hEsp ?_
    simp only [List.length_append, List.length_map,
      syscallSaved, List.length_cons, List.length_nil]
    omega
  have hNext := Logic.stacked_push hArgs (by
    simp only [List.length_append, List.length_map,
      syscallSaved, List.length_cons, List.length_nil]
    omega) next
  have hWords : [.ebx, .ecx, .edx].map
      (registerFile.read k.regs) =
        [k.regs .ebx, k.regs .ecx, k.regs .edx] := by
    simp only [List.map_cons, List.map_nil, registerFile,
      BitVec.setWidth_eq]
  rw [hWords] at hNext
  exact hNext

end

/- The word that names a call in the jump table. -/
theorem syscallTarget_sysNumber
    (handler : Syscall → Cpu → Cpu)
    {m : Cpu}
    {s : Syscall}
    (hNumber : m.regs .eax = sysNumber s) :
    syscallTarget handler m = handler s := by
  unfold syscallTarget
  rw [hNumber]
  cases s <;> rfl

/- The checks let through the numbers of the header. -/
theorem sysNumber_iff
    (eax : BitVec 32) :
    (¬ eax.toInt ≤ 0 ∧ ¬ maxSyscallIdx < eax.toInt) ↔
      ∃ s, eax = sysNumber s := by
  constructor
  · rintro ⟨hLow, hHigh⟩
    unfold maxSyscallIdx at hHigh
    have hEax : eax = BitVec.ofInt 32 eax.toInt := by simp
    generalize eax.toInt = n at *
    have hCases : n = 1 ∨ n = 2 ∨ n = 3 ∨ n = 4 ∨ n = 5 ∨
        n = 6 ∨ n = 7 ∨ n = 8 ∨ n = 9 ∨ n = 10 := by
      omega
    rw [hEax]
    rcases hCases with rfl | rfl | rfl | rfl | rfl | rfl |
      rfl | rfl | rfl | rfl
    · exact ⟨.halt, rfl⟩
    · exact ⟨.execute, rfl⟩
    · exact ⟨.read, rfl⟩
    · exact ⟨.write, rfl⟩
    · exact ⟨.open, rfl⟩
    · exact ⟨.close, rfl⟩
    · exact ⟨.getargs, rfl⟩
    · exact ⟨.vidmap, rfl⟩
    · exact ⟨.sethandler, rfl⟩
    · exact ⟨.sigreturn, rfl⟩
  · rintro ⟨s, rfl⟩
    cases s <;> decide

/- `bad_code` returns -1 and nothing else. -/
theorem syscallEntry_bad_code
    (handler : Syscall → Cpu → Cpu)
    (m : Cpu)
    (esp0 offset next : BitVec 32)
    (hBad : ∀ s, m.regs .eax ≠ sysNumber s) :
    syscallEntry handler next (m.enter esp0 offset) =
      { m with
        regs := Function.update m.regs .eax (-1)
        mem := (m.enter esp0 offset).mem } := by
  have hEax := m.enter_regs esp0 offset
    (show Reg.eax ∉ [Reg.eip, .cs, .eflags, .ss] by decide)
  have hBranch : syscallEntry handler next
      (m.enter esp0 offset) =
        ((m.enter esp0 offset).setReg .eax (-1)).iret := by
    unfold syscallEntry
    rw [hEax]
    split
    · rfl
    next hLow =>
        rw [if_pos]
        by_contra hHigh
        rcases (sysNumber_iff _).mp ⟨hLow, hHigh⟩ with
          ⟨s, hs⟩
        exact hBad s hs
  rw [hBranch, iret_of_stacked m]
  · refine Logic.Machine.ext ?_ rfl rfl
    funext r
    by_cases hr : r = .eax
    · subst hr
      dsimp only
      rw [if_neg (by decide), Cpu.setReg_self,
        Function.update_self]
    · dsimp only
      rw [Cpu.setReg_of_ne hr, Function.update_of_ne hr]
      by_cases hFrame : r ∈ [Reg.eip, .cs, .eflags, .ss]
      · exact if_pos hFrame
      · exact (if_neg hFrame).trans
          (m.enter_regs esp0 offset hFrame)
  · exact m.cpl_enter esp0 offset
  · exact m.stacked_enter esp0 offset
  · exact m.enter_of_kernel esp0 offset

end MartianPendulum

------------------------------------------------------------
-- Calls of a Handler
------------------------------------------------------------

namespace MartianPendulum

variable (handler : Syscall → Cpu → Cpu)
variable (m : Cpu)
variable (esp0 offset next : BitVec 32)

/- A system call returns what its handler returns. -/
theorem syscallEntry_sysNumber
    {s : Syscall}
    (hNumber : m.regs .eax = sysNumber s)
    {c : Cpu}
    (hCalled :
      c = syscallCalled next (m.enter esp0 offset))
    (hReturned : Returned 3 15 c (handler s c)) :
    syscallEntry handler next (m.enter esp0 offset) =
      { m with
        regs := Function.update m.regs .eax
          ((handler s c).regs .eax)
        mem := (handler s c).mem } := by
  have hFrame := m.length_frame
  have hStacked := stacked_syscallCalled next
    (m.enter esp0 offset) (m.stacked_enter esp0 offset)
    hFrame
  have hCalledRegs := syscallCalled_regs next
    (m.enter esp0 offset)
  have hCalledEsp := syscallCalled_esp next
    (m.enter esp0 offset)
  rw [← hCalled] at hStacked hCalledRegs hCalledEsp
  have hThere := hReturned.stacked hStacked rfl (by
    simp only [List.length_append, List.length_map,
      syscallSaved, List.length_cons, List.length_nil]
    omega)
  rcases hThere with ⟨hTop, hThere⟩
  -- `popl %esp` finds the place of the saved registers
  have hEsp : (handler s c).esp + 4 * BitVec.ofNat 32 3 + 4 =
      savedEsp (m.enter esp0 offset) := by
    rw [hReturned.esp, ← hCalledEsp]
    bv_omega
  rw [hEsp] at hThere
  let x : Cpu :=
    { handler s c with
      esp := savedEsp (m.enter esp0 offset) }
  have hThere' : Logic.Stacked x.mem x.esp
      (syscallSaved.map
        (registerFile.read (m.enter esp0 offset).regs) ++
          m.frame) := hThere
  rcases Logic.popAll_of_stacked registerFile
      (m.enter esp0 offset).regs syscallSaved hThere' with
    ⟨hRest, hMem, hEspBack, hIn, hOut⟩
  have hOut' : ∀ r ∉ syscallSaved,
      (x.popl syscallSaved).regs r =
        (handler s c).regs r :=
    fun r hr => eq_of_read_eq (hOut r hr)
  have hEax : (m.enter esp0 offset).regs .eax =
      sysNumber s := by
    rw [← hNumber]
    exact m.enter_regs esp0 offset (by decide)
  have hEntry : syscallEntry handler next
      (m.enter esp0 offset) =
        (x.popl syscallSaved).iret := by
    have hPass := (sysNumber_iff
      ((m.enter esp0 offset).regs .eax)).mpr ⟨s, hEax⟩
    unfold syscallEntry
    rw [if_neg hPass.1, if_neg hPass.2,
      syscallTarget_sysNumber handler hEax]
    have hCall : (syscallSave (m.enter esp0 offset)).call
        (handler s) next = handler s c := by
      rw [hCalled]
      rfl
    have hPopEsp : (handler s c).mem
        ((handler s c).esp + 12) =
          savedEsp (m.enter esp0 offset) := hTop
    dsimp only
    rw [hCall]
    simp only [syscallFinish, Logic.Machine.top, hPopEsp]
    rfl
  rw [← hMem] at hRest
  rw [hEntry, iret_of_stacked m ?_ hRest ?_]
  · refine Logic.Machine.ext ?_ rfl hMem
    funext r
    by_cases hFrameReg :
        r ∈ [Reg.eip, .cs, .eflags, .ss]
    · have hNe : r ≠ .eax := by
        rintro rfl
        exact absurd hFrameReg (by decide)
      refine (if_pos hFrameReg).trans ?_
      exact (Function.update_of_ne hNe _ _).symm
    · refine (if_neg hFrameReg).trans ?_
      have hUser := m.enter_regs esp0 offset hFrameReg
      by_cases hSaved : r ∈ syscallSaved
      · have hNe : r ≠ .eax := by
          rintro rfl
          exact absurd hSaved (by decide)
        dsimp only
        rw [Function.update_of_ne hNe, ← hUser]
        exact eq_of_read_eq (hIn r hSaved)
      · have hOnly : r = .eax := by
          revert hFrameReg hSaved
          cases r <;> decide
        subst hOnly
        dsimp only
        rw [Function.update_self]
        exact hOut' .eax (by decide)
  · unfold Cpu.cpl
    have hCs : c.regs .cs = Cpu.kernelCode :=
      hCalledRegs .cs
    rw [hOut' .cs (by decide), hReturned.cs, hCs]
    decide
  · intro hKernel
    rcases m.enter_of_kernel esp0 offset hKernel with
      ⟨hEspKernel, hSsKernel⟩
    refine ⟨?_, ?_⟩
    · rw [hEspBack, savedEsp_add]
      exact hEspKernel
    · rw [hOut' .ss (by decide), hReturned.ss,
        hCalledRegs .ss]
      exact hSsKernel

/- The handler finds its arguments above the return address. -/
theorem syscallCalled_args
    {c : Cpu}
    (hCalled :
      c = syscallCalled next (m.enter esp0 offset)) :
    c.mem (c.esp + 4) = m.regs .ebx ∧
      c.mem (c.esp + 8) = m.regs .ecx ∧
      c.mem (c.esp + 12) = m.regs .edx := by
  have hStacked := stacked_syscallCalled next
    (m.enter esp0 offset) (m.stacked_enter esp0 offset)
    m.length_frame
  rw [← hCalled] at hStacked
  rcases hStacked with ⟨_, hEbx, hEcx, hEdx, _⟩
  have hUser : ∀ {r},
      r ∉ [Reg.eip, .cs, .eflags, .ss] →
        (m.enter esp0 offset).regs r = m.regs r :=
    fun hr => m.enter_regs esp0 offset hr
  rw [BitVec.add_assoc] at hEcx
  rw [BitVec.add_assoc, BitVec.add_assoc] at hEdx
  exact ⟨hEbx.trans (hUser (by decide)),
    hEcx.trans (hUser (by decide)),
    hEdx.trans (hUser (by decide))⟩

/-
  `int 0x80` with the number of a system call in `eax` calls
  its handler with the arguments `ebx`, `ecx` and `edx`, in
  the segments of the kernel.  The program continues with
  what the handler returns in `eax` and with all its other
  registers as they were, even if the handler used them.
  With any other number it continues with -1 in `eax`, and
  no handler is called.
-/
theorem syscall_entry_calls_handler
    (c : Cpu)
    (hCalled :
      c = syscallCalled next (m.enter esp0 offset))
    (hReturned : ∀ s, m.regs .eax = sysNumber s →
      Returned 3 15 c (handler s c)) :
    (c.mem (c.esp + 4) = m.regs .ebx ∧
      c.mem (c.esp + 8) = m.regs .ecx ∧
      c.mem (c.esp + 12) = m.regs .edx ∧
      c.regs .cs = Cpu.kernelCode ∧
      c.regs .ds = Cpu.kernelData) ∧
    (∀ s, m.regs .eax = sysNumber s →
      syscallEntry handler next (m.enter esp0 offset) =
        { m with
          regs := Function.update m.regs .eax
            ((handler s c).regs .eax)
          mem := (handler s c).mem }) ∧
    ((∀ s, m.regs .eax ≠ sysNumber s) →
      syscallEntry handler next (m.enter esp0 offset) =
        { m with
          regs := Function.update m.regs .eax (-1)
          mem := (m.enter esp0 offset).mem }) := by
  refine ⟨?_, ?_, ?_⟩
  · rcases syscallCalled_args m esp0 offset next hCalled with
      ⟨hEbx, hEcx, hEdx⟩
    have hRegs := syscallCalled_regs next
      (m.enter esp0 offset)
    rw [← hCalled] at hRegs
    exact ⟨hEbx, hEcx, hEdx, hRegs .cs, hRegs .ds⟩
  · intro s hNumber
    exact syscallEntry_sysNumber handler m esp0 offset next
      hNumber hCalled (hReturned s hNumber)
  · exact syscallEntry_bad_code handler m esp0 offset next

theorem syscall_entry_calls_handler_sample :
    (syscallEntry (fun _ => sampleHandler) 0x400010
      (sampleUser.enter 0x7FFFFC 0x400000)).regs .eax =
        7 := by
  have hCall := (syscall_entry_calls_handler
    (fun _ => sampleHandler) sampleUser 0x7FFFFC 0x400000
    0x400010 _ rfl
    (fun _ _ => returned_sampleHandler 3 15 _)).2.1
      .read rfl
  rw [hCall]
  rfl

end MartianPendulum

------------------------------------------------------------
-- System Calls of C Programs
------------------------------------------------------------

namespace MartianPendulum

/- The registers with which a program traps. -/
theorem ece391Load_regs
    (number : BitVec 32)
    (m : Cpu)
    (r : Reg) :
    (ece391Load number m).regs r =
      match r with
      | .eax => number
      | .ebx => m.mem (m.esp + 4)
      | .ecx => m.mem (m.esp + 8)
      | .edx => m.mem (m.esp + 12)
      | r => m.regs r := by
  have hMem : ∀ d : BitVec 32, d ≠ 0 →
      (m.pushl [.ebx]).mem (m.esp - 4 + d) =
        m.mem (m.esp - 4 + d) := by
    intro d hd
    refine Function.update_of_ne ?_ _ _
    intro hSame
    apply hd
    bv_omega
  have hEbx := hMem 8 (by decide)
  have hEcx := hMem 12 (by decide)
  have hEdx := hMem 16 (by decide)
  have hAt : ∀ d : BitVec 32,
      m.esp - 4 + (d + 4) = m.esp + d := by
    intro d
    bv_omega
  cases r with
  | ebx => exact hEbx.trans (congrArg m.mem (hAt 4))
  | ecx => exact hEcx.trans (congrArg m.mem (hAt 8))
  | edx => exact hEdx.trans (congrArg m.mem (hAt 12))
  | _ => rfl

/- The stub writes only below the caller's stack. -/
theorem ece391Load_mem
    (number : BitVec 32)
    {m : Cpu}
    {a : BitVec 32}
    (hRoom : 4 ≤ m.esp.toNat)
    (hAbove : m.esp.toNat ≤ a.toNat) :
    (ece391Load number m).mem a = m.mem a := by
  have hPush := @Logic.Machine.mem_pushAll_of_le Reg
    Registers registerFile m a [.ebx] hRoom hAbove
  exact hPush.1

/- The stack has grown by `n` bytes, below address `a`. -/
def Grown
    (m : Cpu)
    (esp0 a : BitVec 32)
    (n : Nat)
    (x : Cpu) : Prop :=
  x.mem a = m.mem a ∧ x.esp.toNat = esp0.toNat - n

section

variable {m : Cpu}
variable {esp0 a : BitVec 32}
variable {n : Nat}
variable {x : Cpu}

theorem Grown.pushWord
    (hGrown : Grown m esp0 a n x)
    (hRoom : n + 4 ≤ esp0.toNat)
    (hAbove : esp0.toNat ≤ a.toNat)
    (v : BitVec 32) :
    Grown m esp0 a (n + 4) (x.pushWord v) := by
  rcases hGrown with ⟨hMem, hEsp⟩
  rcases @Logic.Machine.mem_push_of_le Registers x a
      (by omega) (by omega) v with
    ⟨hMem', hEsp'⟩
  exact ⟨hMem'.trans hMem, by
    rw [hEsp', hEsp]
    omega⟩

theorem Grown.pushl
    (hGrown : Grown m esp0 a n x)
    (rs : List Reg)
    (hRoom : n + 4 * rs.length ≤ esp0.toNat)
    (hAbove : esp0.toNat ≤ a.toNat) :
    Grown m esp0 a (n + 4 * rs.length) (x.pushl rs) := by
  rcases hGrown with ⟨hMem, hEsp⟩
  rcases @Logic.Machine.mem_pushAll_of_le Reg Registers
      registerFile x a rs (by omega) (by omega) with
    ⟨hMem', hEsp'⟩
  exact ⟨hMem'.trans hMem, by
    rw [hEsp', hEsp]
    omega⟩

/- The entry writes only below the stack of the TSS. -/
theorem syscallCalled_mem
    (hUser : m.cpl ≠ 0)
    (hRoom : 76 ≤ esp0.toNat)
    (offset next : BitVec 32)
    (hAbove : esp0.toNat ≤ a.toNat) :
    (syscallCalled next (m.enter esp0 offset)).mem a =
      m.mem a := by
  let kernel : Cpu :=
    { m.setReg .ss Cpu.kernelData with esp := esp0 }
  have hStart : Grown m esp0 a 0 kernel := ⟨rfl, rfl⟩
  have hEntered : Grown m esp0 a 20
      (m.enter esp0 offset) := by
    unfold Cpu.enter
    rw [if_neg hUser]
    exact ((hStart.pushWord (by omega) hAbove
      _).pushWord (by omega) hAbove _).pushl
        [.eflags, .cs, .eip] (by
          simp only [List.length_cons, List.length_nil]
          omega) hAbove
  have hSaved := hEntered.pushl
    [.fs, .es, .ds, .ebx, .ecx, .edx, .ebp, .edi, .esi]
    (by
      simp only [List.length_cons, List.length_nil]
      omega) hAbove
  have hEsp := hSaved.pushWord
    (by
      simp only [List.length_cons, List.length_nil]
      omega) hAbove (savedEsp (m.enter esp0 offset))
  have hArgs : Grown m esp0 a 72
      (syscallSave (m.enter esp0 offset)) :=
    Grown.pushl (x := (((((m.enter esp0 offset).pushl
      [.fs, .es, .ds, .ebx, .ecx, .edx, .ebp, .edi,
        .esi]).pushWord _).setReg .cs _).setReg .edi
          _).setReg .ds _) hEsp [.edx, .ecx, .ebx]
      (by
        simp only [List.length_cons, List.length_nil]
        omega) hAbove
  exact (hArgs.pushWord (by omega) hAbove next).1

end

/-
  A C program calls `ece391_read` and the others like any
  function: the three words above the return address reach
  the handler as its arguments, what the handler returns is
  in `eax` after the return, and `ebx`, `esi`, `edi`, `ebp`
  and the segment registers are as they were.  No word on
  the caller's stack changes but by the handler.
-/
theorem ece391_call_calls_handler
    (handler : Syscall → Cpu → Cpu)
    (s : Syscall)
    (m : Cpu)
    (hUser : m.cpl = 3)
    (hLow : size128M + 4 ≤ m.esp.toNat)
    (pid : Int)
    (hPid : pid ∈ pids)
    (esp0 offset next : BitVec 32)
    (hTss : esp0 = BitVec.ofInt 32 (kernelStack pid))
    (c : Cpu)
    (hCalled : c = syscallCalled next
      ((ece391Load (sysNumber s) m).enter esp0 offset))
    (hReturned : Returned 3 15 c (handler s c))
    (hCaller : ∀ a ∈ [m.esp - 4, m.esp],
      (handler s c).mem a = c.mem a) :
    c.mem (c.esp + 4) = m.mem (m.esp + 4) ∧
    c.mem (c.esp + 8) = m.mem (m.esp + 8) ∧
    c.mem (c.esp + 12) = m.mem (m.esp + 12) ∧
    (∀ a, m.esp.toNat ≤ a.toNat → c.mem a = m.mem a) ∧
    ece391Call (sysNumber s)
        (fun u => syscallEntry handler next
          (u.enter esp0 offset)) m =
      { regs := fun r =>
          match r with
          | .eax => (handler s c).regs .eax
          | .ecx => m.mem (m.esp + 8)
          | .edx => m.mem (m.esp + 12)
          | .eip => m.mem m.esp
          | r => m.regs r
        esp := m.esp + 4
        mem := (handler s c).mem } := by
  have hRegs := ece391Load_regs (sysNumber s) m
  have hTrapCpl : (ece391Load (sysNumber s) m).cpl ≠ 0 := by
    have hCs : (ece391Load (sysNumber s) m).cpl = m.cpl :=
      rfl
    omega
  rcases syscallCalled_args (ece391Load (sysNumber s) m)
      esp0 offset next hCalled with
    ⟨hEbx, hEcx, hEdx⟩
  -- the stacks of the kernel lie below the user page
  have hStack : 76 ≤ esp0.toNat ∧
      esp0.toNat ≤ size128M := by
    rw [mem_pids] at hPid
    rw [hTss, kernelStack, getPcbPtr, BitVec.toNat_ofInt]
    simp only [size8M_eq, size8K, size4K_eq, size128M_eq]
    omega
  have hKernel : ∀ a : BitVec 32, size128M ≤ a.toNat →
      c.mem a = (ece391Load (sysNumber s) m).mem a := by
    intro a ha
    rw [hCalled]
    exact syscallCalled_mem hTrapCpl hStack.1 offset next
      (by omega)
  have hRoom : 4 ≤ m.esp.toNat :=
    le_trans (Nat.le_add_left 4 size128M) hLow
  have hStackWords : ∀ a : BitVec 32,
      m.esp.toNat ≤ a.toNat → c.mem a = m.mem a := by
    intro a ha
    rw [hKernel a (by omega)]
    exact ece391Load_mem (sysNumber s) hRoom ha
  refine ⟨hEbx.trans (hRegs .ebx), hEcx.trans (hRegs .ecx),
    hEdx.trans (hRegs .edx), hStackWords, ?_⟩
  have hBelow : (m.esp - 4).toNat = m.esp.toNat - 4 := by
    rw [BitVec.toNat_sub_of_le]
    · rfl
    · exact hRoom
  have hSavedEbx : (handler s c).mem (m.esp - 4) =
      registerFile.read m.regs .ebx := by
    rw [hCaller _ (by simp), hKernel _ (by omega)]
    exact Function.update_self _ _ _
  have hReturnTo : (handler s c).mem (m.esp - 4 + 4) =
      m.mem m.esp := by
    rw [BitVec.sub_add_cancel, hCaller _ (by simp)]
    exact hStackWords _ le_rfl
  have hTrap := syscallEntry_sysNumber handler
    (ece391Load (sysNumber s) m) esp0 offset next
    (hRegs .eax) hCalled hReturned
  let y : Cpu :=
    { ece391Load (sysNumber s) m with
      regs := Function.update
        (ece391Load (sysNumber s) m).regs .eax
        ((handler s c).regs .eax)
      mem := (handler s c).mem }
  let after : Registers :=
    Function.update m.regs .eip (m.mem m.esp)
  have hWords : Logic.Stacked y.mem y.esp
      ([.ebx, .eip].map (registerFile.read after) ++ []) :=
    ⟨hSavedEbx, hReturnTo.trans
      (BitVec.setWidth_eq _).symm, trivial⟩
  rcases Logic.popAll_of_stacked registerFile after
      [.ebx, .eip] hWords with
    ⟨_, hMem, hEsp, hIn, hOut⟩
  have hCode : ece391Call (sysNumber s)
      (fun u => syscallEntry handler next
        (u.enter esp0 offset)) m =
      y.popl [.ebx, .eip] := by
    unfold ece391Call
    dsimp only
    rw [hTrap]
    rfl
  rw [hCode]
  refine Logic.Machine.ext ?_ ?_ hMem
  · funext r
    by_cases hPopped : r ∈ [Reg.ebx, .eip]
    · refine (eq_of_read_eq (hIn r hPopped)).trans ?_
      rcases List.mem_cons.mp hPopped with rfl | hEip
      · rfl
      · rw [List.mem_singleton] at hEip
        subst hEip
        rfl
    · refine (eq_of_read_eq (hOut r hPopped)).trans ?_
      cases r with
      | ebx => exact absurd (by decide) hPopped
      | eip => exact absurd (by decide) hPopped
      | ecx => exact hRegs .ecx
      | edx => exact hRegs .edx
      | _ => rfl
  · refine hEsp.trans ?_
    have hTop : y.esp = m.esp - 4 := rfl
    rw [hTop]
    simp only [List.length_cons, List.length_nil]
    bv_omega

/- The caller's stack holds the same word at 0x83FFF10. -/
theorem ece391_call_calls_handler_sample :
    let back := ece391Call (sysNumber .read)
      (fun u => syscallEntry (fun _ => sampleHandler)
        0x400010 (u.enter
          (BitVec.ofInt 32 (kernelStack 2)) 0x400000))
      sampleUser
    back.regs .eax = 7 ∧ back.mem 0x83FFF10 = 0x83FFF10 := by
  have hCall := (ece391_call_calls_handler
    (fun _ => sampleHandler) .read sampleUser (by decide)
    (by decide) 2 (by decide) _ 0x400000 0x400010 rfl _ rfl
    (returned_sampleHandler 3 15 _)
    (fun _ _ => rfl)).2.2.2
  rw [hCall.2]
  exact ⟨rfl, hCall.1 0x83FFF10 (by decide)⟩

end MartianPendulum
