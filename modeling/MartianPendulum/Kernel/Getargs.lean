import MartianPendulum.Kernel.Arguments

/-
  `syscall_getargs`.

  The call copies as many bytes as the caller asks for, from
  the argument field of the current PCB on.  A request that
  is shorter than the string loses its end, and one that is
  longer than the field goes on with the fields after it and
  with the kernel stack.

  Key definitions include:
    * `PcbRest`
    * `argsMemory`
    * `Control.syscallGetargs`
    * `GetargsDelivers`, `GetargsPrivate`

  Key theorems include:
    * `syscallGetargs_copies`
    * `getargs_iff`
-/

------------------------------------------------------------
-- The PCB in Memory
------------------------------------------------------------

namespace MartianPendulum

/-
  What follows the arguments in memory and is not part of
  `PCB`: the fields for scheduling, which nothing reads, the
  padding after them, and the stack behind the PCB.
-/
structure PcbRest where
  counts : UInt32
  flag : UInt8
  padding : Ptr
  stack : Ptr

/- A byte of a little-endian `uint32_t`. -/
def wordByte
    (w : Nat)
    (k : Nat) : UInt8 :=
  UInt8.ofNat (w / 2 ^ (8 * k))

/-
  A byte of a `file_entry`, with the addresses of the tables
  of operations.
-/
def entryByte
    (opAddr : OpPtr → Nat)
    (e : FileEntry)
    (k : Nat) : UInt8 :=
  let w :=
    if k / 4 = 0 then opAddr e.opPtr
    else if k / 4 = 1 then e.inode
    else if k / 4 = 2 then e.filePos
    else e.flags
  wordByte w (k % 4)

/- Memory seen from the field `args` of a PCB. -/
def argsMemory
    (opAddr : OpPtr → Nat)
    (rest : PcbRest)
    (p : PCB) : Ptr :=
  fun i =>
    if i < argLen then p.args i
    else if i < argLen + 4 then
      wordByte rest.counts.toNat (i - argLen)
    else if i = argLen + 4 then rest.flag
    else if i < argLen + 8 then
      rest.padding (i - (argLen + 5))
    else if i < argLen + 8 + 8 * 16 then
      entryByte opAddr
        (p.pcbFds ((i - (argLen + 8)) / 16 : Nat))
        ((i - (argLen + 8)) % 16)
    else rest.stack (i - (argLen + 8 + 8 * 16))

theorem argsMemory_of_lt
    (opAddr : OpPtr → Nat)
    (rest : PcbRest)
    (p : PCB)
    {i : Nat}
    (hi : i < argLen) :
    argsMemory opAddr rest p i = p.args i :=
  if_pos hi

/- The byte after the field belongs to the counter. -/
theorem argsMemory_argLen
    (opAddr : OpPtr → Nat)
    (rest : PcbRest)
    (p : PCB) :
    argsMemory opAddr rest p argLen =
      wordByte rest.counts.toNat 0 := by
  unfold argsMemory
  rw [if_neg (Nat.lt_irrefl _), if_pos (by omega),
    Nat.sub_self]

/- The loop of `syscall_getargs`. -/
def copyArgs
    (args buf : Ptr)
    (nbytes : Nat) : Ptr :=
  (List.range nbytes).foldl
    (fun buf i => Function.update buf i (args i)) buf

/- `syscall_getargs`: the result and the user's buffer. -/
def Control.syscallGetargs
    (opAddr : OpPtr → Nat)
    (rest : PcbRest)
    (buf : Buf)
    (nbytes : Int)
    (g : Control) :
    Int × Ptr :=
  let args := argsMemory opAddr rest g.cur
  if nbytes < 0 ∨ buf.isNull then (-1, buf.mem)
  else if args 0 = 0 then (-1, buf.mem)
  else (0, copyArgs args buf.mem nbytes.toNat)

end MartianPendulum

------------------------------------------------------------
-- What Is Copied
------------------------------------------------------------

namespace MartianPendulum

theorem copyArgs_eq_blit
    (args buf : Ptr)
    (nbytes : Nat) :
    copyArgs args buf nbytes =
      Logic.blit buf 0 nbytes args := by
  funext i
  unfold copyArgs Logic.blit
  rw [Logic.foldl_update_apply]
  simp

/- The current process has these arguments. -/
def HasArgs
    (args : Ptr)
    (g : Control) : Prop :=
  ∀ i, i < argLen → g.cur.args i = args i

/-
  A call that succeeds leaves the argument string with its
  NUL in the buffer.
-/
def GetargsDelivers
    (args : Ptr)
    (buf : Buf)
    (nbytes : Int) : Prop :=
  ∀ opAddr rest (g : Control),
    HasArgs args g →
    (g.syscallGetargs opAddr rest buf nbytes).1 = 0 →
      HoldsString
        (g.syscallGetargs opAddr rest buf nbytes).2
        nbytes.toNat (cut args argLen)

/- The call shows nothing but the arguments. -/
def GetargsPrivate
    (args : Ptr)
    (buf : Buf)
    (nbytes : Int) : Prop :=
  ∀ opAddr rest₁ rest₂ (g₁ g₂ : Control),
    HasArgs args g₁ → HasArgs args g₂ →
      g₁.syscallGetargs opAddr rest₁ buf nbytes =
        g₂.syscallGetargs opAddr rest₂ buf nbytes

/- The call is refused. -/
def GetargsRefuses
    (args : Ptr)
    (buf : Buf)
    (nbytes : Int) : Prop :=
  nbytes < 0 ∨ buf.isNull ∨ cut args argLen = []

theorem cut_eq_nil_iff
    (args : Ptr) :
    cut args argLen = [] ↔ args 0 = 0 := by
  rw [cut, argLen, cutFrom]
  split
  next hZero => exact iff_of_true rfl hZero
  next hZero => exact iff_of_false (by simp) hZero

section Call

variable {args : Ptr}
variable {buf : Buf}
variable {nbytes : Int}
variable {g : Control}

theorem HasArgs.argsMemory_zero
    (hArgs : HasArgs args g)
    (opAddr : OpPtr → Nat)
    (rest : PcbRest) :
    argsMemory opAddr rest g.cur 0 = args 0 := by
  rw [argsMemory_of_lt opAddr rest g.cur (by decide)]
  exact hArgs 0 (by decide)

/- A refused call leaves the buffer alone. -/
theorem syscallGetargs_refuses
    (hArgs : HasArgs args g)
    (hRefuse : GetargsRefuses args buf nbytes)
    (opAddr : OpPtr → Nat)
    (rest : PcbRest) :
    g.syscallGetargs opAddr rest buf nbytes =
      (-1, buf.mem) := by
  unfold Control.syscallGetargs
  dsimp only
  split
  next => rfl
  next hBad =>
    rw [not_or] at hBad
    have hEmpty := (hRefuse.resolve_left hBad.1
      ).resolve_left hBad.2
    rw [cut_eq_nil_iff] at hEmpty
    rw [if_pos ((hArgs.argsMemory_zero opAddr rest).trans
      hEmpty)]

/- Any other call copies what lies there. -/
theorem syscallGetargs_copies
    (hArgs : HasArgs args g)
    (hRefuse : ¬ GetargsRefuses args buf nbytes)
    (opAddr : OpPtr → Nat)
    (rest : PcbRest) :
    g.syscallGetargs opAddr rest buf nbytes =
      (0, Logic.blit buf.mem 0 nbytes.toNat
        (argsMemory opAddr rest g.cur)) := by
  unfold GetargsRefuses at hRefuse
  rw [cut_eq_nil_iff, ← or_assoc, not_or] at hRefuse
  unfold Control.syscallGetargs
  dsimp only
  rw [if_neg hRefuse.1,
    if_neg ((hArgs.argsMemory_zero opAddr rest).trans_ne
      hRefuse.2), copyArgs_eq_blit]

end Call

end MartianPendulum

------------------------------------------------------------
-- Requests
------------------------------------------------------------

namespace MartianPendulum

/- A state whose current process has given arguments. -/
def argsHolder
    (args : Ptr) : Control :=
  { blankKernel.toControl with
    pcb := fun a =>
      { blankKernel.pcb a with args := args } }

theorem argsHolder_hasArgs
    (args : Ptr) :
    HasArgs args (argsHolder args) :=
  fun _ _ => rfl

/- Fields after the arguments, with a given counter. -/
def restOfCounts
    (counts : UInt32) : PcbRest :=
  { counts := counts
    flag := 0
    padding := fun _ => 0
    stack := fun _ => 0 }

section Call

variable {args : Ptr}
variable {buf : Buf}
variable {nbytes : Int}

/- The string arrives if the request is longer than it. -/
theorem getargsDelivers_iff
    (hNul : (cut args argLen).length < argLen)
    (hRefuse : ¬ GetargsRefuses args buf nbytes) :
    GetargsDelivers args buf nbytes ↔
      (cut args argLen).length < nbytes := by
  constructor
  · intro hAll
    have hCall := syscallGetargs_copies
      (argsHolder_hasArgs args) hRefuse (fun _ => 0)
      (restOfCounts 0)
    have hHolds := hAll (fun _ => 0) (restOfCounts 0)
      (argsHolder args) (argsHolder_hasArgs args) (by
        rw [hCall])
    have hLt := hHolds.2
    omega
  · intro hLt opAddr rest g hArgs _
    rw [syscallGetargs_copies hArgs hRefuse]
    refine ⟨?_, by omega⟩
    -- the field ends after the NUL, so all bytes are its own
    have hByte : ∀ j, j ≤ (cut args argLen).length →
        Logic.blit buf.mem 0 nbytes.toNat
          (argsMemory opAddr rest g.cur) j = args j := by
      intro j hj
      rw [Logic.blit_apply_of_lt _ _ (by omega),
        argsMemory_of_lt _ _ _ (by omega)]
      exact hArgs j (by omega)
    apply cut_eq_of (by omega)
    · intro j hj
      dsimp only
      rw [hByte j (by omega), getD_cut args hj]
    · exact cut_nonzero args argLen
    · intro _
      dsimp only
      rw [hByte _ (Nat.le_refl _)]
      exact cut_end args hNul

/- Nothing else is shown if it is no longer than the field. -/
theorem getargsPrivate_iff
    (hRefuse : ¬ GetargsRefuses args buf nbytes) :
    GetargsPrivate args buf nbytes ↔ nbytes ≤ argLen := by
  constructor
  · intro hAll
    by_contra hLong
    have hHas := argsHolder_hasArgs args
    have hSame := hAll (fun _ => 0) (restOfCounts 0)
      (restOfCounts 1) (argsHolder args) (argsHolder args)
      hHas hHas
    rw [syscallGetargs_copies hHas hRefuse,
      syscallGetargs_copies hHas hRefuse] at hSame
    -- the first byte of the counter is copied
    have hByte := congrFun (congrArg Prod.snd hSame) argLen
    dsimp only at hByte
    rw [Logic.blit_apply_of_lt _ _ (by omega),
      Logic.blit_apply_of_lt _ _ (by omega),
      argsMemory_argLen, argsMemory_argLen] at hByte
    exact absurd hByte (by decide)
  · intro hShort opAddr rest₁ rest₂ g₁ g₂ hArgs₁ hArgs₂
    rw [syscallGetargs_copies hArgs₁ hRefuse,
      syscallGetargs_copies hArgs₂ hRefuse, Prod.mk.injEq]
    refine ⟨rfl, Logic.blit_congr _ _ ?_⟩
    intro i hi
    have hField : i < argLen := by omega
    rw [argsMemory_of_lt _ _ _ hField,
      argsMemory_of_lt _ _ _ hField, hArgs₁ i hField,
      hArgs₂ i hField]

end Call

/-
  Exactly when a call returns the arguments and nothing
  else: it is refused, or the request is longer than the
  string and no longer than the field.
-/
theorem getargs_iff
    (args : Ptr)
    (hNul : (cut args argLen).length < argLen)
    (buf : Buf)
    (nbytes : Int) :
    (GetargsDelivers args buf nbytes ∧
      GetargsPrivate args buf nbytes) ↔
    ((nbytes < 0 ∨ buf.isNull ∨ cut args argLen = []) ∨
      ((cut args argLen).length < nbytes ∧
        nbytes ≤ argLen)) := by
  by_cases hRefuse : GetargsRefuses args buf nbytes
  · refine iff_of_true ⟨?_, ?_⟩ (Or.inl hRefuse)
    · intro opAddr rest g hArgs hZero
      rw [syscallGetargs_refuses hArgs hRefuse] at hZero
      cases hZero
    · intro opAddr rest₁ rest₂ g₁ g₂ hArgs₁ hArgs₂
      rw [syscallGetargs_refuses hArgs₁ hRefuse,
        syscallGetargs_refuses hArgs₂ hRefuse]
  · rw [getargsDelivers_iff hNul hRefuse,
      getargsPrivate_iff hRefuse]
    exact (or_iff_right hRefuse).symm

/- The argument `a`, and a buffer of zeros. -/
def oneArg : Ptr :=
  fun i => if i = 0 then 97 else 0

def zeroBuf : Buf :=
  { isNull := false, mem := fun _ => 0 }

theorem getargs_iff_oneArg :
    GetargsDelivers oneArg zeroBuf 128 ∧
      GetargsPrivate oneArg zeroBuf 128 :=
  (getargs_iff oneArg (by decide) zeroBuf 128).mpr
    (Or.inr ⟨by decide, by decide⟩)

/- The request of `cat` shows the fields of the PCB. -/
theorem getargs_shows_pcb :
    ¬ ∀ (args : Ptr) (buf : Buf) (nbytes : Int),
      (cut args argLen).length < argLen →
        GetargsDelivers args buf nbytes ∧
          GetargsPrivate args buf nbytes := by
  intro hAll
  have hRefuse : ¬ GetargsRefuses oneArg zeroBuf 1024 := by
    unfold GetargsRefuses
    decide
  have hShort := (getargsPrivate_iff hRefuse).mp
    (hAll oneArg zeroBuf 1024 (by decide)).2
  exact absurd hShort (by decide)

end MartianPendulum
