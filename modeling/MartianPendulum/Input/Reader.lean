import MartianPendulum.Logic.Run
import MartianPendulum.Kernel.Transition

/-
  Reads from the terminals.

  `syscall_read` enables interrupts, so keys and ticks can
  come between any two accesses of
  `read_from_kbd_buf_to_buf` to the terminals.  A read is a
  sequence of steps, each with one such access, that its
  process takes while its terminal runs.

  The state carries the history that the properties of reads
  are about.  No step of the code depends on it.

  Key definitions include:
    * `Reader`
    * `History`
    * `Session.readStep`
    * `Session.step`

  Key theorems include:
    * `Keyboard.putInBuf_eq`
    * `KeyEffect.keyboard`
    * `Session.step_cases`
    * `Session.run_readSteps`
-/

------------------------------------------------------------
-- Sessions
------------------------------------------------------------

namespace MartianPendulum

/- Where a call of `read_from_kbd_buf_to_buf` is. -/
inductive Reader where
-- no call
| idle
-- in the `while` loop
| waiting (nbytes : Int)
-- in the `for` loop, with the characters copied so far
| copying (nbytes : Int) (buf : List UInt8)
-- behind the `for` loop
| finishing (buf : List UInt8)

def Reader.isIdle : Reader → Bool
| .idle => true
| _ => false

theorem Reader.eq_idle
    {r : Reader}
    (hIdle : r.isIdle = true) :
    r = .idle := by
  cases r with
  | idle => rfl
  | waiting => cases hIdle
  | copying => cases hIdle
  | finishing => cases hIdle

/-
  What was typed, by the terminal that was viewed then:
  every character stored and its index, the characters of
  the line being typed, the last line whose Enter made the
  buffer ready, and whether that line is still to be copied.
-/
structure History where
  stored : Tid → List (Nat × UInt8)
  typing : Tid → List UInt8
  entered : Tid → List UInt8
  pending : Tid → Bool

/- The kernel, and the read of each terminal. -/
structure Session extends Kernel, History where
  reader : Tid → Reader

/- `buf_pos` leaves room for the character. -/
def Keyboard.hasRoom
    (c : UInt8)
    (b : Keyboard) : Bool :=
  b.bufPos ≤ kbdBufSize - 2 ∨
    (b.bufPos = kbdBufSize - 1 ∧ c = newline)

namespace History

/- A line is edited at its end, up to 127 characters. -/
def put
    (t : Tid)
    (c : UInt8)
    (h : History) : History :=
  if (h.typing t).length < kbdBufSize - 1 then
    { h with
      typing := Function.update h.typing t
        (h.typing t ++ [c]) }
  else h

def erase
    (t : Tid)
    (h : History) : History :=
  { h with
    typing := Function.update h.typing t
      (h.typing t).dropLast }

/- Enter, with the flag that it finds. -/
def enter
    (t : Tid)
    (ready : Bool)
    (h : History) : History :=
  let h :=
    if ready then h
    else
      { h with
        entered := Function.update h.entered t
          (h.typing t ++ [newline])
        pending := Function.update h.pending t true }
  { h with typing := Function.update h.typing t [] }

def store
    (t : Tid)
    (i : Nat)
    (c : UInt8)
    (h : History) : History :=
  { h with
    stored := Function.update h.stored t
      ((i, c) :: h.stored t) }

/- The history after a key. -/
def press
    (view : Tid)
    (b : Keyboard)
    (h : History) :
    Stroke → History
| .erase => h.erase view
| .type c =>
    let h := if b.hasRoom c then h.store view b.bufPos c
      else h
    if c = newline then
      h.enter view (b.line view).kbdBufReady
    else h.put view c
| _ => h

/- The line of a terminal is copied. -/
def copied
    (t : Tid)
    (h : History) : History :=
  { h with pending := Function.update h.pending t false }

end History

end MartianPendulum

------------------------------------------------------------
-- Steps
------------------------------------------------------------

namespace MartianPendulum

inductive InputEvent where
-- an interrupt, or another call of the running process
| kernel (e : Event)
-- the running process calls `terminal_read`
| read (nbytes : Int)
-- a step of the read of the running process
| readStep

namespace Session

def setReader
    (r : Reader)
    (s : Session) : Session :=
  { s with
    reader := Function.update s.reader s.runningTermPtr r }

/-
  The index that the next step of the `for` loop copies, if
  the loop goes on.
-/
def copyIndex
    (s : Session) : Option Nat :=
  match s.reader s.runningTermPtr with
  | .copying nbytes buf =>
      if (buf.length : Int) < nbytes ∧
          ¬ buf.length > kbdBufSize - 1 then
        some buf.length
      else none
  | _ => none

/- `kbd_buf[i]`, through the global pointer -/
def kbdChar
    (i : Nat)
    (s : Session) : UInt8 :=
  (s.line s.toKeyboard.kbdBuf).kbdBuf i

/- The exit of the `for` loop. -/
def endLoop
    (buf : List UInt8)
    (s : Session) : Session :=
  { s.setReader (.finishing buf) with
    toHistory := s.toHistory.copied s.runningTermPtr }

/- A step of `read_from_kbd_buf_to_buf`. -/
def readStep
    (s : Session) : Session :=
  match s.reader s.runningTermPtr with
  | .idle => s
  | .waiting nbytes =>
      if (s.line s.runningTermPtr).kbdBufReady then
        s.setReader (.copying nbytes [])
      else s
  | .copying nbytes buf =>
      match s.copyIndex with
      | some i =>
          if s.kbdChar i = newline then
            s.endLoop (buf ++ [s.kbdChar i])
          else
            s.setReader
              (.copying nbytes (buf ++ [s.kbdChar i]))
      | none => s.endLoop buf
  | .finishing _ =>
      { s.setReader .idle with
        toKeyboard := s.toKeyboard.setLine s.runningTermPtr
          (fun l => { l with kbdBufReady := false }) }

/- An event of the kernel, and what it adds to the history. -/
def kernelStep
    (fs : FileSystem)
    (e : Event)
    (s : Session) : Session :=
  { s with
    toKernel := s.toKernel.step fs e
    toHistory :=
      match e with
      | .key inputCode =>
          s.toHistory.press s.viewingTermPtr s.toKeyboard
            (s.stroke inputCode)
      | _ => s.toHistory }

/-
  A process that is in a read makes no other call, and one
  that asks for nothing returns at once.
-/
def step
    (fs : FileSystem)
    (s : Session) :
    InputEvent → Session
| .kernel e =>
    if e.isInterrupt ||
        (s.reader s.runningTermPtr).isIdle then
      s.kernelStep fs e
    else s
| .read nbytes =>
    if (s.reader s.runningTermPtr).isIdle ∧ 0 < nbytes then
      s.setReader (.waiting nbytes)
    else s
| .readStep => s.readStep

/- A session in which nothing was typed or read yet. -/
def start
    (k : Kernel) : Session :=
  { toKernel := k
    stored := fun _ => []
    typing := fun _ => []
    entered := fun _ => []
    pending := fun _ => false
    reader := fun _ => .idle }

end Session

/- The viewed terminal has no line yet. -/
structure Fresh
    (k : Kernel) : Prop where
  kbdBuf : k.kbdBuf = k.viewingTermPtr
  bufPos : k.bufPos = 0
  ready : (k.line k.viewingTermPtr).kbdBufReady = false

theorem fresh_boot
    (k : Kernel) :
    Fresh k.boot :=
  ⟨rfl, rfl, rfl⟩

end MartianPendulum

------------------------------------------------------------
-- Keys
------------------------------------------------------------

namespace MartianPendulum

namespace Keyboard

/- What the last part of the handler does to the buffer. -/
theorem putInBuf_eq
    {view : Tid}
    {b : Keyboard}
    (hView : b.kbdBuf = view)
    (c : UInt8) :
    b.putInBuf view c =
      if b.hasRoom c then
        { b with
          bufPos := if c = newline then 0 else b.bufPos + 1
          line := Function.update b.line view
            { b.line view with
              kbdBuf := Function.update (b.line view).kbdBuf
                b.bufPos c
              kbdBufReady :=
                (b.line view).kbdBufReady ||
                  decide (c = newline) } }
      else b := by
  subst hView
  unfold putInBuf hasRoom
  by_cases hRoom : b.bufPos ≤ kbdBufSize - 2
  · by_cases hEnter : c = newline
    · simp [hRoom, hEnter, putChar, endLine, setLine]
    · have hNext : b.bufPos + 1 < 256 := by
        unfold kbdBufSize at hRoom
        omega
      simp [hRoom, hEnter, putChar, setLine, hNext]
  · by_cases hLast : b.bufPos = kbdBufSize - 1 ∧ c = newline
    · simp [hLast, putChar, endLine, setLine]
    · simp [hRoom, hLast]

end Keyboard

namespace Stroke

/- The character that a key stores. -/
def stored
    (b : Keyboard) :
    Stroke → Option UInt8
| .type c => if b.hasRoom c then some c else none
| _ => none

/- The keyboard after a key, up to the flags. -/
def keyboard
    (view : Tid)
    (b : Keyboard) :
    Stroke → Keyboard
| .erase => { b with bufPos := b.bufPos - 1 }
| .view t => if t = view then b else b.switchLine view t
| .type c => b.putInBuf view c
| _ => b

/- The viewed terminal after a key. -/
def viewing
    (view : Tid) :
    Stroke → Tid
| .view t => t
| _ => view

end Stroke

theorem KeyEffect.keyboard
    {k k' : Kernel}
    {a : Stroke}
    (hEffect : KeyEffect k a k') :
    SameLines (a.keyboard k.viewingTermPtr k.toKeyboard)
        k'.toKeyboard ∧
      k'.viewingTermPtr = a.viewing k.viewingTermPtr := by
  cases hEffect with
  | flags b hLines => exact ⟨hLines, rfl⟩
  | eraseNone hPos =>
      refine ⟨⟨rfl, ?_, rfl⟩, rfl⟩
      simp only [Stroke.keyboard]
      omega
  | erase hPos => exact ⟨⟨rfl, rfl, rfl⟩, rfl⟩
  | stay =>
      simp only [Stroke.keyboard, if_true]
      exact ⟨⟨rfl, rfl, rfl⟩, rfl⟩
  | view t hNe =>
      simp only [Stroke.keyboard, if_neg hNe,
        Stroke.viewing]
      constructor
      · unfold Kernel.switchTerminal
        rw [if_neg hNe]
        exact ⟨rfl, rfl, rfl⟩
      · rw [Kernel.switchTerminal_toControl, if_neg hNe]
        rfl
  | clear => exact ⟨⟨rfl, rfl, rfl⟩, rfl⟩
  | type c hChar => exact ⟨⟨rfl, rfl, rfl⟩, rfl⟩

theorem KeyEffect.char_ne_zero
    {k k' : Kernel}
    {a : Stroke}
    (hEffect : KeyEffect k a k')
    (c : UInt8)
    (hType : a = .type c) :
    c ≠ 0 := by
  subst hType
  cases hEffect with
  | type _ hChar => exact hChar

end MartianPendulum

------------------------------------------------------------
-- Frame Facts
------------------------------------------------------------

namespace MartianPendulum

namespace Session

/- What a key does to the parts that reads use. -/
structure Pressed
    (s : Session)
    (a : Stroke)
    (s' : Session) : Prop where
  lines : SameLines
    (a.keyboard s.viewingTermPtr s.toKeyboard) s'.toKeyboard
  viewing : s'.viewingTermPtr = a.viewing s.viewingTermPtr
  history : s'.toHistory =
    s.toHistory.press s.viewingTermPtr s.toKeyboard a
  reader : s'.reader = s.reader
  char : ∀ c, a = .type c → c ≠ 0

theorem pressed_kernelStep
    (fs : FileSystem)
    (s : Session)
    (inputCode : UInt8) :
    Pressed s (s.stroke inputCode)
      (s.kernelStep fs (.key inputCode)) := by
  have hEffect :=
    s.toKernel.keyboardIntHandler_effect inputCode
  exact ⟨hEffect.keyboard.1, hEffect.keyboard.2, rfl, rfl,
    hEffect.char_ne_zero⟩

/- What the other events of the kernel leave alone. -/
structure Unpressed
    (s s' : Session) : Prop where
  keyboard : s'.toKeyboard = s.toKeyboard
  viewing : s'.viewingTermPtr = s.viewingTermPtr
  history : s'.toHistory = s.toHistory
  reader : s'.reader = s.reader

theorem unpressed_kernelStep
    (fs : FileSystem)
    (s : Session)
    {e : Event}
    (hKey : ∀ inputCode, e ≠ .key inputCode) :
    Unpressed s (s.kernelStep fs e) := by
  refine ⟨s.toKernel.step_toKeyboard fs hKey,
    (s.toKernel.step_transition fs e).viewing hKey, ?_, rfl⟩
  cases e with
  | key inputCode => exact absurd rfl (hKey inputCode)
  | tick => rfl
  | execute => rfl
  | halt => rfl
  | vidmap => rfl
  | write => rfl
  | store => rfl

/- No character is stored and no terminal switched. -/
structure SameStore
    (s s' : Session) : Prop where
  kbdBuf : s'.kbdBuf = s.kbdBuf
  viewing : s'.viewingTermPtr = s.viewingTermPtr
  cells : ∀ t, (s'.line t).kbdBuf = (s.line t).kbdBuf
  stored : s'.stored = s.stored

/- A step of a read stores no character. -/
theorem sameStore_readStep
    (s : Session) :
    SameStore s s.readStep := by
  unfold Session.readStep
  split
  · exact ⟨rfl, rfl, fun _ => rfl, rfl⟩
  · split
    · exact ⟨rfl, rfl, fun _ => rfl, rfl⟩
    · exact ⟨rfl, rfl, fun _ => rfl, rfl⟩
  · split
    · split
      · exact ⟨rfl, rfl, fun _ => rfl, rfl⟩
      · exact ⟨rfl, rfl, fun _ => rfl, rfl⟩
    · exact ⟨rfl, rfl, fun _ => rfl, rfl⟩
  · refine ⟨rfl, rfl, ?_, rfl⟩
    intro t
    simp only [Keyboard.setLine]
    by_cases ht : t = s.runningTermPtr
    · subst ht
      rw [Function.update_self]
    · rw [Function.update_of_ne ht]

/-
  A step is a key, another event of the kernel or none, the
  start of a read, or a step of a read.
-/
theorem step_cases
    (fs : FileSystem)
    (s : Session)
    (e : InputEvent) :
    (∃ inputCode, e = .kernel (.key inputCode) ∧
      Pressed s (s.stroke inputCode) (s.step fs e)) ∨
    ((∃ e', e = .kernel e' ∧
        ∀ inputCode, e' ≠ .key inputCode) ∧
      Unpressed s (s.step fs e)) ∨
    (∃ nbytes, e = .read nbytes ∧
      (s.step fs e = s ∨
        (s.reader s.runningTermPtr).isIdle = true ∧
          s.step fs e = s.setReader (.waiting nbytes))) ∨
    (e = .readStep ∧ s.step fs e = s.readStep) := by
  cases e with
  | kernel e =>
      by_cases hKey : ∀ inputCode, e ≠ .key inputCode
      · right
        left
        refine ⟨⟨e, rfl, hKey⟩, ?_⟩
        simp only [step]
        split
        · exact s.unpressed_kernelStep fs hKey
        · exact ⟨rfl, rfl, rfl, rfl⟩
      · left
        rw [not_forall] at hKey
        rcases hKey with ⟨inputCode, hKey⟩
        rw [not_not] at hKey
        subst hKey
        exact ⟨inputCode, rfl,
          s.pressed_kernelStep fs inputCode⟩
  | read nbytes =>
      right
      right
      left
      refine ⟨nbytes, rfl, ?_⟩
      simp only [step]
      split
      next hIdle => exact Or.inr ⟨hIdle.1, rfl⟩
      · exact Or.inl rfl
  | readStep =>
      right
      right
      right
      exact ⟨rfl, rfl⟩

end Session

end MartianPendulum

------------------------------------------------------------
-- Ticks
------------------------------------------------------------

namespace MartianPendulum

namespace Session

/- A tick, and what it can change. -/
theorem step_tick
    (fs : FileSystem)
    (s : Session)
    (regs : Regs)
    (frame : CallFrame) :
    ∃ g d,
      g.viewingTermPtr = s.viewingTermPtr ∧
      g.runningTermPtr = nextTermToRun s.runningTermPtr ∧
      s.step fs (.kernel (.tick regs frame)) =
        { s with toControl := g, toDisplay := d } := by
  have hStep :=
    s.toKernel.step_transition fs (.tick regs frame)
  have hKeys := s.toKernel.step_toKeyboard fs
    (e := .tick regs frame) (by simp)
  refine ⟨(s.toKernel.step fs (.tick regs frame)).toControl,
    (s.toKernel.step fs (.tick regs frame)).toDisplay,
    hStep.viewing (by simp), hStep.running_tick, ?_⟩
  have hIdle : s.step fs (.kernel (.tick regs frame)) =
      { s with
        toKernel :=
          s.toKernel.step fs (.tick regs frame) } := rfl
  rw [hIdle, ← hKeys]

/-
  Three ticks launch the base shells and come back to the
  first terminal.
-/
theorem run_three_ticks
    (fs : FileSystem)
    (k : Kernel)
    (regs : Regs)
    (frame : CallFrame) :
    ∃ g d,
      g.viewingTermPtr = 0 ∧
      g.runningTermPtr = 0 ∧
      Logic.run (step fs) (start k.boot)
          (List.replicate 3 (.kernel (.tick regs frame))) =
        { start k.boot with
          toControl := g
          toDisplay := d } := by
  rcases (start k.boot).step_tick fs regs frame with
    ⟨g₁, d₁, hView₁, hRun₁, hStep₁⟩
  rcases
      step_tick fs
        { start k.boot with
          toControl := g₁
          toDisplay := d₁ } regs frame with
    ⟨g₂, d₂, hView₂, hRun₂, hStep₂⟩
  rcases
      step_tick fs
        { start k.boot with
          toControl := g₂
          toDisplay := d₂ } regs frame with
    ⟨g₃, d₃, hView₃, hRun₃, hStep₃⟩
  refine ⟨g₃, d₃, ?_, ?_, ?_⟩
  · rw [hView₃, hView₂, hView₁]
    rfl
  · have hBoot : (start k.boot).runningTermPtr = 0 := rfl
    rw [hRun₃, hRun₂, hRun₁, hBoot]
    decide
  · simp only [List.replicate, Logic.run_cons,
      Logic.run_nil]
    rw [hStep₁, hStep₂, hStep₃]

end Session

end MartianPendulum

------------------------------------------------------------
-- Undisturbed Reads
------------------------------------------------------------

namespace MartianPendulum

/- A buffer starts with the characters of a list. -/
def StartsWith
    (kbd : Ptr)
    (chars : List UInt8) : Prop :=
  ∀ i c, chars[i]? = some c → kbd i = c

theorem StartsWith.append_char
    {kbd : Ptr}
    {chars : List UInt8}
    (hStart : StartsWith kbd chars)
    (c : UInt8) :
    StartsWith (Function.update kbd chars.length c)
      (chars ++ [c]) := by
  intro i x hx
  by_cases hi : i = chars.length
  · subst hi
    rw [Function.update_self]
    simpa using hx
  · rw [Function.update_of_ne hi]
    rw [List.getElem?_append] at hx
    split at hx
    · exact hStart i x hx
    next hLong =>
      rw [List.getElem?_singleton,
        if_neg (by omega)] at hx
      cases hx

namespace StartsWith

variable {kbd : Ptr}
variable {chars : List UInt8}

theorem dropLast
    (hStart : StartsWith kbd chars) :
    StartsWith kbd chars.dropLast := by
  intro i x hx
  rw [List.getElem?_dropLast] at hx
  split at hx
  · exact hStart i x hx
  · cases hx

theorem nil
    (kbd : Ptr) :
    StartsWith kbd [] := by
  intro i x hx
  cases hx

theorem map_range
    (hStart : StartsWith kbd chars) :
    (List.range chars.length).map kbd = chars := by
  apply List.ext_getElem
  · simp
  · intro i hi hi'
    rw [List.getElem_map, List.getElem_range]
    exact hStart i _ (List.getElem?_eq_getElem hi')

end StartsWith

namespace Session

/- A step that ends the loop before it copies. -/
theorem readStep_of_none
    {s : Session}
    {nbytes : Int}
    {buf : List UInt8}
    (hRead : s.reader s.runningTermPtr = .copying nbytes buf)
    (hIndex : s.copyIndex = none) :
    s.readStep = s.endLoop buf := by
  simp only [readStep, hRead, hIndex]

theorem readStep_of_some
    {s : Session}
    {nbytes : Int}
    {buf : List UInt8}
    {i : Nat}
    (hRead : s.reader s.runningTermPtr = .copying nbytes buf)
    (hIndex : s.copyIndex = some i) :
    s.readStep =
      if s.kbdChar i = newline then
        s.endLoop (buf ++ [s.kbdChar i])
      else
        s.setReader
          (.copying nbytes (buf ++ [s.kbdChar i])) := by
  simp only [readStep, hRead, hIndex]

/- A step that copies a character before the newline. -/
theorem readStep_goesOn
    {s : Session}
    {nbytes : Int}
    {buf : List UInt8}
    {i : Nat}
    (hRead : s.reader s.runningTermPtr = .copying nbytes buf)
    (hIndex : s.copyIndex = some i)
    (hChar : s.kbdChar i ≠ newline) :
    s.readStep.runningTermPtr = s.runningTermPtr ∧
      (s.readStep.line s.readStep.kbdBuf).kbdBuf =
        (s.line s.kbdBuf).kbdBuf ∧
      s.readStep.reader s.readStep.runningTermPtr =
        .copying nbytes (buf ++ [s.kbdChar i]) := by
  rw [readStep_of_some hRead hIndex, if_neg hChar]
  exact ⟨rfl, rfl, Function.update_self _ _ _⟩

/- A step that ends the loop is the last one. -/
theorem run_endLoop
    (fs : FileSystem)
    {s : Session}
    {buf : List UInt8}
    (hStep : s.readStep = s.endLoop buf) :
    (Logic.run (step fs) s
        (List.replicate 1 .readStep)).reader
      s.runningTermPtr = .finishing buf := by
  rw [List.replicate_one, Logic.run_cons, Logic.run_nil,
    step, hStep]
  exact Function.update_self _ _ _

/-
  Steps with nothing between them copy what the loop of
  `terminalRead` copies.
-/
theorem run_readSteps
    (fs : FileSystem)
    {s : Session}
    {nbytes : Int}
    {buf : List UInt8}
    (hRead : s.reader s.runningTermPtr = .copying nbytes buf)
    {mem : Ptr}
    (hMem : StartsWith mem buf) :
    ∃ m buf',
      (Logic.run (step fs) s
          (List.replicate m .readStep)).reader
        s.runningTermPtr = .finishing buf' ∧
      (readKbdLoop (s.line s.kbdBuf).kbdBuf
        (nbytes.toNat - buf.length) buf.length mem).1 =
          buf'.length ∧
      StartsWith
        (readKbdLoop (s.line s.kbdBuf).kbdBuf
          (nbytes.toNat - buf.length) buf.length mem).2
        buf' := by
  -- on the iterations that `nbytes` leaves
  generalize hFuel : nbytes.toNat - buf.length = fuel
  induction fuel generalizing s buf mem with
  | zero =>
      have hIndex : s.copyIndex = none := by
        simp only [copyIndex, hRead]
        exact if_neg (by omega)
      exact ⟨1, buf,
        run_endLoop fs (readStep_of_none hRead hIndex),
        rfl, hMem⟩
  | succ fuel ih =>
      by_cases hLong : buf.length > kbdBufSize - 1
      · have hIndex : s.copyIndex = none := by
          simp only [copyIndex, hRead]
          exact if_neg (fun h => h.2 hLong)
        rw [readKbdLoop, if_pos hLong]
        exact ⟨1, buf,
          run_endLoop fs (readStep_of_none hRead hIndex),
          rfl, hMem⟩
      · have hIndex : s.copyIndex = some buf.length := by
          simp only [copyIndex, hRead]
          exact if_pos ⟨by omega, hLong⟩
        have hNext : StartsWith
            (Function.update mem buf.length
              (s.kbdChar buf.length))
            (buf ++ [s.kbdChar buf.length]) :=
          hMem.append_char _
        have hLength :
            (buf ++ [s.kbdChar buf.length]).length =
              buf.length + 1 := by
          simp
        have hChar : (s.line s.kbdBuf).kbdBuf buf.length =
            s.kbdChar buf.length := rfl
        rw [readKbdLoop, if_neg hLong, hChar]
        by_cases hLast : s.kbdChar buf.length = newline
        · have hStep := readStep_of_some hRead hIndex
          rw [if_pos hLast] at hStep
          rw [if_pos hLast]
          exact ⟨1, buf ++ [s.kbdChar buf.length],
            run_endLoop fs hStep, hLength.symm, hNext⟩
        · rcases readStep_goesOn hRead hIndex hLast with
            ⟨hHere, hKbd, hRead'⟩
          rcases ih hRead' hNext (by omega) with
            ⟨m, buf', hRun, hCount, hCopied⟩
          rw [hKbd, hLength] at hCount hCopied
          rw [hHere] at hRun
          rw [if_neg hLast]
          refine ⟨m + 1, buf', ?_, hCount, hCopied⟩
          rw [List.replicate_succ, Logic.run_cons, step]
          exact hRun

end Session

end MartianPendulum
