import MartianPendulum.Input.Reader

/-
  The terminal that the characters of a read come from.

  `read_from_kbd_buf_to_buf` waits for the flag of the
  running terminal and copies from `kbd_buf`, which is the
  buffer of the viewed terminal.  A character it copies was
  typed at the reader's terminal exactly if that terminal is
  viewed and the cell holds a character at all.

  Key definitions include:
    * `OwnChar`
    * `ReadsWhileViewed`
    * `Recorded`

  Key theorems include:
    * `Recorded.step`
    * `ownChar_run_iff`
-/

------------------------------------------------------------
-- Provenance
------------------------------------------------------------

namespace MartianPendulum

/-
  A character copied to a process comes from the buffer of
  its own terminal, where it was stored by a key typed while
  that terminal was viewed.
-/
def OwnChar
    (s : Session)
    (e : InputEvent) : Prop :=
  e = .readStep → ∀ i, s.copyIndex = some i →
    s.kbdBuf = s.runningTermPtr ∧
      (i, s.kbdChar i) ∈ s.stored s.runningTermPtr

/-
  When a character is copied, the terminal of the process is
  viewed and the cell of its buffer has been written.
-/
def ReadsWhileViewed
    (s : Session)
    (e : InputEvent) : Prop :=
  e = .readStep → ∀ i, s.copyIndex = some i →
    s.viewingTermPtr = s.runningTermPtr ∧
      (s.line s.runningTermPtr).kbdBuf i ≠ 0

/-
  `kbd_buf` points to the buffer of the viewed terminal, and
  the buffers hold what was typed at their terminals.
-/
structure Recorded
    (s : Session) : Prop where
  kbdBuf : s.kbdBuf = s.viewingTermPtr
  cells : ∀ t i, (s.line t).kbdBuf i ≠ 0 →
    (i, (s.line t).kbdBuf i) ∈ s.stored t
  chars : ∀ t p, p ∈ s.stored t → p.2 ≠ 0

theorem Recorded.of_same
    {s s' : Session}
    (hRec : Recorded s)
    (hSame : s.SameStore s') :
    Recorded s' := by
  refine ⟨?_, ?_, ?_⟩
  · rw [hSame.kbdBuf, hSame.viewing]
    exact hRec.kbdBuf
  · intro t i hCell
    rw [hSame.cells] at hCell ⊢
    rw [hSame.stored]
    exact hRec.cells t i hCell
  · rw [hSame.stored]
    exact hRec.chars

end MartianPendulum

------------------------------------------------------------
-- Steps
------------------------------------------------------------

namespace MartianPendulum

/- The characters that a key adds to the history. -/
theorem press_type_stored
    (view : Tid)
    (b : Keyboard)
    (c : UInt8)
    (h : History) :
    (h.press view b (.type c)).stored =
      if b.hasRoom c then
        Function.update h.stored view
          ((b.bufPos, c) :: h.stored view)
      else h.stored := by
  cases hRoom : b.hasRoom c with
  | true =>
      simp only [History.press, History.enter, History.put,
        History.store, hRoom, if_true]
      split
      · split
        · rfl
        · rfl
      · split
        · rfl
        · rfl
  | false =>
      simp only [History.press, History.enter, History.put,
        hRoom, if_false, Bool.false_eq_true]
      split
      · split
        · rfl
        · rfl
      · split
        · rfl
        · rfl

/- A stored character is recorded where it is stored. -/
theorem Recorded.type
    {s s' : Session}
    {c : UInt8}
    (hRec : Recorded s)
    (hPress : s.Pressed (.type c) s') :
    Recorded s' := by
  have hChar := hPress.char c rfl
  have hStored : s'.stored =
      if s.hasRoom c then
        Function.update s.stored s.viewingTermPtr
          ((s.bufPos, c) :: s.stored s.viewingTermPtr)
      else s.stored := by
    rw [hPress.history]
    exact press_type_stored _ _ c s.toHistory
  have hLines := hPress.lines
  simp only [Stroke.keyboard,
    Keyboard.putInBuf_eq hRec.kbdBuf] at hLines
  cases hRoom : s.hasRoom c with
  | false =>
      simp only [hRoom, if_false, Bool.false_eq_true]
        at hLines hStored
      exact hRec.of_same ⟨hLines.kbdBuf, hPress.viewing,
        fun t => by rw [hLines.line], hStored⟩
  | true =>
      simp only [hRoom, if_true] at hLines hStored
      refine ⟨?_, ?_, ?_⟩
      · rw [hLines.kbdBuf, hPress.viewing]
        exact hRec.kbdBuf
      · intro t i hCell
        rw [hLines.line] at hCell ⊢
        rw [hStored]
        by_cases ht : t = s.viewingTermPtr
        · subst ht
          simp only [Function.update_self] at hCell ⊢
          by_cases hi : i = s.bufPos
          · subst hi
            simp
          · rw [Function.update_of_ne hi] at hCell ⊢
            exact List.mem_cons_of_mem _
              (hRec.cells _ i hCell)
        · simp only [Function.update_of_ne ht] at hCell ⊢
          exact hRec.cells t i hCell
      · intro t p hp
        rw [hStored] at hp
        by_cases ht : t = s.viewingTermPtr
        · subst ht
          rw [Function.update_self, List.mem_cons] at hp
          rcases hp with rfl | hp
          · exact hChar
          · exact hRec.chars _ p hp
        · rw [Function.update_of_ne ht] at hp
          exact hRec.chars t p hp

/- A switch moves `kbd_buf` with the viewed terminal. -/
theorem Recorded.view
    {s s' : Session}
    {target : Tid}
    (hRec : Recorded s)
    (hPress : s.Pressed (.view target) s') :
    Recorded s' := by
  have hStored : s'.stored = s.stored := by
    rw [hPress.history]
    rfl
  have hLines := hPress.lines
  have hView : s'.viewingTermPtr = target := hPress.viewing
  simp only [Stroke.keyboard] at hLines
  by_cases hSame : target = s.viewingTermPtr
  · rw [if_pos hSame] at hLines
    exact hRec.of_same ⟨hLines.kbdBuf, hView.trans hSame,
      fun t => by rw [hLines.line], hStored⟩
  · rw [if_neg hSame] at hLines
    have hCells : ∀ t,
        (s'.line t).kbdBuf = (s.line t).kbdBuf := by
      intro t
      rw [hLines.line]
      simp only [Keyboard.switchLine, Keyboard.setLine]
      by_cases ht : t = s.viewingTermPtr
      · subst ht
        rw [Function.update_self]
      · rw [Function.update_of_ne ht]
    refine ⟨?_, ?_, ?_⟩
    · rw [hLines.kbdBuf, hView]
      rfl
    · intro t i hCell
      rw [hCells] at hCell ⊢
      rw [hStored]
      exact hRec.cells t i hCell
    · rw [hStored]
      exact hRec.chars

/- One step keeps the invariant. -/
theorem Recorded.step
    {s : Session}
    (hRec : Recorded s)
    (fs : FileSystem)
    (e : InputEvent) :
    Recorded (s.step fs e) := by
  rcases s.step_cases fs e with
    ⟨inputCode, -, hPress⟩ | ⟨-, hSame⟩ |
    ⟨nbytes, -, hStay | ⟨-, hRead⟩⟩ | ⟨-, hRead⟩
  · generalize s.step fs e = s' at hPress ⊢
    generalize s.stroke inputCode = a at hPress
    cases a with
    | flags =>
        exact hRec.of_same ⟨hPress.lines.kbdBuf,
          hPress.viewing,
          fun t => by rw [hPress.lines.line]; rfl,
          by rw [hPress.history]; rfl⟩
    | erase =>
        exact hRec.of_same ⟨hPress.lines.kbdBuf,
          hPress.viewing,
          fun t => by rw [hPress.lines.line]; rfl,
          by rw [hPress.history]; rfl⟩
    | clear =>
        exact hRec.of_same ⟨hPress.lines.kbdBuf,
          hPress.viewing,
          fun t => by rw [hPress.lines.line]; rfl,
          by rw [hPress.history]; rfl⟩
    | view target => exact hRec.view hPress
    | type c => exact hRec.type hPress
  · exact hRec.of_same ⟨by rw [hSame.keyboard],
      hSame.viewing, fun t => by rw [hSame.keyboard],
      by rw [hSame.history]⟩
  · rw [hStay]
    exact hRec
  · rw [hRead]
    exact hRec.of_same ⟨rfl, rfl, fun _ => rfl, rfl⟩
  · rw [hRead]
    exact hRec.of_same s.sameStore_readStep

end MartianPendulum

------------------------------------------------------------
-- Runs
------------------------------------------------------------

namespace MartianPendulum

/- Where the invariant holds, the conditions agree. -/
theorem Recorded.ownChar_iff
    {s : Session}
    (hRec : Recorded s)
    (e : InputEvent) :
    OwnChar s e ↔ ReadsWhileViewed s e := by
  constructor
  · intro hOwn hRead i hIndex
    rcases hOwn hRead i hIndex with ⟨hBuf, hStored⟩
    have hChar := hRec.chars _ _ hStored
    unfold Session.kbdChar at hChar
    rw [hBuf] at hChar
    exact ⟨hRec.kbdBuf.symm.trans hBuf, hChar⟩
  · intro hViewed hRead i hIndex
    rcases hViewed hRead i hIndex with ⟨hView, hChar⟩
    have hBuf : s.kbdBuf = s.runningTermPtr :=
      hRec.kbdBuf.trans hView
    refine ⟨hBuf, ?_⟩
    unfold Session.kbdChar
    rw [hBuf]
    exact hRec.cells _ i hChar

/- The static buffers start as zeros. -/
theorem recorded_start
    (k : Kernel) :
    Recorded (Session.start k.boot) := by
  refine ⟨rfl, ?_, ?_⟩
  · intro t i hCell
    exact absurd rfl hCell
  · intro t p hp
    exact absurd hp List.not_mem_nil

/-
  Along a run, every character copied to a process was typed
  at its own terminal exactly if every character is copied
  while that terminal is viewed, from a cell that has been
  written.
-/
theorem ownChar_run_iff
    (fs : FileSystem)
    (k : Kernel)
    (es : List InputEvent) :
    Logic.Along (Session.step fs) OwnChar
        (Session.start k.boot) es ↔
      Logic.Along (Session.step fs) ReadsWhileViewed
        (Session.start k.boot) es :=
  Logic.along_congr
    (fun _ e hRec => hRec.step fs e)
    (fun _ e hRec => hRec.ownChar_iff e)
    (recorded_start k) es

end MartianPendulum

------------------------------------------------------------
-- A Read of Another Terminal
------------------------------------------------------------

namespace MartianPendulum

/-
  The shell of the first terminal reads.  Enter is pressed
  there, then Alt and F2, then `h` in the second terminal.
-/
def leak : List InputEvent :=
  [.read 128, .kernel (.key 0x1C), .kernel (.key 0x38),
    .kernel (.key 0x3C), .kernel (.key 0x23), .readStep]

/- The reader copies the `h`. -/
theorem leak_copies
    {g : Control}
    (hView : g.viewingTermPtr = 0)
    (hRun : g.runningTermPtr = 0)
    (d : Display) :
    let s := Logic.run (Session.step sampleFs)
      { Session.start blankKernel.boot with
        toControl := g
        toDisplay := d } leak
    s.copyIndex = some 0 ∧ s.kbdChar 0 = ch 'h' ∧
      s.kbdBuf = 1 ∧ s.runningTermPtr = 0 := by
  rcases g with
    ⟨table, tables, termArr, running, viewing, x, y⟩
  dsimp only at hView hRun
  subst hView hRun
  refine ⟨?_, ?_, ?_, ?_⟩
  · rfl
  · rfl
  · rfl
  · rfl

theorem read_leaks :
    ¬ Logic.Along (Session.step sampleFs) OwnChar
      (Session.start blankKernel.boot)
      (List.replicate 3
          (.kernel (.tick blankRegs blankFrame)) ++
        (leak ++ [.readStep])) := by
  intro hAlong
  rcases
      Session.run_three_ticks sampleFs blankKernel
        blankRegs blankFrame with
    ⟨g, d, hView, hRun, hTicks⟩
  rw [Logic.along_append, hTicks] at hAlong
  rcases leak_copies hView hRun d with
    ⟨hIndex, -, hBuf, hHere⟩
  have hOwn := hAlong.2.split rfl 0 hIndex
  rw [hBuf, hHere] at hOwn
  exact absurd hOwn.1 (by decide)

end MartianPendulum
