import MartianPendulum.Input.Reader

/-
  Lines and the keys typed after them.

  Enter makes the buffer ready and moves `buf_pos` back to
  its start, so the keys typed before the line is read go
  over it.  The line stays intact exactly if each of them
  repeats the character that it overwrites.

  Without switches everything happens at the viewed
  terminal.  `LineView` is what a session has for it, and
  `LineStep` lists what a step can do to that.

  Key definitions include:
    * `LineIntact`
    * `StaysViewed`
    * `RepeatsLine`
    * `LineStep`
    * `Lines`

  Key theorems include:
    * `Session.step_lineStep`
    * `Lines.step`
    * `Lines.repeats`
    * `lineIntact_run_iff`
-/

------------------------------------------------------------
-- Lines
------------------------------------------------------------

namespace MartianPendulum

/- What a session has for the viewed terminal. -/
structure LineView where
  pos : Nat
  kbd : Ptr
  ready : Bool
  typing : List UInt8
  entered : List UInt8
  pending : Bool
  reader : Reader

def Session.lineView
    (s : Session) : LineView :=
  { pos := s.bufPos
    kbd := (s.line s.viewingTermPtr).kbdBuf
    ready := (s.line s.viewingTermPtr).kbdBufReady
    typing := s.typing s.viewingTermPtr
    entered := s.entered s.viewingTermPtr
    pending := s.pending s.viewingTermPtr
    reader := s.reader s.viewingTermPtr }

/-
  From Enter until a read has copied the line, the buffer
  holds the whole line and its newline, and what a read has
  copied is a prefix of the line.
-/
structure LineIntact
    (l : LineView) : Prop where
  holds : l.pending = true →
    (∃ chars, newline ∉ chars ∧
      l.entered = chars ++ [newline]) ∧
      StartsWith l.kbd l.entered
  copied : ∀ nbytes buf,
    l.reader = .copying nbytes buf → buf <+: l.entered
  delivered : ∀ buf,
    l.reader = .finishing buf → buf <+: l.entered

/- The viewed terminal is not switched. -/
def StaysViewed
    (s : Session)
    (e : InputEvent) : Prop :=
  ∀ inputCode t, e = .kernel (.key inputCode) →
    s.stroke inputCode = .view t → t = s.viewingTermPtr

/- The character that an event stores. -/
def Session.storedChar
    (s : Session) :
    InputEvent → Option UInt8
| .kernel (.key inputCode) =>
    (s.stroke inputCode).stored s.toKeyboard
| _ => none

/-
  A character stored while a line is to be copied is the one
  that the cell holds.
-/
def RepeatsLine
    (s : Session)
    (e : InputEvent) : Prop :=
  ∀ c, s.storedChar e = some c →
    s.lineView.pending = true →
      s.lineView.kbd s.bufPos = c

end MartianPendulum

------------------------------------------------------------
-- Buffers
------------------------------------------------------------

namespace MartianPendulum

/- A prefix without the newline is followed by a character. -/
theorem prefix_append_char
    {kbd : Ptr}
    {whole chars buf : List UInt8}
    (hWhole : whole = chars ++ [newline])
    (hStart : StartsWith kbd whole)
    (hBuf : buf <+: whole)
    (hClean : newline ∉ buf) :
    buf ++ [kbd buf.length] <+: whole := by
  rcases hBuf with ⟨rest, hRest⟩
  cases rest with
  | nil =>
      exfalso
      apply hClean
      rw [List.append_nil] at hRest
      rw [hRest, hWhole]
      simp
  | cons c rest =>
      have hChar : whole[buf.length]? = some c := by
        rw [← hRest]
        simp
      rw [hStart _ _ hChar]
      exact ⟨rest, by rw [← hRest]; simp⟩

end MartianPendulum

------------------------------------------------------------
-- Steps of the Viewed Terminal
------------------------------------------------------------

namespace MartianPendulum

/- The line being typed takes 127 characters. -/
def LineView.typed
    (c : UInt8)
    (l : LineView) : List UInt8 :=
  if l.typing.length < kbdBufSize - 1 then l.typing ++ [c]
  else l.typing

/- What a step can do, with the character it stores. -/
inductive LineStep
    (l : LineView) :
    Option UInt8 → LineView → Prop
| same : LineStep l none l
| erase :
    LineStep l none
      { l with
        pos := l.pos - 1
        typing := l.typing.dropLast }
| full (c : UInt8) (hFull : l.pos = kbdBufSize - 1) :
    LineStep l none { l with typing := l.typed c }
| char (c : UInt8) (hChar : c ≠ newline)
    (hRoom : l.pos < kbdBufSize - 1) :
    LineStep l (some c)
      { l with
        pos := l.pos + 1
        kbd := Function.update l.kbd l.pos c
        typing := l.typed c }
| enter (hReady : l.ready = false) :
    LineStep l (some newline)
      { l with
        pos := 0
        kbd := Function.update l.kbd l.pos newline
        ready := true
        typing := []
        entered := l.typing ++ [newline]
        pending := true }
| enterAgain (hReady : l.ready = true) :
    LineStep l (some newline)
      { l with
        pos := 0
        kbd := Function.update l.kbd l.pos newline
        typing := [] }
| call (nbytes : Int) (hIdle : l.reader = .idle) :
    LineStep l none { l with reader := .waiting nbytes }
| wake (nbytes : Int) (hRead : l.reader = .waiting nbytes)
    (hReady : l.ready = true) :
    LineStep l none { l with reader := .copying nbytes [] }
| copy (nbytes : Int) (buf : List UInt8)
    (hRead : l.reader = .copying nbytes buf)
    (hChar : l.kbd buf.length ≠ newline) :
    LineStep l none
      { l with
        reader :=
          .copying nbytes (buf ++ [l.kbd buf.length]) }
| last (nbytes : Int) (buf : List UInt8)
    (hRead : l.reader = .copying nbytes buf) :
    LineStep l none
      { l with
        reader := .finishing (buf ++ [l.kbd buf.length])
        pending := false }
| stop (nbytes : Int) (buf : List UInt8)
    (hRead : l.reader = .copying nbytes buf) :
    LineStep l none
      { l with
        reader := .finishing buf
        pending := false }
| finish (buf : List UInt8)
    (hRead : l.reader = .finishing buf) :
    LineStep l none
      { l with
        reader := .idle
        ready := false }

namespace History

variable (t : Tid)
variable (c : UInt8)
variable (h : History)

theorem put_typing :
    (h.put t c).typing t =
      if (h.typing t).length < kbdBufSize - 1 then
        h.typing t ++ [c]
      else h.typing t := by
  unfold put
  split
  · exact Function.update_self _ _ _
  · rfl

theorem put_entered :
    (h.put t c).entered = h.entered := by
  unfold put
  split
  · rfl
  · rfl

theorem put_pending :
    (h.put t c).pending = h.pending := by
  unfold put
  split
  · rfl
  · rfl

end History

namespace Session

variable {s s' : Session}

/- Enter at the viewed terminal. -/
theorem Pressed.lineStep_enter
    (hPress : s.Pressed (.type newline) s')
    (hBuf : s.kbdBuf = s.viewingTermPtr)
    (hRoom : s.hasRoom newline = true) :
    LineStep s.lineView (some newline) s'.lineView := by
  have hView : s'.viewingTermPtr = s.viewingTermPtr :=
    hPress.viewing
  have hLines := hPress.lines
  have hHistory := hPress.history
  simp only [Stroke.keyboard, Keyboard.putInBuf_eq hBuf,
    hRoom, if_true] at hLines
  simp only [History.press, hRoom, if_true] at hHistory
  cases hReady :
      (s.line s.viewingTermPtr).kbdBufReady with
  | true =>
      have hStep := LineStep.enterAgain (l := s.lineView)
        hReady
      simp only [History.enter, hReady, if_true]
        at hHistory
      convert hStep using 1
      simp only [lineView, hView, hLines.bufPos,
        hLines.line, hPress.reader, hHistory, hReady,
        Function.update_self, Bool.true_or]
      rfl
  | false =>
      have hStep := LineStep.enter (l := s.lineView) hReady
      simp only [History.enter, hReady, if_false,
        Bool.false_eq_true] at hHistory
      convert hStep using 1
      simp only [lineView, hView, hLines.bufPos,
        hLines.line, hPress.reader, hHistory, hReady,
        Function.update_self, Bool.false_or,
        decide_true]
      rfl

/- A character before Enter, with and without room. -/
theorem Pressed.lineStep_char
    {c : UInt8}
    (hPress : s.Pressed (.type c) s')
    (hBuf : s.kbdBuf = s.viewingTermPtr)
    (hPos : s.bufPos ≤ kbdBufSize - 1)
    (hChar : c ≠ newline) :
    LineStep s.lineView
      (if s.hasRoom c then some c else none)
      s'.lineView := by
  have hView : s'.viewingTermPtr = s.viewingTermPtr :=
    hPress.viewing
  have hLines := hPress.lines
  have hHistory := hPress.history
  simp only [Stroke.keyboard, Keyboard.putInBuf_eq hBuf,
    hChar, if_false] at hLines
  simp only [History.press, hChar, if_false] at hHistory
  cases hRoom : s.hasRoom c with
  | true =>
      have hLow : s.bufPos < kbdBufSize - 1 := by
        simp only [Keyboard.hasRoom, decide_eq_true_eq,
          hChar, and_false, or_false] at hRoom
        unfold kbdBufSize at hRoom ⊢
        omega
      have hStep := LineStep.char (l := s.lineView) c
        hChar hLow
      simp only [hRoom, if_true] at hLines hHistory ⊢
      convert hStep using 1
      simp only [lineView, hView, hLines.bufPos,
        hLines.line, hPress.reader, hHistory,
        History.put_typing, History.put_entered,
        History.put_pending, Function.update_self,
        decide_false, Bool.or_false]
      rfl
  | false =>
      have hFull : s.bufPos = kbdBufSize - 1 := by
        simp only [Keyboard.hasRoom, decide_eq_false_iff_not,
          hChar, and_false, or_false] at hRoom
        unfold kbdBufSize at hRoom hPos ⊢
        omega
      have hStep := LineStep.full (l := s.lineView) c hFull
      simp only [hRoom, if_false, Bool.false_eq_true]
        at hLines hHistory ⊢
      convert hStep using 1
      simp only [lineView, hView, hLines.bufPos,
        hLines.line, hPress.reader, hHistory,
        History.put_typing, History.put_entered,
        History.put_pending]
      rfl

/- A character typed at the viewed terminal. -/
theorem Pressed.lineStep_type
    {c : UInt8}
    (hPress : s.Pressed (.type c) s')
    (hBuf : s.kbdBuf = s.viewingTermPtr)
    (hPos : s.bufPos ≤ kbdBufSize - 1) :
    LineStep s.lineView
      (if s.hasRoom c then some c else none)
      s'.lineView := by
  by_cases hEnter : c = newline
  · subst hEnter
    -- the last cell is kept for the newline
    have hRoom : s.hasRoom newline = true := by
      simp only [Keyboard.hasRoom, decide_eq_true_eq,
        and_true]
      omega
    rw [if_pos hRoom]
    exact hPress.lineStep_enter hBuf hRoom
  · exact hPress.lineStep_char hBuf hPos hEnter

/- A key that leaves the lines as they are. -/
theorem Pressed.lineStep_same
    {a : Stroke}
    (hPress : s.Pressed a s')
    (hBuf : s.kbdBuf = s.viewingTermPtr)
    (hView : a.viewing s.viewingTermPtr = s.viewingTermPtr)
    (hLines : a.keyboard s.viewingTermPtr s.toKeyboard =
      s.toKeyboard)
    (hHistory : s.toHistory.press s.viewingTermPtr
      s.toKeyboard a = s.toHistory) :
    LineStep s.lineView none s'.lineView ∧
      s'.kbdBuf = s'.viewingTermPtr := by
  have hSame := hPress.lines
  rw [hLines] at hSame
  have hEq : s'.lineView = s.lineView := by
    simp only [lineView, hPress.viewing, hView,
      hSame.bufPos, hSame.line, hPress.reader,
      hPress.history, hHistory]
  rw [hEq, hSame.kbdBuf, hPress.viewing, hView]
  exact ⟨.same, hBuf⟩

/- Every key but a switch is a step of the line. -/
theorem Pressed.lineStep
    {a : Stroke}
    (hPress : s.Pressed a s')
    (hBuf : s.kbdBuf = s.viewingTermPtr)
    (hPos : s.bufPos ≤ kbdBufSize - 1)
    (hStay : ∀ t, a = .view t → t = s.viewingTermPtr) :
    LineStep s.lineView (a.stored s.toKeyboard)
        s'.lineView ∧
      s'.kbdBuf = s'.viewingTermPtr := by
  have hView := hPress.viewing
  have hLines := hPress.lines
  have hHistory := hPress.history
  cases a with
  | flags =>
      exact hPress.lineStep_same hBuf rfl rfl rfl
  | erase =>
      have hEq : s'.lineView =
          { s.lineView with
            pos := s.lineView.pos - 1
            typing := s.lineView.typing.dropLast } := by
        simp only [lineView, hView, hLines.bufPos,
          hLines.line, hPress.reader, hHistory,
          Stroke.viewing, Stroke.keyboard, History.press,
          History.erase, Function.update_self]
      rw [hEq, hLines.kbdBuf, hView]
      exact ⟨.erase, hBuf⟩
  | clear =>
      exact hPress.lineStep_same hBuf rfl rfl rfl
  | view t =>
      have hSame := hStay t rfl
      subst hSame
      exact hPress.lineStep_same hBuf rfl (if_pos rfl) rfl
  | type c =>
      refine ⟨hPress.lineStep_type hBuf hPos, ?_⟩
      have hKeep : (s.putInBuf s.viewingTermPtr c).kbdBuf =
          s.kbdBuf := by
        rw [Keyboard.putInBuf_eq hBuf]
        split
        · rfl
        · rfl
      rw [hLines.kbdBuf, hView]
      exact hKeep.trans hBuf

/- A reader of another terminal does not matter. -/
theorem lineView_setReader_of_ne
    (hNe : s.viewingTermPtr ≠ s.runningTermPtr)
    (r : Reader) :
    (s.setReader r).lineView = s.lineView := by
  simp only [lineView, setReader, Function.update_of_ne hNe]

theorem lineView_setReader
    (hSame : s.viewingTermPtr = s.runningTermPtr)
    (r : Reader) :
    (s.setReader r).lineView =
      { s.lineView with reader := r } := by
  simp only [lineView, setReader, hSame,
    Function.update_self]

theorem lineView_endLoop_of_ne
    (hNe : s.viewingTermPtr ≠ s.runningTermPtr)
    (buf : List UInt8) :
    (s.endLoop buf).lineView = s.lineView := by
  simp only [lineView, endLoop, setReader, History.copied,
    Function.update_of_ne hNe]

theorem lineView_endLoop
    (hSame : s.viewingTermPtr = s.runningTermPtr)
    (buf : List UInt8) :
    (s.endLoop buf).lineView =
      { s.lineView with
        reader := .finishing buf
        pending := false } := by
  simp only [lineView, endLoop, setReader, History.copied,
    hSame, Function.update_self]

theorem readStep_lineView_of_ne
    (hNe : s.viewingTermPtr ≠ s.runningTermPtr) :
    s.readStep.lineView = s.lineView := by
  unfold readStep
  split
  · rfl
  · split
    · exact lineView_setReader_of_ne hNe _
    · rfl
  · split
    · split
      · exact lineView_endLoop_of_ne hNe _
      · exact lineView_setReader_of_ne hNe _
    · exact lineView_endLoop_of_ne hNe _
  · simp only [lineView, setReader, Keyboard.setLine,
      Function.update_of_ne hNe]

/- A step of the read at the viewed terminal. -/
theorem readStep_lineStep
    (hBuf : s.kbdBuf = s.viewingTermPtr)
    (hSame : s.viewingTermPtr = s.runningTermPtr) :
    LineStep s.lineView none s.readStep.lineView := by
  have hReader : s.lineView.reader =
      s.reader s.runningTermPtr := by
    rw [← hSame]
    rfl
  have hChar : ∀ i, s.kbdChar i = s.lineView.kbd i := by
    intro i
    unfold kbdChar
    rw [hBuf]
    rfl
  unfold readStep
  split
  · exact .same
  next nbytes hRead =>
    split
    next hReady =>
      rw [lineView_setReader hSame]
      refine .wake nbytes (hReader.trans hRead) ?_
      rw [← hSame] at hReady
      exact hReady
    · exact .same
  next nbytes buf hRead =>
    split
    next i hIndex =>
      have hi : i = buf.length := by
        simp only [copyIndex, hRead] at hIndex
        split at hIndex
        · exact (Option.some.inj hIndex).symm
        · cases hIndex
      subst hi
      rw [hChar]
      split
      · rw [lineView_endLoop hSame]
        exact .last nbytes buf (hReader.trans hRead)
      next hMore =>
        rw [lineView_setReader hSame]
        exact .copy nbytes buf (hReader.trans hRead) hMore
    · rw [lineView_endLoop hSame]
      exact .stop nbytes buf (hReader.trans hRead)
  next buf hRead =>
    have hStep := LineStep.finish (l := s.lineView) buf
      (hReader.trans hRead)
    convert hStep using 1
    simp only [lineView, setReader, Keyboard.setLine, hSame,
      Function.update_self]

/-
  Every step of a session without switches is a step of its
  line.
-/
theorem step_lineStep
    (hBuf : s.kbdBuf = s.viewingTermPtr)
    (hPos : s.bufPos ≤ kbdBufSize - 1)
    (fs : FileSystem)
    {e : InputEvent}
    (hStay : StaysViewed s e) :
    LineStep s.lineView (s.storedChar e)
        (s.step fs e).lineView ∧
      (s.step fs e).kbdBuf =
        (s.step fs e).viewingTermPtr := by
  rcases s.step_cases fs e with
    ⟨inputCode, hEvent, hPress⟩ |
    ⟨⟨e', hEvent, hKey⟩, hSame⟩ |
    ⟨nbytes, hEvent, hStays | ⟨hIdle, hRead⟩⟩ |
    ⟨hEvent, hRead⟩
  · subst hEvent
    exact hPress.lineStep hBuf hPos
      (fun t hView => hStay inputCode t rfl hView)
  · subst hEvent
    have hNone : s.storedChar (.kernel e') = none := by
      cases e' with
      | key inputCode => exact absurd rfl (hKey inputCode)
      | tick => rfl
      | execute => rfl
      | halt => rfl
      | vidmap => rfl
      | write => rfl
      | store => rfl
    rw [hNone]
    constructor
    · convert LineStep.same using 1
      simp only [lineView, hSame.keyboard, hSame.viewing,
        hSame.history, hSame.reader]
    · rw [hSame.keyboard, hSame.viewing]
      exact hBuf
  · subst hEvent
    rw [hStays]
    exact ⟨.same, hBuf⟩
  · subst hEvent
    rw [hRead]
    refine ⟨?_, hBuf⟩
    by_cases hHere : s.viewingTermPtr = s.runningTermPtr
    · rw [lineView_setReader hHere]
      refine .call nbytes ?_
      rw [← hHere] at hIdle
      exact Reader.eq_idle hIdle
    · rw [lineView_setReader_of_ne hHere]
      exact .same
  · subst hEvent
    rw [hRead]
    constructor
    · by_cases hHere : s.viewingTermPtr = s.runningTermPtr
      · exact readStep_lineStep hBuf hHere
      · rw [readStep_lineView_of_ne hHere]
        exact .same
    · rw [s.sameStore_readStep.kbdBuf,
        s.sameStore_readStep.viewing]
      exact hBuf

end Session

end MartianPendulum

------------------------------------------------------------
-- The Invariant
------------------------------------------------------------

namespace MartianPendulum

/-
  The buffer starts with the characters typed since the last
  Enter, the flag says that a line is to be copied or has
  just been, and while one is to be copied the typed
  characters are fewer than those of the line.
-/
structure Lines
    (l : LineView) : Prop where
  pos : l.pos = l.typing.length
  short : l.typing.length ≤ kbdBufSize - 1
  cells : StartsWith l.kbd l.typing
  clean : newline ∉ l.typing
  ready : l.ready = true ↔
    l.pending = true ∨ ∃ buf, l.reader = .finishing buf
  reading : ∀ nbytes buf,
    l.reader = .copying nbytes buf →
      l.pending = true ∧ newline ∉ buf
  done : ∀ buf,
    l.reader = .finishing buf → l.pending = false
  ahead : l.pending = true →
    l.typing.length < l.entered.length
  intact : LineIntact l

namespace Lines

variable {l : LineView}

theorem typed_of_room
    (hLines : Lines l)
    (c : UInt8)
    (hRoom : l.pos < kbdBufSize - 1) :
    l.typed c = l.typing ++ [c] := by
  rw [hLines.pos] at hRoom
  exact if_pos hRoom

theorem typed_of_full
    (hLines : Lines l)
    (c : UInt8)
    (hFull : l.pos = kbdBufSize - 1) :
    l.typed c = l.typing := by
  rw [hLines.pos] at hFull
  exact if_neg (by omega)

/- A repeated character leaves the buffer as it is. -/
theorem update_eq
    {c : UInt8}
    (hChar : l.kbd l.pos = c) :
    Function.update l.kbd l.pos c = l.kbd := by
  rw [← hChar]
  exact Function.update_eq_self l.pos l.kbd

/- The line after a store that it survives. -/
theorem intact_store
    (hLines : Lines l)
    {c : UInt8}
    (hRepeat : l.pending = true → l.kbd l.pos = c)
    (pos : Nat)
    (typing : List UInt8) :
    LineIntact
      { l with
        pos := pos
        kbd := Function.update l.kbd l.pos c
        typing := typing } := by
  refine ⟨?_, hLines.intact.copied, hLines.intact.delivered⟩
  intro hPending
  rw [update_eq (hRepeat hPending)]
  exact hLines.intact.holds hPending

theorem erase
    (hLines : Lines l) :
    Lines
      { l with
        pos := l.pos - 1
        typing := l.typing.dropLast } := by
  have hLength : l.typing.dropLast.length =
      l.typing.length - 1 := List.length_dropLast
  refine ⟨?_, ?_, hLines.cells.dropLast, ?_, hLines.ready,
    hLines.reading, hLines.done, ?_, ?_⟩
  · dsimp only
    rw [hLength, hLines.pos]
  · have hShort := hLines.short
    dsimp only
    omega
  · exact fun hMem =>
      hLines.clean (List.mem_of_mem_dropLast hMem)
  · intro hPending
    have hAhead := hLines.ahead hPending
    dsimp only
    omega
  · exact ⟨hLines.intact.holds, hLines.intact.copied,
      hLines.intact.delivered⟩

/-
  A character that repeats one of the line is not its
  newline, so the typed characters stay behind the line.
-/
theorem char
    (hLines : Lines l)
    {c : UInt8}
    (hChar : c ≠ newline)
    (hRoom : l.pos < kbdBufSize - 1)
    (hRepeat : l.pending = true → l.kbd l.pos = c) :
    Lines
      { l with
        pos := l.pos + 1
        kbd := Function.update l.kbd l.pos c
        typing := l.typed c } := by
  have hPos := hLines.pos
  rw [hLines.typed_of_room c hRoom]
  refine ⟨?_, ?_, ?_, ?_, hLines.ready, hLines.reading,
    hLines.done, ?_, hLines.intact_store hRepeat _ _⟩
  · simp [hPos]
  · simp only [List.length_append, List.length_singleton]
    omega
  · dsimp only
    rw [hPos]
    exact hLines.cells.append_char c
  · simp only [List.mem_append, List.mem_singleton, not_or]
    exact ⟨hLines.clean, fun hEq => hChar hEq.symm⟩
  · intro hPending
    have hAhead := hLines.ahead hPending
    rcases hLines.intact.holds hPending with
      ⟨⟨chars, -, hLine⟩, hStart⟩
    have hHere := hRepeat hPending
    have hBefore : l.typing.length ≠ chars.length := by
      intro hEq
      have hLast : l.entered[l.pos]? = some newline := by
        rw [hLine, hPos, hEq]
        simp
      exact hChar (hHere.symm.trans (hStart _ _ hLast))
    rw [hLine] at hAhead ⊢
    simp only [List.length_append, List.length_singleton]
      at hAhead ⊢
    omega

/- Enter makes the typed characters the line. -/
theorem enter
    (hLines : Lines l)
    (hReady : l.ready = false) :
    Lines
      { l with
        pos := 0
        kbd := Function.update l.kbd l.pos newline
        ready := true
        typing := []
        entered := l.typing ++ [newline]
        pending := true } := by
  have hNot : ¬ (l.pending = true ∨
      ∃ buf, l.reader = .finishing buf) := by
    rw [← hLines.ready, hReady]
    decide
  have hQuiet : ∀ nbytes buf,
      l.reader ≠ .copying nbytes buf :=
    fun nbytes buf hRead =>
      hNot (Or.inl (hLines.reading nbytes buf hRead).1)
  have hIdle : ∀ buf, l.reader ≠ .finishing buf :=
    fun buf hRead => hNot (Or.inr ⟨buf, hRead⟩)
  refine ⟨rfl, Nat.zero_le _, .nil _, List.not_mem_nil,
    ⟨fun _ => Or.inl rfl, fun _ => rfl⟩,
    fun nbytes buf hRead =>
      absurd hRead (hQuiet nbytes buf),
    fun buf hRead => absurd hRead (hIdle buf), ?_, ?_⟩
  · intro _
    simp
  · refine ⟨?_, fun nbytes buf hRead =>
      absurd hRead (hQuiet nbytes buf),
      fun buf hRead => absurd hRead (hIdle buf)⟩
    intro _
    refine ⟨⟨l.typing, hLines.clean, rfl⟩, ?_⟩
    dsimp only
    rw [hLines.pos]
    exact hLines.cells.append_char newline

/- Enter again, before the line is copied. -/
theorem enterAgain
    (hLines : Lines l)
    (hRepeat : l.pending = true →
      l.kbd l.pos = newline) :
    Lines
      { l with
        pos := 0
        kbd := Function.update l.kbd l.pos newline
        typing := [] } := by
  refine ⟨rfl, Nat.zero_le _, .nil _, List.not_mem_nil,
    hLines.ready, hLines.reading, hLines.done, ?_,
    hLines.intact_store hRepeat _ _⟩
  intro hPending
  have hAhead := hLines.ahead hPending
  exact Nat.lt_of_le_of_lt (Nat.zero_le _) hAhead

/- A change of the reader alone. -/
theorem setReader
    (hLines : Lines l)
    {r : Reader}
    (hOld : ∀ buf, l.reader ≠ .finishing buf)
    (hNew : ∀ buf, r ≠ .finishing buf)
    (hRead : ∀ nbytes buf, r = .copying nbytes buf →
      (l.pending = true ∧ newline ∉ buf) ∧
        buf <+: l.entered) :
    Lines { l with reader := r } := by
  refine ⟨hLines.pos, hLines.short, hLines.cells,
    hLines.clean, ?_,
    fun nbytes buf h => (hRead nbytes buf h).1,
    fun buf h => absurd h (hNew buf), hLines.ahead, ?_⟩
  · rw [hLines.ready]
    simp [hOld, hNew]
  · exact ⟨hLines.intact.holds,
      fun nbytes buf h => (hRead nbytes buf h).2,
      fun buf h => absurd h (hNew buf)⟩

/- The exit of the `for` loop with a prefix of the line. -/
theorem endLoop
    (hLines : Lines l)
    (hReady : l.ready = true)
    {buf : List UInt8}
    (hPrefix : buf <+: l.entered) :
    Lines
      { l with
        reader := .finishing buf
        pending := false } := by
  refine ⟨hLines.pos, hLines.short, hLines.cells,
    hLines.clean, ?_, ?_, fun _ _ => rfl, ?_, ?_⟩
  · simp [hReady]
  · nofun
  · nofun
  · refine ⟨nofun, nofun, ?_⟩
    intro buf' hRead
    cases hRead
    exact hPrefix

/- The read resets the flag and returns. -/
theorem finish
    (hLines : Lines l)
    {buf : List UInt8}
    (hRead : l.reader = .finishing buf) :
    Lines
      { l with
        reader := .idle
        ready := false } := by
  have hDone := hLines.done buf hRead
  refine ⟨hLines.pos, hLines.short, hLines.cells,
    hLines.clean, ?_, nofun, nofun, hLines.ahead, ?_⟩
  · simp [hDone]
  · exact ⟨hLines.intact.holds, nofun, nofun⟩

/- The next character of the line goes to the reader. -/
theorem copied_prefix
    (hLines : Lines l)
    {nbytes : Int}
    {buf : List UInt8}
    (hRead : l.reader = .copying nbytes buf) :
    buf ++ [l.kbd buf.length] <+: l.entered := by
  rcases hLines.reading nbytes buf hRead with
    ⟨hPending, hClean⟩
  rcases hLines.intact.holds hPending with
    ⟨⟨chars, -, hLine⟩, hStart⟩
  exact prefix_append_char hLine hStart
    (hLines.intact.copied nbytes buf hRead) hClean

/- One step that repeats the line keeps the invariant. -/
theorem step
    {l' : LineView}
    {c : Option UInt8}
    (hLines : Lines l)
    (hStep : LineStep l c l')
    (hRepeat : ∀ x, c = some x → l.pending = true →
      l.kbd l.pos = x) :
    Lines l' := by
  cases hStep with
  | same => exact hLines
  | erase => exact hLines.erase
  | full c hFull =>
      rw [hLines.typed_of_full c hFull]
      exact hLines
  | char c hChar hRoom =>
      exact hLines.char hChar hRoom (hRepeat c rfl)
  | enter hReady => exact hLines.enter hReady
  | enterAgain hReady =>
      exact hLines.enterAgain (hRepeat newline rfl)
  | call nbytes hIdle =>
      exact hLines.setReader (by simp [hIdle]) (by simp)
        (by simp)
  | wake nbytes hRead hReady =>
      have hPending : l.pending = true := by
        rw [hLines.ready] at hReady
        simpa [hRead] using hReady
      refine hLines.setReader (by simp [hRead]) (by simp) ?_
      intro nbytes' buf hCopy
      cases hCopy
      exact ⟨⟨hPending, List.not_mem_nil⟩, List.nil_prefix⟩
  | copy nbytes buf hRead hMore =>
      rcases hLines.reading nbytes buf hRead with
        ⟨hPending, hClean⟩
      refine hLines.setReader (by simp [hRead]) (by simp) ?_
      intro nbytes' buf' hCopy
      cases hCopy
      refine ⟨⟨hPending, ?_⟩, hLines.copied_prefix hRead⟩
      simp only [List.mem_append, List.mem_singleton, not_or]
      exact ⟨hClean, fun hEq => hMore hEq.symm⟩
  | last nbytes buf hRead =>
      have hPending := (hLines.reading nbytes buf hRead).1
      exact hLines.endLoop
        (hLines.ready.mpr (Or.inl hPending))
        (hLines.copied_prefix hRead)
  | stop nbytes buf hRead =>
      have hPending := (hLines.reading nbytes buf hRead).1
      exact hLines.endLoop
        (hLines.ready.mpr (Or.inl hPending))
        (hLines.intact.copied nbytes buf hRead)
  | finish buf hRead => exact hLines.finish hRead

/- A store that leaves the line intact repeats it. -/
theorem repeats
    {l' : LineView}
    {c : UInt8}
    (hLines : Lines l)
    (hStep : LineStep l (some c) l')
    (hIntact : LineIntact l')
    (hPending : l.pending = true) :
    l.kbd l.pos = c := by
  have hAhead := hLines.ahead hPending
  rw [← hLines.pos] at hAhead
  have hOld := (hLines.intact.holds hPending).2 l.pos
    l.entered[l.pos] (List.getElem?_eq_getElem hAhead)
  have hStays : ∀ l₁ : LineView, LineIntact l₁ →
      l₁.pending = true → l₁.entered = l.entered →
      l₁.kbd = Function.update l.kbd l.pos c →
      c = l.entered[l.pos] := by
    intro l₁ hIntact₁ hPending₁ hEntered hKbd
    have hNew := (hIntact₁.holds hPending₁).2 l.pos
      l.entered[l.pos] (by
        rw [hEntered]
        exact List.getElem?_eq_getElem hAhead)
    rw [hKbd, Function.update_self] at hNew
    exact hNew
  rw [hOld]
  cases hStep with
  | char _ hChar hRoom =>
      exact (hStays _ hIntact hPending rfl rfl).symm
  | enter hReady =>
      rw [hLines.ready.mpr (Or.inl hPending)] at hReady
      cases hReady
  | enterAgain hReady =>
      exact (hStays _ hIntact hPending rfl rfl).symm

end Lines

end MartianPendulum

------------------------------------------------------------
-- Runs
------------------------------------------------------------

namespace MartianPendulum

/- The invariant of a session without switches. -/
structure Editing
    (s : Session) : Prop where
  kbdBuf : s.kbdBuf = s.viewingTermPtr
  lines : Lines s.lineView

theorem Editing.bufPos_le
    {s : Session}
    (hEdit : Editing s) :
    s.bufPos ≤ kbdBufSize - 1 := by
  have hShort := hEdit.lines.short
  rw [← hEdit.lines.pos] at hShort
  exact hShort

theorem editing_start
    {k : Kernel}
    (hFresh : Fresh k) :
    Editing (Session.start k) := by
  refine ⟨hFresh.kbdBuf, hFresh.bufPos, Nat.zero_le _,
    .nil _, List.not_mem_nil, ?_, nofun, nofun, nofun,
    ⟨nofun, nofun, nofun⟩⟩
  have hReady := hFresh.ready
  simp [Session.lineView, Session.start, hReady]

theorem Editing.step
    {s : Session}
    (hEdit : Editing s)
    (fs : FileSystem)
    {e : InputEvent}
    (hStay : StaysViewed s e)
    (hRepeat : RepeatsLine s e) :
    Editing (s.step fs e) := by
  rcases Session.step_lineStep
      hEdit.kbdBuf hEdit.bufPos_le fs hStay with
    ⟨hStep, hBuf⟩
  exact ⟨hBuf, hEdit.lines.step hStep hRepeat⟩

theorem Editing.repeatsLine
    {s : Session}
    (hEdit : Editing s)
    (fs : FileSystem)
    {e : InputEvent}
    (hStay : StaysViewed s e)
    (hIntact : LineIntact (s.step fs e).lineView) :
    RepeatsLine s e := by
  rcases Session.step_lineStep
      hEdit.kbdBuf hEdit.bufPos_le fs hStay with
    ⟨hStep, -⟩
  intro c hStored hPending
  rw [hStored] at hStep
  exact hEdit.lines.repeats hStep hIntact hPending

/-
  Along a run without switches, the lines entered stay
  intact until they are copied exactly if every character
  stored before then repeats the one it overwrites.
-/
theorem lineIntact_run_iff
    (fs : FileSystem)
    (k : Kernel)
    (hFresh : Fresh k)
    (es : List InputEvent)
    (hStay : Logic.Along (Session.step fs) StaysViewed
      (Session.start k) es) :
    (∀ es₁ es₂, es = es₁ ++ es₂ →
      LineIntact (Logic.run (Session.step fs)
        (Session.start k) es₁).lineView) ↔
      Logic.Along (Session.step fs) RepeatsLine
        (Session.start k) es :=
  Logic.reached_iff_along
    (P := fun s => LineIntact s.lineView)
    (fun _ hEdit => hEdit.lines.intact)
    (fun _ _ hEdit hStay hRepeat =>
      hEdit.step fs hStay hRepeat)
    (fun _ _ hEdit hStay hIntact =>
      hEdit.repeatsLine fs hStay hIntact)
    (editing_start hFresh) hStay

end MartianPendulum

------------------------------------------------------------
-- An Overwritten Line
------------------------------------------------------------

namespace MartianPendulum

/- Only F1, F2 and F3 switch. -/
theorem stroke_ne_view
    {inputCode : UInt8}
    (hLow : inputCode.toNat < 0x3B)
    (k : Kernel)
    (t : Tid) :
    k.stroke inputCode ≠ .view t := by
  unfold Kernel.stroke
  split
  · simp
  next hCode => omega
  next hCode => omega
  next hCode => omega
  · split
    · simp
    · split
      · split
        · simp
        · simp
      · simp

/- The keys below F1 keep the viewed terminal. -/
theorem staysViewed_run
    (fs : FileSystem)
    (s : Session)
    {es : List InputEvent}
    (hLow : ∀ inputCode,
      .kernel (.key inputCode) ∈ es →
        inputCode.toNat < 0x3B) :
    Logic.Along (Session.step fs) StaysViewed s es := by
  rw [Logic.along_iff_forall_split]
  rintro es₁ e es₂ rfl inputCode t rfl hView
  have hCode := hLow inputCode (by simp)
  exact absurd hView (stroke_ne_view hCode _ t)

/-
  `a` and Enter are typed in the first terminal, and then
  `b` before its shell reads.
-/
def overtype : List InputEvent :=
  [.kernel (.key 0x1E), .kernel (.key 0x1C),
    .kernel (.key 0x30)]

def overtyped : List InputEvent :=
  List.replicate 3 (.kernel (.tick blankRegs blankFrame)) ++
    overtype

theorem overtyped_staysViewed :
    Logic.Along (Session.step sampleFs) StaysViewed
      (Session.start blankKernel.boot) overtyped := by
  apply staysViewed_run
  intro inputCode hMem
  simp [overtyped, overtype] at hMem
  rcases hMem with rfl | rfl | rfl
  · decide
  · decide
  · decide

/-
  `a` and Enter again, but the next key is `a` as well, and
  `b` comes after the line is read.
-/
def retyped : List InputEvent :=
  List.replicate 3 (.kernel (.tick blankRegs blankFrame)) ++
    [.kernel (.key 0x1E), .kernel (.key 0x1C),
      .kernel (.key 0x1E), .read 128, .readStep, .readStep,
      .readStep, .readStep, .kernel (.key 0x30)]

theorem retyped_staysViewed :
    Logic.Along (Session.step sampleFs) StaysViewed
      (Session.start blankKernel.boot) retyped := by
  apply staysViewed_run
  intro inputCode hMem
  simp [retyped] at hMem
  rcases hMem with rfl | rfl | rfl | rfl
  · decide
  · decide
  · decide
  · decide

theorem repeatsLine_of_no_char
    {s : Session}
    {e : InputEvent}
    (hNone : s.storedChar e = none) :
    RepeatsLine s e := by
  intro c hStored
  rw [hNone] at hStored
  cases hStored

theorem repeatsLine_of_copied
    {s : Session}
    (hCopied : s.lineView.pending = false)
    (e : InputEvent) :
    RepeatsLine s e := by
  intro c _ hPending
  rw [hCopied] at hPending
  cases hPending

/- The second `a` is stored over the first one. -/
theorem retyped_repeatsLine :
    Logic.Along (Session.step sampleFs) RepeatsLine
      (Session.start blankKernel.boot) retyped := by
  refine ⟨?_, ?_, ?_, ?_, ?_, ?_, ?_, ?_, ?_, ?_, ?_, ?_,
    trivial⟩
  · exact repeatsLine_of_no_char rfl
  · exact repeatsLine_of_no_char rfl
  · exact repeatsLine_of_no_char rfl
  · exact repeatsLine_of_copied (by decide +kernel) _
  · exact repeatsLine_of_copied (by decide +kernel) _
  · intro c hStored _
    apply Option.some_inj.mp
    rw [← hStored]
    decide +kernel
  · exact repeatsLine_of_no_char rfl
  · exact repeatsLine_of_no_char rfl
  · exact repeatsLine_of_no_char rfl
  · exact repeatsLine_of_no_char rfl
  · exact repeatsLine_of_no_char rfl
  · exact repeatsLine_of_copied (by decide +kernel) _

/- The line is intact after the second `a` and at the end. -/
theorem lineIntact_run_iff_retyped :
    LineIntact (Logic.run (Session.step sampleFs)
        (Session.start blankKernel.boot)
        (retyped.take 6)).lineView ∧
      LineIntact (Logic.run (Session.step sampleFs)
        (Session.start blankKernel.boot)
        retyped).lineView := by
  have hIntact := (lineIntact_run_iff sampleFs
    blankKernel.boot (fresh_boot blankKernel) retyped
    retyped_staysViewed).mpr retyped_repeatsLine
  exact ⟨hIntact _ _ (List.take_append_drop 6 retyped).symm,
    hIntact retyped [] (List.append_nil retyped).symm⟩

/- What a stored character does. -/
theorem LineStep.of_char
    {l l' : LineView}
    {c : UInt8}
    (hStep : LineStep l (some c) l')
    (hChar : c ≠ newline) :
    l' =
      { l with
        pos := l.pos + 1
        kbd := Function.update l.kbd l.pos c
        typing := l.typed c } := by
  cases hStep with
  | char => rfl
  | enter => exact absurd rfl hChar
  | enterAgain => exact absurd rfl hChar

theorem LineStep.of_enter
    {l l' : LineView}
    (hStep : LineStep l (some newline) l')
    (hReady : l.ready = false) :
    l' =
      { l with
        pos := 0
        kbd := Function.update l.kbd l.pos newline
        ready := true
        typing := []
        entered := l.typing ++ [newline]
        pending := true } := by
  generalize hc : newline = c at hStep
  cases hStep with
  | char _ hChar => exact absurd hc.symm hChar
  | enter => rfl
  | enterAgain hAgain =>
      rw [hReady] at hAgain
      cases hAgain

/- A key that stores a character is a step of the line. -/
theorem Session.step_type
    {s : Session}
    (hBuf : s.kbdBuf = s.viewingTermPtr)
    {pos : Nat}
    (hPos : s.bufPos = pos)
    (hLow : pos ≤ kbdBufSize - 2)
    {inputCode c : UInt8}
    (hStroke : s.stroke inputCode = .type c)
    (fs : FileSystem) :
    LineStep s.lineView (some c)
      (s.step fs (.kernel (.key inputCode))).lineView := by
  have hStay : StaysViewed s (.kernel (.key inputCode)) := by
    rintro inputCode' t hEvent hView
    cases hEvent
    rw [hStroke] at hView
    cases hView
  subst hPos
  have hRoom : s.hasRoom c = true :=
    decide_eq_true (Or.inl hLow)
  have hStored : s.storedChar (.kernel (.key inputCode)) =
      some c := by
    simp only [storedChar, hStroke, Stroke.stored, hRoom,
      if_true]
  rw [← hStored]
  refine (s.step_lineStep hBuf ?_ fs hStay).1
  exact hLow.trans (by decide)

/- The buffer starts with the `b`. -/
theorem overtype_lineView
    {g : Control}
    (hView : g.viewingTermPtr = 0)
    (d : Display) :
    let s := Logic.run (Session.step sampleFs)
      { Session.start blankKernel.boot with
        toControl := g
        toDisplay := d } overtype
    s.lineView.pending = true ∧
      s.lineView.entered = [ch 'a', newline] ∧
      s.lineView.kbd 0 = ch 'b' := by
  rcases g with
    ⟨table, tables, termArr, running, viewing, x, y⟩
  dsimp only at hView
  subst hView
  let s₀ : Session :=
    { Session.start blankKernel.boot with
      toControl := ⟨table, tables, termArr, running, 0, x, y⟩
      toDisplay := d }
  let s₁ := s₀.step sampleFs (.kernel (.key 0x1E))
  let s₂ := s₁.step sampleFs (.kernel (.key 0x1C))
  let s₃ := s₂.step sampleFs (.kernel (.key 0x30))
  have hZero : 0 ≤ kbdBufSize - 2 := by decide
  have hOne : 1 ≤ kbdBufSize - 2 := by decide
  have h₁ : s₁.lineView = _ :=
    (s₀.step_type rfl rfl hZero rfl sampleFs).of_char
      (c := ch 'a') (by decide)
  have h₂ : s₂.lineView = _ :=
    (s₁.step_type rfl rfl hOne rfl sampleFs).of_enter
      (by rw [h₁]; rfl)
  have h₃ : s₃.lineView = _ :=
    (s₂.step_type rfl rfl hZero rfl sampleFs).of_char
      (c := ch 'b') (by decide)
  simp only [overtype, Logic.run_cons, Logic.run_nil]
  change s₃.lineView.pending = true ∧
    s₃.lineView.entered = [ch 'a', newline] ∧
    s₃.lineView.kbd 0 = ch 'b'
  rw [h₃, h₂, h₁]
  exact ⟨rfl, rfl, rfl⟩

theorem line_overwritten :
    Logic.Along (Session.step sampleFs) StaysViewed
        (Session.start blankKernel.boot) overtyped ∧
      ¬ LineIntact (Logic.run (Session.step sampleFs)
        (Session.start blankKernel.boot)
        overtyped).lineView := by
  refine ⟨overtyped_staysViewed, ?_⟩
  intro hIntact
  rcases
      Session.run_three_ticks sampleFs blankKernel
        blankRegs blankFrame with
    ⟨g, d, hView, -, hTicks⟩
  rw [overtyped, Logic.run_append, hTicks] at hIntact
  rcases overtype_lineView hView d with
    ⟨hPending, hEntered, hKbd⟩
  have hHolds := (hIntact.holds hPending).2 0 (ch 'a')
    (by rw [hEntered]; rfl)
  rw [hKbd] at hHolds
  exact absurd hHolds (by decide)

end MartianPendulum
