import MartianPendulum.Fish.Animation
import MartianPendulum.Logic.Pieces
import MartianPendulum.Programs.World

/-
  The fish program.

  `add_frames` reads two files at the same pace, one
  character of each at a time, and adds a node for each cell
  in which one of them has something.  A file whose line has
  ended waits for the other one, and a file that has ended
  is read as empty lines.

  Key definitions include:
    * `Channel.read`
    * `addFrames`
    * `Feed`
    * `frameArgs`

  Key theorems include:
    * `Channel.On.read`
    * `frameRow_spec`
    * `frameRows_spec`
-/

------------------------------------------------------------
-- Reading Two Files
------------------------------------------------------------

namespace MartianPendulum

/- The character `' '`. -/
def blank : UInt8 := 32

/- One of the files of `add_frames`: `fd0`, `c0`, `eof0`. -/
structure Channel where
  fd : Int
  c : UInt8
  eof : Bool

namespace Channel

/- A file just opened; `c` starts as `'0'`. -/
def fresh
    (fd : Int) : Channel :=
  { fd := fd, c := 48, eof := false }

/-
  The read of one character.  A line that has ended is not
  read further, and at the end of the file the character is
  a newline.
-/
def read
    (h : Host)
    (ch : Channel)
    (w : World) : Option (Channel × World) :=
  if ch.c = newline then some (ch, w)
  else do
    let (numBytes, buf, w) ←
      ece391Read h ch.fd (fun _ => ch.c) 1 w
    if numBytes = 0 then
      some ({ ch with c := newline, eof := true }, w)
    else some ({ ch with c := buf 0 }, w)

/- The end of a row; a file at its end is closed. -/
def endRow
    (ch : Channel)
    (w : World) : Channel × World :=
  if ch.eof then
    ({ ch with c := newline }, (ece391Close ch.fd w).2)
  else ({ ch with c := 48 }, w)

end Channel

/- The variables of `add_frames`, and what it acts on. -/
structure Frames where
  ch0 : Channel
  ch1 : Channel
  world : World
  blink : Blink

/- The `blink_struct` of a cell; `offset` is 40. -/
def frameArg
    (row col : Nat)
    (c0 c1 : UInt8) : BlinkArg :=
  { location := UInt16.ofNat (row * 80 + col + 40)
    onChar := if c0 = newline then blank else c0
    offChar := if c1 = newline then blank else c1
    onLength := 15
    offLength := 15 }

namespace Frames

def read
    (h : Host)
    (s : Frames) : Option Frames := do
  let (ch0, w) ← s.ch0.read h s.world
  let (ch1, w) ← s.ch1.read h w
  some { s with ch0 := ch0, ch1 := ch1, world := w }

/- A cell in which one of the characters shows. -/
def draw
    (row col : Nat)
    (s : Frames) : Frames :=
  if s.ch0.c ≠ blank ∧ s.ch0.c ≠ newline ∨
      s.ch1.c ≠ blank ∧ s.ch1.c ≠ newline then
    { s with
      blink := (s.blink.ioctlAdd
        (frameArg row col s.ch0.c s.ch1.c)).2 }
  else s

def endRow
    (s : Frames) : Frames :=
  let end0 := s.ch0.endRow s.world
  let end1 := s.ch1.endRow end0.2
  { s with ch0 := end0.1, ch1 := end1.1, world := end1.2 }

end Frames

/- The inner loop of `add_frames`. -/
def frameRow
    (h : Host)
    (row : Nat) :
    Nat → Nat → Frames → Option Frames
| 0, _, _ => none
| fuel + 1, col, s => do
    let s ← s.read h
    if s.ch0.c = newline ∧ s.ch1.c = newline then some s
    else frameRow h row fuel (col + 1) (s.draw row col)

/- The outer loop of `add_frames`. -/
def frameRows
    (h : Host)
    (width : Nat) :
    Nat → Nat → Frames → Option Frames
| 0, _, _ => none
| fuel + 1, row, s =>
    if s.ch0.eof = false ∨ s.ch1.eof = false then do
      let s ← frameRow h row width 0 s
      frameRows h width fuel (row + 1) s.endRow
    else some s

/-
  `add_frames`; a file that cannot be opened ends the
  program.
-/
def addFrames
    (h : Host)
    (fuel : Nat)
    (f0 f1 : Ptr)
    (w : World)
    (s : Blink) : Option (Except World (World × Blink)) :=
  let opened0 := ece391Open h f0 w
  if opened0.1 < 0 then some (.error opened0.2)
  else
    let opened1 := ece391Open h f1 opened0.2
    if opened1.1 < 0 then some (.error opened1.2)
    else do
      let s ← frameRows h fuel fuel 0
        { ch0 := Channel.fresh opened0.1
          ch1 := Channel.fresh opened1.1
          world := opened1.2
          blink := s }
      some (.ok (s.world, s.blink))

end MartianPendulum

------------------------------------------------------------
-- What Is Left to Read
------------------------------------------------------------

namespace MartianPendulum

/- A file within a line, after a line, or at its end. -/
inductive Feed where
| line (unread : List UInt8)
| rest (unread : List UInt8)
| ended

namespace Feed

/- What a read puts into the variable. -/
def char : Feed → UInt8
| .line (c :: _) => c
| _ => newline

def next : Feed → Feed
| .line [] => .ended
| .line (c :: u) => if c = newline then .rest u else .line u
| .rest u => .rest u
| .ended => .ended

/- The characters before the end of the line. -/
def text : Feed → List UInt8
| .line u => u.takeWhile (fun c => c ≠ newline)
| _ => []

/- At the end of the line. -/
def done : Feed → Feed
| .line u =>
    match u.dropWhile (fun c => c ≠ newline) with
    | [] => .ended
    | _ :: u => .rest u
| f => f

/- At the start of the next line. -/
def again : Feed → Feed
| .rest u => .line u
| f => f

def lines : Feed → List (List UInt8)
| .line u => u.splitOn newline
| .rest u => u.splitOn newline
| .ended => []

def starts : Feed → Bool
| .rest _ => false
| _ => true

theorem next_text
    (f : Feed) :
    f.next.text = f.text.tail := by
  cases f with
  | line u =>
      cases u with
      | nil => rfl
      | cons c u =>
          by_cases hc : c = newline
          · simp [next, text, hc]
          · simp [next, text, hc]
  | rest u => rfl
  | ended => rfl

theorem next_done
    (f : Feed) :
    f.next.done = f.done := by
  cases f with
  | line u =>
      cases u with
      | nil => rfl
      | cons c u =>
          by_cases hc : c = newline
          · simp [next, done, hc]
          · simp [next, done, hc]
  | rest u => rfl
  | ended => rfl

theorem next_of_text_nil
    {f : Feed}
    (hText : f.text = []) :
    f.next = f.done := by
  cases f with
  | line u =>
      cases u with
      | nil => rfl
      | cons c u =>
          by_cases hc : c = newline
          · simp [next, done, hc]
          · simp [text, hc] at hText
  | rest u => rfl
  | ended => rfl

/- The character is the first one of the line, if any. -/
theorem char_eq
    (f : Feed) :
    f.char = f.text.headD newline := by
  cases f with
  | line u =>
      cases u with
      | nil => rfl
      | cons c u =>
          by_cases hc : c = newline
          · simp [char, text, hc]
          · simp [char, text, hc]
  | rest u => rfl
  | ended => rfl

theorem char_eq_newline_iff
    (f : Feed) :
    f.char = newline ↔ f.text = [] := by
  cases f with
  | line u =>
      cases u with
      | nil => simp [char, text]
      | cons c u =>
          by_cases hc : c = newline
          · simp [char, text, hc]
          · simp [char, text, hc]
  | rest u => simp [char, text]
  | ended => simp [char, text]

/- The first line, and the lines after it. -/
theorem lines_eq
    {f : Feed}
    (hStarts : f.starts = true) :
    f.text = f.lines.headD [] ∧
      f.done.again.lines = f.lines.tail ∧
      f.done.again.starts = true := by
  cases f with
  | line u =>
      rcases Logic.exists_line newline u with
        ⟨l, more, rfl, hLine, hMore⟩
      have hChars : ∀ c ∈ l, decide (c ≠ newline) = true := by
        intro c hc
        simpa using fun hEq : c = newline => hLine (hEq ▸ hc)
      rcases hMore with rfl | hMore
      · rw [List.append_nil]
        have hDrop : l.dropWhile (fun c => c ≠ newline) = [] :=
          List.dropWhile_eq_nil_iff.mpr hChars
        simp only [text, done, lines, hDrop,
          List.splitOn_eq_singleton hLine, again]
        refine ⟨?_, rfl, rfl⟩
        exact List.takeWhile_eq_self_iff.mpr hChars
      · cases more with
        | nil => cases hMore
        | cons c more =>
            cases hMore
            have hTake : (l ++ newline :: more).takeWhile
                (fun c => c ≠ newline) = l := by
              rw [List.takeWhile_append_of_pos hChars]
              simp
            have hDrop : (l ++ newline :: more).dropWhile
                (fun c => c ≠ newline) = newline :: more := by
              rw [List.dropWhile_append_of_pos hChars]
              simp
            simp only [text, done, lines, hTake, hDrop, again,
              List.splitOn_append_cons_self_of_not_mem hLine]
            exact ⟨rfl, rfl, rfl⟩
  | rest u => cases hStarts
  | ended => exact ⟨rfl, rfl, rfl⟩

end Feed

end MartianPendulum

------------------------------------------------------------
-- The Loops
------------------------------------------------------------

namespace MartianPendulum

/- A file descriptor at some unread bytes. -/
def World.Unread
    (fs : FileSystem)
    (fd : Int)
    (u : List UInt8)
    (w : World) : Prop :=
  ∃ inode pos, fs.GoodFile inode ∧
    w.Reads fs fd inode pos ∧ fs.bytesFrom inode pos = u

/- The variables of a file at a place in its text. -/
def Channel.On
    (fs : FileSystem)
    (w : World)
    (ch : Channel) : Feed → Prop
| .line u => ch.c ≠ newline ∧ ch.eof = false ∧
    w.Unread fs ch.fd u
| .rest u => ch.c = newline ∧ ch.eof = false ∧
    w.Unread fs ch.fd u
| .ended => ch.c = newline ∧ ch.eof = true

/- Only one descriptor was used. -/
def World.Touched
    (fd : Int)
    (w w' : World) : Prop :=
  ∀ fd', fd' ≠ fd → w'.table fd' = w.table fd'

section Reads

variable {fs : FileSystem}
variable {fd : Int}
variable {u : List UInt8}
variable {w w' : World}
variable {ch : Channel}
variable {f : Feed}

theorem World.Unread.touched
    (hUnread : w.Unread fs fd u)
    {fd' : Int}
    (hLow : 2 ≤ fd')
    (hNe : fd ≠ fd')
    (hTouched : w.Touched fd' w') :
    w'.Unread fs fd u := by
  rcases hUnread with ⟨inode, pos, hGood, hReads, hBytes⟩
  have hOne : w'.table 1 = w.table 1 :=
    hTouched 1 (by omega)
  refine ⟨inode, pos, hGood, ⟨hReads.low, hReads.high, ?_, ?_,
    hReads.pos_le⟩, hBytes⟩
  · rw [hTouched fd hNe]
    exact hReads.entry
  · have hOut := hReads.stdout
    unfold World.StdoutOpen at hOut ⊢
    rw [hOne]
    exact hOut

/- The other file does not notice. -/
theorem Channel.On.touched
    (hOn : ch.On fs w f)
    {fd' : Int}
    (hLow : 2 ≤ fd')
    (hNe : ch.fd ≠ fd')
    (hTouched : w.Touched fd' w') :
    ch.On fs w' f := by
  cases f with
  | line u =>
      exact ⟨hOn.1, hOn.2.1,
        hOn.2.2.touched hLow hNe hTouched⟩
  | rest u =>
      exact ⟨hOn.1, hOn.2.1,
        hOn.2.2.touched hLow hNe hTouched⟩
  | ended => exact hOn

theorem World.touched_setEntry
    (w : World)
    (fd : Int)
    (e : FileEntry) :
    w.Touched fd (w.setEntry fd e) :=
  fun _ hNe => Function.update_of_ne hNe _ _

theorem FileSystem.length_bytesFrom
    (fs : FileSystem)
    (inode pos : Nat) :
    (fs.bytesFrom inode pos).length =
      fs.inodeLength inode - pos := by
  rw [FileSystem.bytesFrom, List.length_map,
    List.length_range']

/- At the end of a file a read delivers nothing. -/
theorem World.Unread.read_end
    {h : Host}
    (hUnread : w.Unread h.fs fd [])
    (buf : Ptr) :
    ∃ buf' w', ece391Read h fd buf 1 w =
        some (0, buf', w') ∧
      w.Touched fd w' := by
  rcases hUnread with ⟨inode, pos, hGood, hReads, hBytes⟩
  have hLength := h.fs.length_bytesFrom inode pos
  rw [hBytes, List.length_nil] at hLength
  have hRead := hReads.read hGood buf (n := 1) (m := 0)
    (by decide) (by omega)
  exact ⟨_, _, hRead, w.touched_setEntry fd _⟩

/- Before the end it delivers the next byte. -/
theorem World.Unread.read_cons
    {h : Host}
    {c : UInt8}
    (hUnread : w.Unread h.fs fd (c :: u))
    (buf : Ptr) :
    ∃ buf' w', ece391Read h fd buf 1 w =
        some (1, buf', w') ∧
      buf' 0 = c ∧ w.Touched fd w' ∧
      w'.Unread h.fs fd u := by
  rcases hUnread with ⟨inode, pos, hGood, hReads, hBytes⟩
  have hLength := h.fs.length_bytesFrom inode pos
  rw [hBytes, List.length_cons] at hLength
  have hRead := hReads.read hGood buf (n := 1) (m := 1)
    (by decide) (by omega)
  have hMoved := hReads.moved (pos + 1) (by omega)
  have hSplit := h.fs.bytesFrom_split inode
    (show 1 ≤ h.fs.inodeLength inode - pos by omega)
  rw [hBytes, List.range_one, List.map_singleton,
    List.singleton_append, List.cons.injEq] at hSplit
  refine ⟨_, _, hRead, ?_, w.touched_setEntry fd _,
    inode, pos + 1, hGood, hMoved, hSplit.2.symm⟩
  rw [Logic.blit_apply_of_lt _ _ Nat.one_pos]
  exact hSplit.1.symm

/- The read of a character follows the text. -/
theorem Channel.On.read
    {h : Host}
    (hOn : ch.On h.fs w f) :
    ∃ ch' w', ch.read h w = some (ch', w') ∧
      ch'.On h.fs w' f.next ∧ ch'.c = f.char ∧
      ch'.fd = ch.fd ∧ w.Touched ch.fd w' := by
  cases f with
  | line u =>
      rcases hOn with ⟨hChar, hEof, hUnread⟩
      cases u with
      | nil =>
          rcases hUnread.read_end (fun _ => ch.c) with
            ⟨buf', w', hRead, hTouched⟩
          refine ⟨{ ch with c := newline, eof := true }, w',
            ?_, ⟨rfl, rfl⟩, rfl, rfl, hTouched⟩
          rw [Channel.read, if_neg hChar, hRead]
          rfl
      | cons c u =>
          rcases hUnread.read_cons (fun _ => ch.c) with
            ⟨buf', w', hRead, hByte, hTouched, hRest⟩
          refine ⟨{ ch with c := c }, w', ?_, ?_, rfl, rfl,
            hTouched⟩
          · rw [Channel.read, if_neg hChar, hRead, ← hByte]
            rfl
          · by_cases hc : c = newline
            · rw [Feed.next, if_pos hc]
              exact ⟨hc, hEof, hRest⟩
            · rw [Feed.next, if_neg hc]
              exact ⟨hc, hEof, hRest⟩
  | rest u =>
      refine ⟨ch, w, ?_, hOn, hOn.1, rfl, fun _ _ => rfl⟩
      rw [Channel.read, if_pos hOn.1]
  | ended =>
      refine ⟨ch, w, ?_, hOn, hOn.1, rfl, fun _ _ => rfl⟩
      rw [Channel.read, if_pos hOn.1]

end Reads

/- Both files at their places, with two descriptors. -/
structure Frames.On
    (fs : FileSystem)
    (f0 f1 : Feed)
    (s : Frames) : Prop where
  on0 : s.ch0.On fs s.world f0
  on1 : s.ch1.On fs s.world f1
  low0 : 2 ≤ s.ch0.fd
  low1 : 2 ≤ s.ch1.fd
  ne : s.ch0.fd ≠ s.ch1.fd

/- Only the two descriptors were used. -/
structure Frames.Keeps
    (s s' : Frames) : Prop where
  fd0 : s'.ch0.fd = s.ch0.fd
  fd1 : s'.ch1.fd = s.ch1.fd
  table : ∀ fd, fd ≠ s.ch0.fd → fd ≠ s.ch1.fd →
    s'.world.table fd = s.world.table fd

theorem Frames.Keeps.trans
    {s₁ s₂ s₃ : Frames}
    (hFirst : s₁.Keeps s₂)
    (hSecond : s₂.Keeps s₃) :
    s₁.Keeps s₃ := by
  refine ⟨hSecond.fd0.trans hFirst.fd0,
    hSecond.fd1.trans hFirst.fd1, ?_⟩
  intro fd h0 h1
  rw [← hFirst.table fd h0 h1]
  apply hSecond.table
  · rw [hFirst.fd0]
    exact h0
  · rw [hFirst.fd1]
    exact h1

section Rows

variable {h : Host}
variable {f0 f1 : Feed}
variable {s : Frames}

theorem Frames.On.read
    (hOn : s.On h.fs f0 f1) :
    ∃ s', s.read h = some s' ∧ s'.On h.fs f0.next f1.next ∧
      s'.ch0.c = f0.char ∧ s'.ch1.c = f1.char ∧
      s'.blink = s.blink ∧ s.Keeps s' := by
  rcases hOn.on0.read with
    ⟨ch0, w₀, hRead₀, hOn₀, hChar₀, hFd₀, hTouched₀⟩
  have hStill : s.ch1.On h.fs w₀ f1 :=
    hOn.on1.touched hOn.low0 hOn.ne.symm hTouched₀
  rcases hStill.read with
    ⟨ch1, w₁, hRead₁, hOn₁, hChar₁, hFd₁, hTouched₁⟩
  refine ⟨{ s with ch0 := ch0, ch1 := ch1, world := w₁ },
    ?_, ⟨?_, hOn₁, ?_, ?_, ?_⟩, hChar₀, hChar₁, rfl,
    hFd₀, hFd₁, ?_⟩
  · rw [Frames.read, hRead₀]
    simp only [Option.bind_eq_bind, Option.bind_some, hRead₁]
  · exact hOn₀.touched hOn.low1 (by rw [hFd₀]; exact hOn.ne)
      hTouched₁
  · rw [hFd₀]
    exact hOn.low0
  · rw [hFd₁]
    exact hOn.low1
  · rw [hFd₀, hFd₁]
    exact hOn.ne
  · intro fd h0 h1
    exact (hTouched₁ fd h1).trans (hTouched₀ fd h0)

/- The node of a cell, if one of the characters shows. -/
def frameCell
    (row col : Nat)
    (c0 c1 : UInt8) : List BlinkArg :=
  if c0 ≠ blank ∨ c1 ≠ blank then [frameArg row col c0 c1]
  else []

/- The nodes of two lines. -/
def frameLine
    (row : Nat)
    (l0 l1 : List UInt8) : List BlinkArg :=
  Logic.zipPad (frameCell row) blank 0 l0 l1

/- The nodes of two texts, from a row on. -/
def frameArgs
    (row : Nat)
    (ls0 ls1 : List (List UInt8)) : List BlinkArg :=
  Logic.zipPad frameLine [] row ls0 ls1

/- A character at the end of a line shows as a blank. -/
theorem Feed.padded_char
    (f : Feed) :
    f.text.headD blank ≠ newline ∧
      (f.char ≠ blank ∧ f.char ≠ newline ↔
        f.text.headD blank ≠ blank) ∧
      (if f.char = newline then blank else f.char) =
        f.text.headD blank := by
  have hChar := f.char_eq
  have hEnd := f.char_eq_newline_iff
  cases hText : f.text with
  | nil =>
      rw [hText] at hChar
      simp only [hChar, List.headD_nil]
      decide
  | cons c l =>
      rw [hText] at hChar
      have hc : c ≠ newline := by
        rw [hText, hChar] at hEnd
        exact fun hEq => List.cons_ne_nil c l (hEnd.mp hEq)
      simp only [hChar, List.headD_cons, hc, if_false, ne_eq,
        not_false_iff, and_true]

theorem Frames.draw_blink
    (h0 : s.ch0.c = f0.char)
    (h1 : s.ch1.c = f1.char)
    (row col : Nat) :
    (s.draw row col).blink =
      s.blink.addAll (frameCell row col
        (f0.text.headD blank) (f1.text.headD blank)) := by
  rcases f0.padded_char with ⟨hEnd0, hShows0, hPad0⟩
  rcases f1.padded_char with ⟨hEnd1, hShows1, hPad1⟩
  have hArg : frameArg row col f0.char f1.char =
      frameArg row col (f0.text.headD blank)
        (f1.text.headD blank) := by
    simp only [frameArg, hPad0, hPad1, hEnd0, hEnd1,
      if_false]
  have hDrawn := or_congr hShows0 hShows1
  unfold Frames.draw frameCell
  rw [h0, h1, hArg]
  by_cases hSome : f0.text.headD blank ≠ blank ∨
      f1.text.headD blank ≠ blank
  · rw [if_pos (hDrawn.mpr hSome), if_pos hSome]
    rfl
  · rw [if_neg (fun hDraw => hSome (hDrawn.mp hDraw)),
      if_neg hSome]
    rfl

theorem Frames.draw_on
    (hOn : s.On h.fs f0 f1)
    (row col : Nat) :
    (s.draw row col).On h.fs f0 f1 ∧
      s.Keeps (s.draw row col) := by
  unfold Frames.draw
  split
  next hSome =>
    exact ⟨⟨hOn.on0, hOn.on1, hOn.low0, hOn.low1, hOn.ne⟩,
      rfl, rfl, fun _ _ _ => rfl⟩
  next hNone => exact ⟨hOn, rfl, rfl, fun _ _ _ => rfl⟩

/- A row adds the nodes of its two lines. -/
theorem frameRow_spec
    (row : Nat)
    {fuel col : Nat}
    (hOn : s.On h.fs f0 f1)
    (hFuel0 : f0.text.length < fuel)
    (hFuel1 : f1.text.length < fuel) :
    ∃ s', frameRow h row fuel col s = some s' ∧
      s'.On h.fs f0.done f1.done ∧
      s'.blink = s.blink.addAll
        (Logic.zipPad (frameCell row) blank col
          f0.text f1.text) ∧
      s.Keeps s' := by
  induction fuel generalizing col s f0 f1 with
  | zero => omega
  | succ fuel ih =>
      rcases hOn.read with
        ⟨s₁, hRead, hOn₁, hChar0, hChar1, hBlink, hKeeps₁⟩
      rw [frameRow, hRead]
      simp only [Option.bind_eq_bind, Option.bind_some]
      have hBoth := and_congr f0.char_eq_newline_iff
        f1.char_eq_newline_iff
      rw [hChar0, hChar1]
      by_cases hEnd : f0.text = [] ∧ f1.text = []
      · rw [if_pos (hBoth.mpr hEnd)]
        refine ⟨s₁, rfl, ?_, ?_, hKeeps₁⟩
        · rw [Feed.next_of_text_nil hEnd.1,
            Feed.next_of_text_nil hEnd.2] at hOn₁
          exact hOn₁
        · rw [hEnd.1, hEnd.2, hBlink]
          rfl
      · rw [if_neg (fun hStop => hEnd (hBoth.mp hStop))]
        have hSome : f0.text ≠ [] ∨ f1.text ≠ [] := by
          tauto
        have hPos := Logic.max_length_pos hSome
        rcases Frames.draw_on hOn₁ row col with
          ⟨hOnDraw, hKeepsDraw⟩
        rcases @ih _ _ _ (col + 1) hOnDraw
            (by rw [f0.next_text, List.length_tail]; omega)
            (by rw [f1.next_text, List.length_tail]; omega)
          with ⟨s', hRow, hOn', hBlink', hKeeps'⟩
        refine ⟨s', hRow, ?_, ?_,
          (hKeeps₁.trans hKeepsDraw).trans hKeeps'⟩
        · rw [f0.next_done, f1.next_done] at hOn'
          exact hOn'
        · rw [hBlink', Frames.draw_blink hChar0 hChar1, hBlink,
            f0.next_text, f1.next_text,
            Logic.zipPad_tail hSome]
          exact List.foldl_append.symm

theorem Feed.done_cases
    (f : Feed) :
    (∃ u, f.done = .rest u) ∨ f.done = .ended := by
  cases f with
  | line u =>
      simp only [Feed.done]
      split
      next hDrop => exact .inr rfl
      next c u' hDrop => exact .inl ⟨u', rfl⟩
  | rest u => exact .inl ⟨u, rfl⟩
  | ended => exact .inr rfl

theorem touched_ece391Close
    (fd : Int)
    (w : World) :
    w.Touched fd (ece391Close fd w).2 := by
  intro fd' hNe
  simp only [ece391Close, syscallClose]
  split
  · rfl
  · split
    · rfl
    · exact Function.update_of_ne hNe _ _

/- At the end of a row a file goes to its next line. -/
theorem Channel.On.endRow
    {fs : FileSystem}
    {ch : Channel}
    {w : World}
    {f : Feed}
    (hOn : ch.On fs w f.done) :
    (ch.endRow w).1.On fs (ch.endRow w).2 f.done.again ∧
      (ch.endRow w).1.fd = ch.fd ∧
      w.Touched ch.fd (ch.endRow w).2 := by
  rcases f.done_cases with ⟨u, hDone⟩ | hDone
  · rw [hDone] at hOn ⊢
    rcases hOn with ⟨_, hEof, hUnread⟩
    have hEnd : ch.endRow w = ({ ch with c := 48 }, w) :=
      if_neg (Bool.eq_false_iff.mp hEof)
    have hDigit : (48 : UInt8) ≠ newline := by decide
    rw [hEnd]
    exact ⟨⟨hDigit, hEof, hUnread⟩, rfl, fun _ _ => rfl⟩
  · rw [hDone] at hOn ⊢
    have hEnd : ch.endRow w = ({ ch with c := newline },
        (ece391Close ch.fd w).2) :=
      if_pos hOn.2
    rw [hEnd]
    exact ⟨⟨rfl, hOn.2⟩, rfl, touched_ece391Close ch.fd w⟩

theorem Frames.On.endRow
    (hOn : s.On h.fs f0.done f1.done) :
    s.endRow.On h.fs f0.done.again f1.done.again ∧
      s.Keeps s.endRow := by
  rcases hOn.on0.endRow with ⟨hOn₀, hFd₀, hTouched₀⟩
  have hStill := hOn.on1.touched hOn.low0 hOn.ne.symm
    hTouched₀
  rcases hStill.endRow with ⟨hOn₁, hFd₁, hTouched₁⟩
  refine ⟨⟨?_, hOn₁, ?_, ?_, ?_⟩, hFd₀, hFd₁, ?_⟩
  · exact hOn₀.touched hOn.low1 (by rw [hFd₀]; exact hOn.ne)
      hTouched₁
  · exact le_of_le_of_eq hOn.low0 hFd₀.symm
  · exact le_of_le_of_eq hOn.low1 hFd₁.symm
  · exact fun hEq => hOn.ne
      (hFd₀.symm.trans (hEq.trans hFd₁))
  · intro fd h0 h1
    exact (hTouched₁ fd h1).trans (hTouched₀ fd h0)

theorem Channel.On.eof_iff
    {fs : FileSystem}
    {ch : Channel}
    {w : World}
    {f : Feed}
    (hOn : ch.On fs w f) :
    ch.eof = false ↔ f.lines ≠ [] := by
  cases f with
  | line u =>
      exact iff_of_true hOn.2.1 (List.splitOn_ne_nil newline u)
  | rest u =>
      exact iff_of_true hOn.2.1 (List.splitOn_ne_nil newline u)
  | ended =>
      rw [hOn.2]
      exact iff_of_false (by decide) (fun hNe => hNe rfl)

theorem length_headD_lt
    {ls : List (List UInt8)}
    {width : Nat}
    (hWidth : ∀ l ∈ ls, l.length < width)
    (hPos : 0 < width) :
    (ls.headD []).length < width := by
  cases ls with
  | nil => exact hPos
  | cons l ls => exact hWidth l List.mem_cons_self

/-
  The two files are laid over each other, row by row, until
  both have ended.
-/
theorem frameRows_spec
    {width fuel row : Nat}
    (hPos : 0 < width)
    (hOn : s.On h.fs f0 f1)
    (hStarts0 : f0.starts = true)
    (hStarts1 : f1.starts = true)
    (hWidth0 : ∀ l ∈ f0.lines, l.length < width)
    (hWidth1 : ∀ l ∈ f1.lines, l.length < width)
    (hFuel0 : f0.lines.length < fuel)
    (hFuel1 : f1.lines.length < fuel) :
    ∃ s', frameRows h width fuel row s = some s' ∧
      s'.blink = s.blink.addAll
        (frameArgs row f0.lines f1.lines) ∧
      s.Keeps s' := by
  induction fuel generalizing row s f0 f1 with
  | zero => omega
  | succ fuel ih =>
      rcases Feed.lines_eq hStarts0 with
        ⟨hText0, hTail0, hNext0⟩
      rcases Feed.lines_eq hStarts1 with
        ⟨hText1, hTail1, hNext1⟩
      have hMore := or_congr hOn.on0.eof_iff hOn.on1.eof_iff
      rw [frameRows]
      by_cases hSome : f0.lines ≠ [] ∨ f1.lines ≠ []
      · rw [if_pos (hMore.mpr hSome)]
        rcases @frameRow_spec h f0 f1 s row width 0 hOn
            (by rw [hText0]; exact length_headD_lt hWidth0 hPos)
            (by rw [hText1]; exact length_headD_lt hWidth1 hPos)
          with ⟨s₁, hRow, hOn₁, hBlink, hKeeps₁⟩
        rcases hOn₁.endRow with ⟨hOnEnd, hKeepsEnd⟩
        have hLonger := Logic.max_length_pos hSome
        rcases @ih _ _ _ (row + 1) hOnEnd hNext0 hNext1
            (by
              rw [hTail0]
              exact fun l hl =>
                hWidth0 l (List.mem_of_mem_tail hl))
            (by
              rw [hTail1]
              exact fun l hl =>
                hWidth1 l (List.mem_of_mem_tail hl))
            (by rw [hTail0, List.length_tail]; omega)
            (by rw [hTail1, List.length_tail]; omega) with
          ⟨s', hRows, hBlink', hKeeps'⟩
        refine ⟨s', ?_, ?_,
          (hKeeps₁.trans hKeepsEnd).trans hKeeps'⟩
        · rw [hRow]
          exact hRows
        · have hRest : s₁.endRow.blink = s₁.blink := rfl
          rw [hBlink', hRest, hBlink, hTail0, hTail1, hText0,
            hText1, frameArgs, frameArgs,
            Logic.zipPad_tail hSome]
          exact List.foldl_append.symm
      · rw [if_neg (fun hGo => hSome (hMore.mp hGo))]
        have hNone : f0.lines = [] ∧ f1.lines = [] := by
          tauto
        refine ⟨s, rfl, ?_, rfl, rfl, fun _ _ _ => rfl⟩
        rw [hNone.1, hNone.2]
        rfl

end Rows

end MartianPendulum

------------------------------------------------------------
-- The Nodes of a Frame
------------------------------------------------------------

namespace MartianPendulum

/- The character of a text in a row and a column. -/
def frameChar
    (ls : List (List UInt8))
    (row col : Nat) : UInt8 :=
  (ls.getD row []).getD col blank

/- A text that fits in the right half of the screen. -/
structure FrameFits
    (ls : List (List UInt8)) : Prop where
  rows : ls.length ≤ 25
  cols : ∀ l ∈ ls, l.length ≤ 40

section Nodes

variable {ls0 ls1 : List (List UInt8)}
variable {row col : Nat}

theorem frameArg_location
    (hRow : row < 25)
    (hCol : col < 40)
    (c0 c1 : UInt8) :
    (frameArg row col c0 c1).location.toNat =
      row * 80 + col + 40 := by
  simp only [frameArg, UInt16.toNat_ofNat']
  omega

theorem mem_frameCell
    {c0 c1 : UInt8}
    {arg : BlinkArg} :
    arg ∈ frameCell row col c0 c1 ↔
      (c0 ≠ blank ∨ c1 ≠ blank) ∧
        arg = frameArg row col c0 c1 := by
  unfold frameCell
  split
  next hSome => simp [hSome]
  next hNone => simp [hNone]

theorem FrameFits.length_getD
    (hFits : FrameFits ls0)
    (row : Nat) :
    (ls0.getD row []).length ≤ 40 := by
  by_cases hRow : row < ls0.length
  · rw [List.getD_eq_getElem _ _ hRow]
    exact hFits.cols _ (List.getElem_mem hRow)
  · rw [List.getD_eq_default _ _ (by omega)]
    exact Nat.zero_le 40

/- Past the text every character is a blank. -/
theorem FrameFits.frameChar_eq_blank
    (hFits : FrameFits ls0)
    (hOut : 25 ≤ row ∨ 40 ≤ col) :
    frameChar ls0 row col = blank := by
  have hRows := hFits.rows
  have hCols := hFits.length_getD row
  unfold frameChar
  rcases hOut with hRow | hCol
  · rw [List.getD_eq_default _ _
      (show ls0.length ≤ row by omega)]
    rfl
  · exact List.getD_eq_default _ _ (by omega)

theorem frameChar_ne_blank
    (hChar : frameChar ls0 row col ≠ blank) :
    row < ls0.length ∧ col < (ls0.getD row []).length := by
  have hCol : col < (ls0.getD row []).length := by
    by_contra hOut
    exact hChar (List.getD_eq_default _ _ (by omega))
  refine ⟨?_, hCol⟩
  by_contra hOut
  rw [List.getD_eq_default _ _ (by omega)] at hCol
  exact absurd hCol (Nat.not_lt_zero col)

/- The nodes are those of the cells that show something. -/
theorem mem_frameArgs
    {arg : BlinkArg} :
    arg ∈ frameArgs 0 ls0 ls1 ↔
      ∃ row col, (frameChar ls0 row col ≠ blank ∨
          frameChar ls1 row col ≠ blank) ∧
        arg = frameArg row col (frameChar ls0 row col)
          (frameChar ls1 row col) := by
  simp only [frameArgs, frameLine, Logic.mem_zipPad,
    mem_frameCell, Nat.zero_add]
  constructor
  · rintro ⟨row, _, col, _, hSome, hArg⟩
    exact ⟨row, col, hSome, hArg⟩
  · rintro ⟨row, col, hSome, hArg⟩
    have hBounds : row < max ls0.length ls1.length ∧
        col < max (ls0.getD row []).length
          (ls1.getD row []).length := by
      rcases hSome with hChar | hChar
      · have hIn := frameChar_ne_blank hChar
        omega
      · have hIn := frameChar_ne_blank hChar
        omega
    exact ⟨row, hBounds.1, col, hBounds.2, hSome, hArg⟩

/- The nodes of a line are added from left to right. -/
theorem frameLine_pairwise
    {l0 l1 : List UInt8}
    (hRow : row < 25)
    (h0 : l0.length ≤ 40)
    (h1 : l1.length ≤ 40) :
    (frameLine row l0 l1).Pairwise (fun a b =>
      a.location.toNat < b.location.toNat) := by
  apply Logic.zipPad_pairwise
  · intro j _
    unfold frameCell
    split
    next hSome => exact List.pairwise_singleton _ _
    next hNone => exact List.Pairwise.nil
  · intro i j hLt hj x hx y hy
    rw [mem_frameCell] at hx hy
    rw [hx.2, hy.2, frameArg_location hRow (by omega),
      frameArg_location hRow (by omega)]
    omega

theorem mem_frameLine
    {l0 l1 : List UInt8}
    (hRow : row < 25)
    (h0 : l0.length ≤ 40)
    (h1 : l1.length ≤ 40)
    {arg : BlinkArg}
    (hArg : arg ∈ frameLine row l0 l1) :
    row * 80 + 40 ≤ arg.location.toNat ∧
      arg.location.toNat < row * 80 + 80 := by
  rcases Logic.mem_zipPad.mp hArg with ⟨j, hj, hCell⟩
  rw [mem_frameCell] at hCell
  rw [hCell.2, frameArg_location hRow (by omega)]
  omega

/- No two cells share a location. -/
theorem frameArgs_apart
    (hFits0 : FrameFits ls0)
    (hFits1 : FrameFits ls1) :
    ((frameArgs 0 ls0 ls1).map BlinkArg.location).Nodup := by
  have hRows0 := hFits0.rows
  have hRows1 := hFits1.rows
  have hPairwise : (frameArgs 0 ls0 ls1).Pairwise (fun a b =>
      a.location.toNat < b.location.toNat) := by
    apply Logic.zipPad_pairwise
    · intro j hj
      exact frameLine_pairwise (by omega)
        (hFits0.length_getD j) (hFits1.length_getD j)
    · intro i j hLt hj x hx y hy
      have hX := mem_frameLine (by omega)
        (hFits0.length_getD i) (hFits1.length_getD i) hx
      have hY := mem_frameLine (by omega)
        (hFits0.length_getD j) (hFits1.length_getD j) hy
      omega
  rw [List.Nodup, List.pairwise_map]
  refine hPairwise.imp ?_
  intro a b hLt hEq
  rw [hEq] at hLt
  exact absurd hLt (Nat.lt_irrefl _)

theorem frameArg_valid
    (hRow : row < 25)
    (hCol : col < 40)
    (c0 c1 : UInt8) :
    (frameArg row col c0 c1).Valid := by
  have hLocation := frameArg_location hRow hCol c0 c1
  exact ⟨by omega, by omega, Nat.succ_pos 14,
    (by decide : (15 : UInt16).toNat < 2 ^ 15),
    Nat.succ_pos 14,
    (by decide : (15 : UInt16).toNat < 2 ^ 15)⟩

/- The cells that show something are within the frame. -/
theorem drawn_bounds
    (hFits0 : FrameFits ls0)
    (hFits1 : FrameFits ls1)
    (hSome : frameChar ls0 row col ≠ blank ∨
      frameChar ls1 row col ≠ blank) :
    row < 25 ∧ col < 40 := by
  by_contra hOut
  have hPast : 25 ≤ row ∨ 40 ≤ col := by omega
  rcases hSome with hChar | hChar
  · exact hChar (hFits0.frameChar_eq_blank hPast)
  · exact hChar (hFits1.frameChar_eq_blank hPast)

end Nodes

end MartianPendulum
