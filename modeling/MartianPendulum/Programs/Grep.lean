import MartianPendulum.Logic.Pieces
import MartianPendulum.Programs.World

/-
  The program `grep`.

  `do_one_file` reads a file through a buffer of 1024 bytes.
  A line that the end of the buffer cuts off is moved to the
  front before the next read, and a line that fills the
  whole buffer is searched as it is.  The byte after the
  buffer is tested before it is ever written.  The pattern
  is a string of `char`, the buffer one of `uint8_t`, so no
  byte equals a first byte of the pattern from 128 on.

  Key definitions include:
    * `grepLines`
    * `doOneFile`
    * `grep`
    * `grepText`

  Key theorems include:
    * `searchLine_eq`
    * `ece391StrcpyLoop_eq`
    * `grepText_line`, `grepText_piece`
-/

------------------------------------------------------------
-- The Program
------------------------------------------------------------

namespace MartianPendulum

/- Memory seen from an offset. -/
def ptrAt
    (data : Ptr)
    (off : Nat) : Ptr :=
  fun i => data (off + i)

/- Memory whose part from an offset on was written. -/
def putAt
    (data : Ptr)
    (off : Nat)
    (buf : Ptr) : Ptr :=
  fun i => if i < off then data i else buf (i - off)

/- The loop of `ece391_strncmp`, with `n` bytes left. -/
def ece391StrncmpLoop
    (s1 s2 : Ptr) :
    Nat → Nat → Int
| 0, _ => 0
| n + 1, i =>
    if s1 i = s2 i then
      if s1 i = 0 ∨ n = 0 then 0
      else ece391StrncmpLoop s1 s2 n (i + 1)
    else ((s1 i).toNat : Int) - ((s2 i).toNat : Int)

def ece391Strncmp
    (s1 s2 : Ptr)
    (n : Nat) : Int :=
  if n = 0 then 0 else ece391StrncmpLoop s1 s2 n 0

/- The loop of `ece391_strcpy` within one array. -/
def ece391StrcpyLoop
    (dst src : Nat) :
    Nat → Nat → Ptr → Ptr
| 0, _, data => data
| fuel + 1, k, data =>
    let c := data (src + k)
    let data := Function.update data (dst + k) c
    if c ≠ 0 then ece391StrcpyLoop dst src fuel (k + 1) data
    else data

def ece391Strcpy
    (data : Ptr)
    (dst src : Nat) : Ptr :=
  ece391StrcpyLoop dst src (2 ^ 32) 0 data

/- The loop for `line_end`, with the bytes left before `last`. -/
def scanLine
    (data : Ptr) :
    Nat → Nat → Nat
| 0, lineEnd => lineEnd
| left + 1, lineEnd =>
    if data lineEnd ≠ newline then
      scanLine data left (lineEnd + 1)
    else lineEnd

/-
  The loop for `check`, with the bytes left in the line.
  `s` is a string of `char`: only `ece391_strncmp` takes its
  bytes as unsigned.
-/
def searchLine
    (data s : Ptr)
    (sLen : Nat) :
    Nat → Nat → Bool
| 0, _ => false
| left + 1, check =>
    if s8 (s 0) = ((data check).toNat : Int) ∧
        ece391Strncmp (ptrAt data check) s sLen = 0 then
      true
    else searchLine data s sLen left (check + 1)

/- The four calls that print a line. -/
def grepReport
    (fname line : Ptr)
    (w : World) : Option World := do
  let w ← ece391Fdputs 1 fname w
  let w ← ece391Fdputs 1 (literal ":") w
  let w ← ece391Fdputs 1 line w
  ece391Fdputs 1 (literal "\n") w

/- The search of one line. -/
def grepSearch
    (s fname data : Ptr)
    (lineStart lineEnd : Nat)
    (w : World) : Option World :=
  if searchLine data s (strlen s) (lineEnd - lineStart)
      lineStart then
    grepReport fname (ptrAt data lineStart) w
  else some w

/-
  The loop over the lines in the buffer: the buffer and
  `last` at its end.
-/
def grepLines
    (s fname : Ptr)
    (cnt : Int) :
    Nat → Nat → Ptr → Nat → World →
      Option (Ptr × Nat × World)
| 0, _, _, _, _ => none
| fuel + 1, lineStart, data, last, w =>
    let lineEnd :=
      scanLine data (last - lineStart) lineStart
    if data lineEnd ≠ newline ∧ cnt ≠ 0 ∧ lineStart ≠ 0 then
      let data := Function.update data lineEnd 0
      let data := ece391Strcpy data 0 lineStart
      some (data, last - lineStart, w)
    else do
      let data := Function.update data lineEnd 0
      let w ← grepSearch s fname data lineStart lineEnd w
      let lineStart := lineEnd + 1
      if lineStart ≥ last then some (data, 0, w)
      else grepLines s fname cnt fuel lineStart data last w

/- The end of `do_one_file`. -/
def grepClose
    (fd : Int)
    (w : World) : Option (Int × World) :=
  let closed := ece391Close fd w
  if closed.1 = -1 then do
    let w ← ece391Fdputs 1 (literal "file close failed\n")
      closed.2
    some (-1, w)
  else some (0, closed.2)

/- The loop over the reads. -/
def grepReads
    (h : Host)
    (s fname : Ptr)
    (fd : Int) :
    Nat → Ptr → Nat → World → Option (Int × World)
| 0, _, _, _ => none
| fuel + 1, data, last, w => do
    let (cnt, buf, w) ←
      ece391Read h fd (ptrAt data last) (1024 - last) w
    if cnt = -1 then do
      let w ← ece391Fdputs 1 (literal "file read failed\n") w
      some (-1, w)
    else do
      let data := putAt data last buf
      let last := last + cnt.toNat
      let (data, last, w) ←
        grepLines s fname cnt (last + 1) 0 data last w
      if cnt = 0 then grepClose fd w
      else grepReads h s fname fd fuel data last w

/- The character '.'. -/
def dot : UInt8 := 46

/- `do_one_file`; `data` is an array of 1025 bytes. -/
def doOneFile
    (h : Host)
    (fuel : Nat)
    (data s fname : Ptr)
    (w : World) : Option (Int × World) :=
  let opened := ece391Open h fname w
  if opened.1 = -1 then do
    let w ← ece391Fdputs 1 (literal "file open failed\n")
      opened.2
    some (-1, w)
  else grepReads h s fname opened.1 fuel data 0 opened.2

/-
  The loop of `main` over the directory; `data` is what the
  array of `do_one_file` holds at each call.
-/
def grepLoop
    (h : Host)
    (data : Nat → Ptr)
    (fileFuel : Nat)
    (search : Ptr)
    (fd : Int) :
    Nat → Ptr → World → Option (Int × World)
| 0, _, _ => none
| fuel + 1, buf, w => do
    let (cnt, buf, w) ← ece391Read h fd buf 32 w
    if cnt = 0 then some (0, w)
    else if cnt = -1 then do
      let w ← ece391Fdputs 1
        (literal "directory entry read failed\n") w
      some (3, w)
    else if buf 0 = dot then
      grepLoop h data fileFuel search fd fuel buf w
    else do
      let buf := Function.update buf cnt.toNat 0
      let (result, w) ←
        doOneFile h fileFuel (data w.calls) search buf w
      if result ≠ 0 then some (3, w)
      else grepLoop h data fileFuel search fd fuel buf w

/- `main` of `ece391grep.c` -/
def grep
    (h : Host)
    (data : Nat → Ptr)
    (fileFuel fuel : Nat)
    (buf search : Ptr)
    (w : World) : Option (Int × World) :=
  let got := ece391Getargs h search 1024
  if got.1 ≠ 0 then do
    let w ← ece391Fdputs 1
      (literal "could not read argument\n") w
    some (3, w)
  else
    let opened := ece391Open h (literal ".") w
    if opened.1 = -1 then do
      let w ← ece391Fdputs 1
        (literal "directory open failed\n") opened.2
      some (2, w)
    else
      grepLoop h data fileFuel got.2 opened.1 fuel buf
        opened.2

end MartianPendulum

------------------------------------------------------------
-- Searching a Line
------------------------------------------------------------

namespace MartianPendulum

/- The bytes from an offset on are these. -/
def Span
    (data : Ptr)
    (off : Nat)
    (chars : List UInt8) : Prop :=
  ∀ i < chars.length, data (off + i) = chars.getD i 0

theorem ece391StrncmpLoop_eq_zero_iff
    (s1 : Ptr)
    {s2 : Ptr}
    {n i : Nat}
    (hNonzero : ∀ j < n, s2 (i + j) ≠ 0) :
    ece391StrncmpLoop s1 s2 n i = 0 ↔
      ∀ j < n, s1 (i + j) = s2 (i + j) := by
  induction n generalizing i with
  | zero => simp [ece391StrncmpLoop]
  | succ n ih =>
      have hHere : s2 i ≠ 0 := hNonzero 0 (Nat.succ_pos n)
      rw [ece391StrncmpLoop]
      by_cases hEq : s1 i = s2 i
      · have hRest := @ih (i + 1) (fun j hj => by
          rw [Nat.add_right_comm, Nat.add_assoc]
          exact hNonzero (j + 1) (by omega))
        have hSplit : (∀ j < n + 1,
            s1 (i + j) = s2 (i + j)) ↔
              ∀ j < n, s1 (i + 1 + j) = s2 (i + 1 + j) := by
          constructor
          · intro hAll j hj
            have hNext := hAll (j + 1) (by omega)
            rwa [Nat.add_right_comm, Nat.add_assoc]
          · intro hAll j hj
            cases j with
            | zero => exact hEq
            | succ j =>
                have hNext := hAll j (by omega)
                rwa [Nat.add_right_comm, Nat.add_assoc]
                  at hNext
        rw [if_pos hEq, hSplit]
        by_cases hLast : n = 0
        · subst hLast
          simp
        · have hGoOn : ¬ (s1 i = 0 ∨ n = 0) := by
            rw [hEq]
            exact not_or.mpr ⟨hHere, hLast⟩
          rw [if_neg hGoOn]
          exact hRest
      · rw [if_neg hEq]
        constructor
        · intro hDiff
          have hSame : (s1 i).toNat = (s2 i).toNat := by
            omega
          exact absurd (UInt8.toNat_inj.mp hSame) hEq
        · intro hAll
          exact absurd (hAll 0 (Nat.succ_pos n)) hEq

theorem searchLine_eq_true_iff
    (data s : Ptr)
    (sLen left check : Nat) :
    searchLine data s sLen left check = true ↔
      ∃ k < left, (s 0 = data (check + k) ∧ s 0 < 128) ∧
        ece391Strncmp (ptrAt data (check + k)) s sLen =
          0 := by
  induction left generalizing check with
  | zero => simp [searchLine]
  | succ left ih =>
      rw [searchLine]
      simp only [s8_eq_toNat_iff]
      split
      next hHere =>
        exact iff_of_true rfl ⟨0, Nat.succ_pos left, hHere⟩
      next hNot =>
        rw [ih (check + 1)]
        constructor
        · rintro ⟨k, hk, hFound⟩
          rw [Nat.add_right_comm, Nat.add_assoc] at hFound
          exact ⟨k + 1, by omega, hFound⟩
        · rintro ⟨k, hk, hFound⟩
          cases k with
          | zero => exact absurd hFound hNot
          | succ k =>
              refine ⟨k, by omega, ?_⟩
              rw [Nat.add_right_comm, Nat.add_assoc]
              exact hFound

/-
  The pattern stands somewhere in the line.  One that starts
  with a byte from 128 on is not found.
-/
def Matches
    (pattern line : List UInt8) : Prop :=
  pattern ≠ [] ∧ pattern.headD 0 < 128 ∧
    pattern <:+: line

instance
    (pattern line : List UInt8) :
    Decidable (Matches pattern line) :=
  inferInstanceAs (Decidable (_ ∧ _))

/-
  A comparison cannot succeed across the NUL after the line.
-/
theorem ece391Strncmp_eq_zero_iff
    {data s : Ptr}
    {start k : Nat}
    {pattern line : List UInt8}
    (hPattern : Spells s pattern)
    (hNonempty : pattern ≠ [])
    (hLine : Span data start line)
    (hEnd : data (start + line.length) = 0)
    (hk : k ≤ line.length) :
    ece391Strncmp (ptrAt data (start + k)) s
        pattern.length = 0 ↔
      pattern.length + k ≤ line.length ∧
        ∀ i (hi : i < pattern.length),
          (line)[i + k]? = some pattern[i] := by
  have hPos := List.length_pos_of_ne_nil hNonempty
  have hByte : ∀ i, i + k < line.length →
      data (start + k + i) = line.getD (i + k) 0 := by
    intro i hi
    rw [Nat.add_assoc, Nat.add_comm k i]
    exact hLine (i + k) hi
  unfold ece391Strncmp
  rw [if_neg (by omega), ece391StrncmpLoop_eq_zero_iff _
    (fun j hj => by
      rw [Nat.zero_add]
      exact hPattern.ne_zero hj)]
  simp only [Nat.zero_add, ptrAt]
  constructor
  · intro hAll
    have hFits : pattern.length + k ≤ line.length := by
      by_contra hLong
      -- the NUL would have to be in the pattern
      have hNul := hAll (line.length - k) (by omega)
      rw [show start + k + (line.length - k) =
        start + line.length by omega, hEnd] at hNul
      exact hPattern.ne_zero (by omega) hNul.symm
    refine ⟨hFits, ?_⟩
    intro i hi
    have hSame := hAll i hi
    rw [hByte i (by omega), hPattern.char i hi,
      List.getD_eq_getElem _ _ hi,
      List.getD_eq_getElem _ _ (by omega)] at hSame
    rw [List.getElem?_eq_getElem (by omega), hSame]
  · rintro ⟨hFits, hAll⟩ j hj
    have hSame := hAll j hj
    rw [List.getElem?_eq_getElem (by omega),
      Option.some_inj] at hSame
    rw [hByte j (by omega), hPattern.char j hj,
      List.getD_eq_getElem _ _ hj,
      List.getD_eq_getElem _ _ (by omega), hSame]

/- The search finds the pattern where it is. -/
theorem searchLine_eq
    {data s : Ptr}
    {start : Nat}
    {pattern line : List UInt8}
    (hPattern : Spells s pattern)
    (hLine : Span data start line)
    (hNonzero : ∀ c ∈ line, c ≠ 0)
    (hEnd : data (start + line.length) = 0) :
    searchLine data s pattern.length line.length start =
      decide (Matches pattern line) := by
  rw [Bool.eq_iff_iff, searchLine_eq_true_iff,
    decide_eq_true_iff, Matches]
  by_cases hEmpty : pattern = []
  · -- the first byte of the pattern is its NUL
    subst hEmpty
    constructor
    · rintro ⟨k, hk, ⟨hFirst, _⟩, _⟩
      rw [hLine k hk, List.getD_eq_getElem _ _ hk] at hFirst
      exact absurd (hFirst.symm.trans hPattern.nul)
        (hNonzero _ (List.getElem_mem hk))
    · exact fun hMatches => absurd rfl hMatches.1
  · have hPos := List.length_pos_of_ne_nil hEmpty
    rw [List.infix_iff_getElem?, hPattern.first]
    constructor
    · rintro ⟨k, hk, ⟨_, hAscii⟩, hCompare⟩
      exact ⟨hEmpty, hAscii, k,
        (ece391Strncmp_eq_zero_iff hPattern hEmpty hLine
          hEnd (Nat.le_of_lt hk)).mp hCompare⟩
    · rintro ⟨_, hAscii, k, hFits, hAll⟩
      have hk : k < line.length := by omega
      have hFirst : pattern.headD 0 = data (start + k) := by
        have hByte := hAll 0 hPos
        rw [Nat.zero_add, List.getElem?_eq_getElem hk,
          Option.some_inj] at hByte
        rw [hLine k hk, List.getD_eq_getElem _ _ hk, hByte,
          ← hPattern.first, hPattern.char 0 hPos,
          List.getD_eq_getElem _ _ hPos]
      exact ⟨k, hk, ⟨hFirst, hAscii⟩,
        (ece391Strncmp_eq_zero_iff hPattern hEmpty hLine
          hEnd (Nat.le_of_lt hk)).mpr ⟨hFits, hAll⟩⟩

end MartianPendulum

------------------------------------------------------------
-- Moving a Line to the Front
------------------------------------------------------------

namespace MartianPendulum

/- The end of a line: a newline, or the end of the bytes. -/
theorem scanLine_spec
    {data : Ptr}
    {off : Nat}
    (line : List UInt8)
    {rest : List UInt8}
    (hSpan : Span data off (line ++ rest))
    (hLine : newline ∉ line)
    (hRest : rest = [] ∨ rest.head? = some newline) :
    scanLine data (line ++ rest).length off =
      off + line.length := by
  induction line generalizing off with
  | nil =>
      rcases hRest with rfl | hHead
      · rfl
      · cases rest with
        | nil => cases hHead
        | cons c rest =>
            rw [List.head?_cons, Option.some_inj] at hHead
            have hFirst := hSpan 0 (Nat.succ_pos _)
            rw [List.nil_append, List.getD_cons_zero, hHead,
              Nat.add_zero] at hFirst
            rw [List.nil_append, List.length_cons, scanLine,
              if_neg (not_not.mpr hFirst)]
            rfl
  | cons c line ih =>
      have hFirst : data off = c :=
        hSpan 0 (Nat.succ_pos _)
      have hNe : c ≠ newline := by
        rintro rfl
        exact hLine (by simp)
      rw [List.cons_append, List.length_cons, scanLine,
        hFirst, if_pos hNe,
        ih (fun i hi => by
          have hNext := hSpan (i + 1) (Nat.succ_lt_succ hi)
          rw [List.cons_append, List.getD_cons_succ] at hNext
          rw [Nat.add_right_comm, Nat.add_assoc]
          exact hNext)
          (fun hMem => hLine (List.mem_cons_of_mem c hMem)),
        List.length_cons]
      omega

/-
  A copy to a lower place in the same array never overtakes
  the bytes that it still has to read.
-/
theorem ece391StrcpyLoop_eq
    {src : Nat}
    {n fuel k : Nat}
    {data : Ptr}
    (hSrc : 0 < src)
    (hk : k ≤ n)
    (hFuel : n < k + fuel)
    (hNonzero : ∀ i, k ≤ i → i < n → data (src + i) ≠ 0)
    (hEnd : data (src + n) = 0)
    (i : Nat) :
    ece391StrcpyLoop 0 src fuel k data i =
      if k ≤ i ∧ i ≤ n then data (src + i) else data i := by
  induction fuel generalizing k data with
  | zero => omega
  | succ fuel ih =>
      rw [ece391StrcpyLoop]
      simp only [Nat.zero_add]
      by_cases hLast : k = n
      · subst hLast
        rw [hEnd, if_neg (by simp)]
        by_cases hi : i = k
        · subst hi
          rw [Function.update_self, if_pos ⟨le_rfl, le_rfl⟩,
            hEnd]
        · rw [Function.update_of_ne hi, if_neg (by omega)]
      · have hHere := hNonzero k le_rfl (by omega)
        have hLater : ∀ j, k < src + j →
            Function.update data k (data (src + k))
              (src + j) = data (src + j) := by
          intro j hj
          exact Function.update_of_ne (by omega) _ _
        rw [if_pos hHere, ih (by omega) (by omega)
          (fun j hj hjn => by
            rw [hLater j (by omega)]
            exact hNonzero j (by omega) hjn)
          (by rw [hLater n (by omega)]; exact hEnd)]
        by_cases hi : i = k
        · subst hi
          rw [if_neg (by omega), Function.update_self,
            if_pos ⟨le_rfl, by omega⟩]
        · rw [Function.update_of_ne hi]
          by_cases hCopied : k + 1 ≤ i ∧ i ≤ n
          · rw [if_pos hCopied, if_pos (by omega),
              hLater i (by omega)]
          · rw [if_neg hCopied, if_neg (by omega)]

end MartianPendulum

------------------------------------------------------------
-- What Is Printed
------------------------------------------------------------

namespace MartianPendulum

/- What is printed for one line. -/
def grepLine
    (name pattern line : List UInt8) : List UInt8 :=
  if Matches pattern line then
    name ++ text ":" ++ line ++ text "\n"
  else []

/- What is printed for the bytes of a file. -/
def grepText
    (name pattern bytes : List UInt8) : List UInt8 :=
  (Logic.pieces newline 1024 bytes).flatMap
    (grepLine name pattern)

section Text

variable (name pattern : List UInt8)
variable {line : List UInt8}

theorem grepLine_nil :
    grepLine name pattern [] = [] := by
  apply if_neg
  rintro ⟨hNonempty, -, hInfix⟩
  exact hNonempty (List.infix_nil.mp hInfix)

/- A line that fits is searched as a whole. -/
theorem flatMap_chunks
    (hFits : line.length ≤ 1024) :
    (Logic.chunks 1024 line).flatMap
        (grepLine name pattern) =
      grepLine name pattern line := by
  by_cases hEmpty : line = []
  · rw [hEmpty, Logic.chunks_nil (by decide), grepLine_nil]
    rfl
  · rw [Logic.chunks_of_length_le hEmpty hFits,
      List.flatMap_singleton]

theorem grepText_line
    (hLine : newline ∉ line)
    (hFits : line.length ≤ 1024)
    (rest : List UInt8) :
    grepText name pattern (line ++ newline :: rest) =
      grepLine name pattern line ++
        grepText name pattern rest := by
  rw [grepText, Logic.pieces_line hLine,
    List.flatMap_append, flatMap_chunks name pattern hFits]
  rfl

theorem grepText_last
    (hLine : newline ∉ line)
    (hFits : line.length ≤ 1024) :
    grepText name pattern line =
      grepLine name pattern line := by
  rw [grepText, Logic.pieces_last hLine,
    flatMap_chunks name pattern hFits]

theorem grepText_full
    (hLine : newline ∉ line)
    (hFull : line.length = 1024)
    (rest : List UInt8) :
    grepText name pattern (line ++ rest) =
      grepLine name pattern line ++
        grepText name pattern rest := by
  rw [grepText, Logic.pieces_full (by decide) hLine hFull,
    List.flatMap_cons]
  rfl

/- A piece ends with the buffer or with the file. -/
theorem grepText_piece
    (hLine : newline ∉ line)
    (hFits : line.length ≤ 1024)
    {rest : List UInt8}
    (hRest : rest ≠ [] → line.length = 1024) :
    grepText name pattern (line ++ rest) =
      grepLine name pattern line ++
        grepText name pattern rest := by
  by_cases hEmpty : rest = []
  · have hNothing : grepText name pattern [] = [] := by
      rw [grepText_last name pattern List.not_mem_nil
        (by decide), grepLine_nil]
    rw [hEmpty, List.append_nil,
      grepText_last name pattern hLine hFits, hNothing,
      List.append_nil]
  · exact grepText_full name pattern hLine (hRest hEmpty) rest

end Text

/- Only printing happened. -/
structure World.Printed
    (w : World)
    (bytes : List UInt8)
    (w' : World) : Prop where
  table : w'.table = w.table
  out : w'.out = w.out ++ bytes

namespace World.Printed

variable {w w' w'' : World}
variable {bytes bytes' : List UInt8}

theorem nothing :
    w.Printed [] w :=
  ⟨rfl, (List.append_nil _).symm⟩

theorem trans
    (hFirst : w.Printed bytes w')
    (hSecond : w'.Printed bytes' w'') :
    w.Printed (bytes ++ bytes') w'' := by
  refine ⟨hSecond.table.trans hFirst.table, ?_⟩
  rw [hSecond.out, hFirst.out, List.append_assoc]

theorem stdoutOpen
    (hPrinted : w.Printed bytes w')
    (hOut : w.StdoutOpen) :
    w'.StdoutOpen := by
  rw [StdoutOpen, hPrinted.table]
  exact hOut

theorem reads
    (hPrinted : w.Printed bytes w')
    {fs : FileSystem}
    {fd : Int}
    {inode pos : Nat}
    (hReads : w.Reads fs fd inode pos) :
    w'.Reads fs fd inode pos :=
  ⟨hReads.low, hReads.high,
    by rw [hPrinted.table]; exact hReads.entry,
    hPrinted.stdoutOpen hReads.stdout, hReads.pos_le⟩

end World.Printed

theorem grepReport_prints
    {fname line : Ptr}
    {name chars : List UInt8}
    {w : World}
    (hName : Spells fname name)
    (hNameLength : name.length < 2 ^ 32)
    (hLine : Spells line chars)
    (hLineLength : chars.length < 2 ^ 32)
    (hOut : w.StdoutOpen) :
    ∃ w', grepReport fname line w = some w' ∧
      w.Printed
        (name ++ text ":" ++ chars ++ text "\n") w' := by
  let w₁ := w.print name
  let w₂ := w₁.print (text ":")
  let w₃ := w₂.print chars
  refine ⟨w₃.print (text "\n"), ?_, rfl, ?_⟩
  · unfold grepReport
    rw [ece391Fdputs_stdout hOut hName hNameLength]
    simp only [Option.bind_eq_bind, Option.bind_some]
    rw [ece391Fdputs_literal (w := w₁) hOut (by decide)
      (by decide)]
    simp only [Option.bind_some]
    rw [ece391Fdputs_stdout (w := w₂) hOut hLine
      hLineLength]
    simp only [Option.bind_some]
    exact ece391Fdputs_literal (w := w₃) hOut (by decide)
      (by decide)
  · simp only [w₁, w₂, w₃, World.print_out,
      List.append_assoc]

end MartianPendulum
