import MartianPendulum.Programs.Grep

/-
  What `grep` prints of a directory.

  A read leaves the start of a line at the front of the
  buffer and new bytes behind it.  `grepLines` prints the
  lines that are complete and keeps the start of the last
  one, so that the text still to be searched is always what
  the buffer holds and the rest of the file.

  Key definitions include:
    * `Carried`
    * `World.Closed`
    * `FileSystem.grepResult`
    * `FileSystem.Searchable`

  Key theorems include:
    * `grepLines_spec`
    * `grepReads_prints`
    * `doOneFile_regular`
    * `grep_prints_matches`
-/

------------------------------------------------------------
-- One Buffer
------------------------------------------------------------

namespace MartianPendulum

/- The start of a line at the front of the buffer. -/
structure Carried
    (data : Ptr)
    (chars : List UInt8) : Prop where
  span : Span data 0 chars
  short : chars.length < 1024
  line : newline ∉ chars
  nonzero : ∀ c ∈ chars, c ≠ 0
  -- the byte after the buffer
  guard : data 1024 ≠ newline

theorem Carried.empty
    {data : Ptr}
    (hGuard : data 1024 ≠ newline) :
    Carried data [] :=
  ⟨nofun, by decide, nofun, nofun, hGuard⟩

theorem Span.update_outside
    {data : Ptr}
    {off i : Nat}
    {chars : List UInt8}
    (hSpan : Span data off chars)
    (hi : i < off ∨ off + chars.length ≤ i)
    (c : UInt8) :
    Span (Function.update data i c) off chars := by
  intro j hj
  rw [Function.update_of_ne (by omega)]
  exact hSpan j hj

theorem Span.left
    {data : Ptr}
    {off : Nat}
    {chars rest : List UInt8}
    (hSpan : Span data off (chars ++ rest)) :
    Span data off chars := by
  intro i hi
  rw [hSpan i (by rw [List.length_append]; omega),
    List.getD_append _ _ _ _ hi]

theorem Span.right
    {data : Ptr}
    {off : Nat}
    {chars rest : List UInt8}
    (hSpan : Span data off (chars ++ rest)) :
    Span data (off + chars.length) rest := by
  intro i hi
  have hByte := hSpan (chars.length + i)
    (by rw [List.length_append]; omega)
  rw [List.getD_append_right _ _ _ _ (by omega),
    Nat.add_sub_cancel_left] at hByte
  rw [Nat.add_assoc]
  exact hByte

/- A NUL at the end of a line. -/
theorem update_ne_newline
    {data : Ptr}
    {i : Nat}
    (hGuard : data 1024 ≠ newline) :
    Function.update data i 0 1024 ≠ newline := by
  by_cases hi : 1024 = i
  · rw [hi, Function.update_self]
    decide
  · rw [Function.update_of_ne hi]
    exact hGuard

section Buffer

variable {s fname data : Ptr}
variable {name pattern : List UInt8}
variable {start : Nat}
variable {w : World}

/- The strings that `do_one_file` is called with. -/
structure GrepStrings
    (s fname : Ptr)
    (pattern name : List UInt8) : Prop where
  spellsPattern : Spells s pattern
  patternLength : pattern.length < 2 ^ 32
  spellsName : Spells fname name
  nameLength : name.length < 2 ^ 32

theorem GrepStrings.strlen
    (hStrings : GrepStrings s fname pattern name) :
    strlen s = pattern.length :=
  strlen_eq s hStrings.patternLength hStrings.spellsPattern.nul
    (fun _ hi => hStrings.spellsPattern.ne_zero hi)

theorem grepSearch_prints
    (hStrings : GrepStrings s fname pattern name)
    {line : List UInt8}
    (hLine : Span data start line)
    (hNonzero : ∀ c ∈ line, c ≠ 0)
    (hLength : line.length ≤ 1024)
    (hOut : w.StdoutOpen) :
    ∃ w', grepSearch s fname
        (Function.update data (start + line.length) 0)
        start (start + line.length) w = some w' ∧
      w.Printed (grepLine name pattern line) w' := by
  have hEnded := hLine.update_outside
    (i := start + line.length) (.inr le_rfl) 0
  have hNul : Function.update data (start + line.length) 0
      (start + line.length) = 0 :=
    Function.update_self ..
  unfold grepSearch grepLine
  rw [hStrings.strlen, Nat.add_sub_cancel_left,
    searchLine_eq hStrings.spellsPattern hEnded hNonzero hNul]
  by_cases hMatches : Matches pattern line
  · rw [if_pos (decide_eq_true hMatches), if_pos hMatches]
    exact grepReport_prints hStrings.spellsName
      hStrings.nameLength ⟨hNonzero, hEnded, hNul⟩
      (by omega) hOut
  · rw [if_neg (by simpa using hMatches), if_neg hMatches]
    exact ⟨w, rfl, .nothing⟩

/- A line that the buffer cuts off is kept for later. -/
theorem carried_strcpy
    {line : List UInt8}
    (hLine : Span data start line)
    (hNonzero : ∀ c ∈ line, c ≠ 0)
    (hNewline : newline ∉ line)
    (hStart : 0 < start)
    (hRoom : start + line.length ≤ 1024)
    (hGuard : data 1024 ≠ newline) :
    Carried
      (ece391Strcpy
        (Function.update data (start + line.length) 0)
        0 start) line := by
  have hEnded := hLine.update_outside
    (i := start + line.length) (.inr le_rfl) 0
  have hCopy := @ece391StrcpyLoop_eq start line.length
    (2 ^ 32) 0
    (Function.update data (start + line.length) 0)
    hStart (Nat.zero_le _) (by omega)
    (fun i _ hi => by
      rw [hEnded i hi, List.getD_eq_getElem _ _ hi]
      exact hNonzero _ (List.getElem_mem hi))
    (Function.update_self ..)
  refine ⟨?_, by omega, hNewline, hNonzero, ?_⟩
  · intro i hi
    rw [Nat.zero_add, ece391Strcpy, hCopy,
      if_pos ⟨Nat.zero_le i, Nat.le_of_lt hi⟩]
    exact hEnded i hi
  · rw [ece391Strcpy, hCopy, if_neg (by omega)]
    exact update_ne_newline hGuard

/-
  The lines in a buffer are printed up to the last of them.
  What follows the buffer in the file is `rest`: only a full
  buffer has anything after it.
-/
theorem grepLines_spec
    (hStrings : GrepStrings s fname pattern name)
    (cnt : Int)
    (rest : List UInt8)
    {fuel : Nat}
    {chars : List UInt8}
    (hSpan : Span data start chars)
    (hNonzero : ∀ c ∈ chars, c ≠ 0)
    (hRoom : start + chars.length ≤ 1024)
    (hGuard : data 1024 ≠ newline)
    (hOut : w.StdoutOpen)
    (hRest : rest ≠ [] →
      start + chars.length = 1024 ∧ cnt ≠ 0)
    (hEof : cnt = 0 → newline ∉ chars)
    (hFuel : chars.length < fuel) :
    ∃ data' chars' w' bytes,
      grepLines s fname cnt fuel start data
          (start + chars.length) w =
        some (data', chars'.length, w') ∧
      Carried data' chars' ∧
      w.Printed bytes w' ∧
      grepText name pattern (chars ++ rest) =
        bytes ++ grepText name pattern (chars' ++ rest) ∧
      (cnt = 0 → chars' = []) := by
  induction fuel generalizing start data w chars with
  | zero => omega
  | succ fuel ih =>
      rcases Logic.exists_line newline chars with
        ⟨line, more, rfl, hLine, hMore⟩
      have hEnd : scanLine data
          (start + (line ++ more).length - start) start =
            start + line.length := by
        rw [Nat.add_sub_cancel_left]
        exact scanLine_spec line hSpan hLine hMore
      have hLineSpan := hSpan.left
      have hLineNonzero : ∀ c ∈ line, c ≠ 0 :=
        fun c hc => hNonzero c (List.mem_append_left _ hc)
      rw [List.length_append] at hRoom hRest hFuel
      rcases grepSearch_prints hStrings hLineSpan
          hLineNonzero (by omega) hOut with
        ⟨w₁, hSearch, hPrinted⟩
      have hGuard₁ := @update_ne_newline data
        (start + line.length) hGuard
      rw [grepLines, hEnd]
      dsimp only
      rcases hMore with rfl | hHead
      · -- the bytes end before the line does
        rw [List.append_nil] at hEof ⊢
        by_cases hCarry : data (start + line.length) ≠
            newline ∧ cnt ≠ 0 ∧ start ≠ 0
        · rw [if_pos hCarry, Nat.add_sub_cancel_left]
          exact ⟨_, line, w, [], rfl,
            carried_strcpy hLineSpan hLineNonzero hLine
              (by omega) (by simpa using hRoom) hGuard,
            .nothing, rfl,
            fun hZero => absurd hZero hCarry.2.1⟩
        · rw [if_neg hCarry, hSearch]
          simp only [Option.bind_eq_bind, Option.bind_some]
          rw [if_pos (by omega)]
          refine ⟨_, [], w₁, _, rfl, .empty hGuard₁, hPrinted,
            ?_, fun _ => rfl⟩
          apply grepText_piece name pattern hLine (by omega)
          intro hSome
          -- the byte after the buffer does not end the line
          rcases hRest hSome with ⟨hFull, hCnt⟩
          rw [List.length_nil, Nat.add_zero] at hFull
          by_contra hShort
          exact hCarry ⟨by rw [hFull]; exact hGuard, hCnt,
            by omega⟩
      · cases more with
        | nil => cases hHead
        | cons c more =>
            rw [List.head?_cons, Option.some_inj] at hHead
            subst hHead
            have hNewline := hSpan.right 0 (Nat.succ_pos _)
            rw [Nat.add_zero, List.getD_cons_zero]
              at hNewline
            have hText := grepText_line name pattern hLine
              (by omega) (more ++ rest)
            rw [List.length_cons] at hRoom hRest hFuel
            rw [if_neg (fun hCarry => hCarry.1 hNewline),
              hSearch]
            simp only [Option.bind_eq_bind,
              Option.bind_some]
            rw [List.append_assoc, List.cons_append, hText,
              List.length_append, List.length_cons]
            by_cases hMore : more = []
            · subst hMore
              rw [if_pos (by rw [List.length_nil]; omega),
                List.nil_append]
              exact ⟨_, [], w₁, _, rfl, .empty hGuard₁,
                hPrinted, rfl, fun _ => rfl⟩
            · have hPos := List.length_pos_of_ne_nil hMore
              rw [if_neg (by omega),
                show start + (line.length +
                  (more.length + 1)) =
                    start + line.length + 1 + more.length by
                  omega]
              have hTail : Span data (start + line.length)
                  ([newline] ++ more) := hSpan.right
              have hMoreSpan : Span
                  (Function.update data
                    (start + line.length) 0)
                  (start + line.length + 1) more :=
                hTail.right.update_outside
                  (.inl (Nat.lt_succ_self _)) 0
              rcases ih hMoreSpan
                  (fun c hc => hNonzero c (by simp [hc]))
                  (by omega) hGuard₁
                  (hPrinted.stdoutOpen hOut)
                  (fun hSome => by
                    have hFull := hRest hSome
                    exact ⟨by omega, hFull.2⟩)
                  (fun hZero => absurd (by simp)
                    (hEof hZero))
                  (by omega) with
                ⟨data', chars', w', bytes, hRun, hCarried,
                  hRestPrinted, hRestText, hNone⟩
              refine ⟨data', chars', w', _, hRun, hCarried,
                hPrinted.trans hRestPrinted, ?_, hNone⟩
              rw [hRestText, List.append_assoc]

end Buffer

end MartianPendulum

------------------------------------------------------------
-- The Whole File
------------------------------------------------------------

namespace MartianPendulum

section File

variable {h : Host}
variable {s fname : Ptr}
variable {name pattern : List UInt8}
variable {fd : Int}
variable {inode : Nat}

/- A file without NUL bytes. -/
def FileSystem.TextFile
    (fs : FileSystem)
    (inode : Nat) : Prop :=
  ∀ i < fs.inodeLength inode, fs.fileByte inode i ≠ 0

/- The buffer after a read behind the start of a line. -/
theorem span_putAt
    {data : Ptr}
    {chars : List UInt8}
    (hSpan : Span data 0 chars)
    (m : Nat)
    (src : Nat → UInt8) :
    Span
      (putAt data chars.length
        (Logic.blit (ptrAt data chars.length) 0 m src)) 0
      (chars ++ (List.range m).map src) := by
  intro i hi
  rw [List.length_append, List.length_map,
    List.length_range] at hi
  rw [Nat.zero_add, putAt]
  by_cases hOld : i < chars.length
  · rw [if_pos hOld, List.getD_append _ _ _ _ hOld,
      ← hSpan i hOld, Nat.zero_add]
  · have hNew : i - chars.length < m := by omega
    rw [if_neg hOld, Logic.blit_apply_of_lt _ _ hNew,
      List.getD_append_right _ _ _ _ (by omega),
      List.getD_eq_getElem _ _ (by simpa using hNew)]
    simp

/- Nothing is written behind the buffer. -/
theorem putAt_guard
    {data : Ptr}
    {last m : Nat}
    (hRoom : last + m ≤ 1024)
    (src : Nat → UInt8) :
    putAt data last
        (Logic.blit (ptrAt data last) 0 m src) 1024 =
      data 1024 := by
  rw [putAt]
  by_cases hLast : 1024 < last
  · rw [if_pos hLast]
  · rw [if_neg hLast,
      Logic.blit_apply_of_outside _ _ (by omega), ptrAt]
    congr 1
    omega

/- Closing leaves the other descriptors as they were. -/
structure World.Closed
    (fd : Int)
    (w w' : World) : Prop where
  flags : (w'.table fd).flags = flagFree
  others : ∀ fd', fd' ≠ fd → w'.table fd' = w.table fd'

theorem grepClose_eq
    {w : World}
    (hLow : 2 ≤ fd)
    (hHigh : fd ≤ 7)
    (hUse : (w.table fd).flags = flagInUse) :
    ∃ w', grepClose fd w = some (0, w') ∧
      w'.out = w.out ∧ w.Closed fd w' := by
  have hClose := ece391Close_eq hLow hHigh hUse
  refine ⟨w.setEntry fd
    { w.table fd with flags := flagFree }, ?_, rfl, ?_, ?_⟩
  · unfold grepClose
    rw [hClose]
    dsimp only
    rw [if_neg (by decide)]
  · simp only [World.setEntry, Function.update_self]
  · intro fd' hNe
    exact Function.update_of_ne hNe _ _

theorem grepReads_prints
    (hStrings : GrepStrings s fname pattern name)
    (hGood : h.fs.GoodFile inode)
    (hText : h.fs.TextFile inode)
    {fuel pos : Nat}
    {data : Ptr}
    {chars : List UInt8}
    {w : World}
    (hReads : w.Reads h.fs fd inode pos)
    (hCarried : Carried data chars)
    (hFuel : h.fs.inodeLength inode - pos < fuel) :
    ∃ w', grepReads h s fname fd fuel data chars.length w =
        some (0, w') ∧
      w'.out = w.out ++ grepText name pattern
        (chars ++ h.fs.bytesFrom inode pos) ∧
      w.Closed fd w' := by
  induction fuel generalizing pos data chars w with
  | zero => omega
  | succ fuel ih =>
      have hShort := hCarried.short
      have hPos := hReads.pos_le
      obtain ⟨n, hn⟩ : ∃ n, n = 1024 - chars.length :=
        ⟨_, rfl⟩
      obtain ⟨m, hm⟩ :
          ∃ m, m = min n (h.fs.inodeLength inode - pos) :=
        ⟨_, rfl⟩
      have hRead := hReads.read hGood
        (ptrAt data chars.length) (n := n) (by omega) hm
      rw [show (n : Int) = 1024 - chars.length by omega]
        at hRead
      have hMoved := hReads.moved (pos + m) (by omega)
      obtain ⟨src, hSrc⟩ : ∃ src : Nat → UInt8, src =
          fun k => h.fs.fileByte inode (pos + k) := ⟨_, rfl⟩
      have hSplit := h.fs.bytesFrom_split inode
        (show m ≤ h.fs.inodeLength inode - pos by omega)
      rw [← hSrc] at hRead hSplit
      have hLength : (chars ++ (List.range m).map src).length =
          chars.length + m := by
        simp
      have hBytes : ∀ c ∈ chars ++ (List.range m).map src,
          c ≠ 0 := by
        intro c hc
        rcases List.mem_append.mp hc with hOld | hNew
        · exact hCarried.nonzero c hOld
        · rcases List.mem_map.mp hNew with ⟨k, hk, rfl⟩
          rw [hSrc]
          exact hText (pos + k)
            (by have := List.mem_range.mp hk; omega)
      have hFull : h.fs.bytesFrom inode (pos + m) ≠ [] →
          0 + (chars ++ (List.range m).map src).length =
            1024 ∧ (m : Int) ≠ 0 := by
        intro hSome
        have hLeft : pos + m < h.fs.inodeLength inode := by
          by_contra hEnd
          apply hSome
          rw [FileSystem.bytesFrom,
            Nat.sub_eq_zero_of_le (by omega)]
          rfl
        rw [hLength]
        omega
      have hEof : (m : Int) = 0 →
          newline ∉ chars ++ (List.range m).map src := by
        intro hZero
        rw [show m = 0 by omega, List.range_zero,
          List.map_nil, List.append_nil]
        exact hCarried.line
      rcases grepLines_spec hStrings m
          (h.fs.bytesFrom inode (pos + m))
          (span_putAt hCarried.span m src) hBytes
          (by rw [hLength]; omega)
          (by
            rw [putAt_guard (by omega)]
            exact hCarried.guard)
          hMoved.stdout hFull hEof
          (Nat.lt_succ_self _) with
        ⟨data', chars', w₁, bytes, hLines, hCarried₁,
          hPrinted, hBytesText, hNone⟩
      have hReads₁ := hPrinted.reads hMoved
      have hOthers : ∀ fd', fd' ≠ fd →
          w₁.table fd' = w.table fd' := by
        intro fd' hNe
        rw [hPrinted.table]
        exact Function.update_of_ne hNe _ _
      have hNotErr : (m : Int) ≠ -1 := by omega
      rw [hLength, Nat.zero_add] at hLines
      rw [hSplit, ← List.append_assoc, hBytesText, grepReads,
        hRead]
      simp only [Option.bind_eq_bind, Option.bind_some,
        hNotErr, if_false, Int.toNat_natCast, hLines]
      by_cases hZero : m = 0
      · -- the end of the file
        have hRest : grepText name pattern
            (chars' ++ h.fs.bytesFrom inode (pos + m)) =
              [] := by
          have hNothing :
              h.fs.bytesFrom inode (pos + m) = [] := by
            by_contra hSome
            exact (hFull hSome).2 (by omega)
          rw [hNone (by omega), hNothing, List.append_nil,
            grepText_last name pattern List.not_mem_nil
              (by decide), grepLine_nil]
        rcases grepClose_eq hReads₁.low hReads₁.high
            (by rw [hReads₁.entry]) with
          ⟨w', hClose, hOut, hClosed⟩
        rw [if_pos (by omega)]
        refine ⟨w', hClose, ?_, hClosed.flags, ?_⟩
        · rw [hOut, hPrinted.out, hRest, List.append_nil]
          rfl
        · intro fd' hNe
          rw [hClosed.others fd' hNe, hOthers fd' hNe]
      · rcases ih hReads₁ hCarried₁ (by omega) with
          ⟨w', hRun, hOut, hClosed⟩
        rw [if_neg (by omega)]
        refine ⟨w', hRun, ?_, hClosed.flags, ?_⟩
        · rw [hOut, hPrinted.out, List.append_assoc]
          rfl
        · intro fd' hNe
          rw [hClosed.others fd' hNe, hOthers fd' hNe]

/-
  `do_one_file` prints the pieces of a text file that contain
  the pattern, each after the name of the file, and leaves
  the table of descriptors as it found it.
-/
theorem doOneFile_regular
    (hStrings : GrepStrings s fname pattern name)
    {file : Dentry}
    (hFile : h.fs.lookup name = some file)
    (hType : file.type = typeRegular)
    (hGood : h.fs.GoodFile file.nrInode)
    (hText : h.fs.TextFile file.nrInode)
    {w : World}
    (hOut : w.StdoutOpen)
    (hFree : w.freeFd = some fd)
    {fuel : Nat}
    (hFuel : maxFiles * blockSize ≤ fuel)
    {data : Ptr}
    (hGuard : data 1024 ≠ newline) :
    ∃ w', doOneFile h fuel data s fname w = some (0, w') ∧
      w'.out = w.out ++ grepText name pattern
        (h.fs.bytesFrom file.nrInode 0) ∧
      w.Closed fd w' := by
  have hRange := World.freeFd_range hFree
  have hName : (stringAt fname).chars = name :=
    hStrings.spellsName.stringAt hStrings.nameLength
  have hNotErr : fd ≠ -1 := by omega
  have hReads : (w.setEntry fd (freshEntry file)).Reads
      h.fs fd file.nrInode 0 := by
    refine ⟨hRange.1, hRange.2, ?_,
      hOut.setEntry hRange.1 _, Nat.zero_le _⟩
    simp only [World.setEntry, Function.update_self,
      freshEntry, hType]
    rfl
  have hLength : h.fs.inodeLength file.nrInode - 0 < fuel :=
    Nat.lt_of_lt_of_le hGood.length_lt hFuel
  rcases grepReads_prints hStrings hGood hText hReads
      (.empty hGuard) hLength with
    ⟨w', hRun, hPrinted, hClosed⟩
  rw [List.nil_append] at hPrinted
  refine ⟨w', ?_, hPrinted, hClosed.flags, ?_⟩
  · unfold doOneFile
    rw [ece391Open_eq h (by rw [hName]; exact hFile)
      (by rw [hType]; decide) hFree]
    simp only [hNotErr, if_false]
    exact hRun
  · intro fd' hNe
    rw [hClosed.others fd' hNe]
    exact Function.update_of_ne hNe _ _

/- The clock has no lines. -/
theorem doOneFile_rtc
    (hStrings : GrepStrings s fname pattern name)
    {file : Dentry}
    (hFile : h.fs.lookup name = some file)
    (hType : file.type = typeUserRtc)
    {w : World}
    (hOut : w.StdoutOpen)
    (hFree : w.freeFd = some fd)
    {fuel : Nat}
    (hFuel : 0 < fuel)
    {data : Ptr}
    (hGuard : data 1024 ≠ newline) :
    ∃ w', doOneFile h fuel data s fname w = some (0, w') ∧
      w'.out = w.out ∧ w.Closed fd w' := by
  have hRange := World.freeFd_range hFree
  have hName : (stringAt fname).chars = name :=
    hStrings.spellsName.stringAt hStrings.nameLength
  have hNotErr : fd ≠ -1 := by omega
  obtain ⟨fuel, rfl⟩ : ∃ n, fuel = n + 1 :=
    ⟨fuel - 1, by omega⟩
  have hEntry : (w.setEntry fd (freshEntry file)).table fd =
      freshEntry file :=
    Function.update_self ..
  have hRead := ece391Read_rtc h hRange.1 hRange.2
    (by rw [hEntry]; rfl)
    (by rw [hEntry, freshEntry, hType]; rfl)
    (ptrAt data 0) (1024 - (0 : Nat))
  have hSame : putAt data 0 (ptrAt data 0) = data := by
    funext i
    simp [putAt, ptrAt]
  obtain ⟨w₀, hw₀⟩ : ∃ w₀ : World, w₀ =
      { w.setEntry fd (freshEntry file) with
        calls := (w.setEntry fd (freshEntry file)).calls +
          1 } := ⟨_, rfl⟩
  have hTable : w₀.table =
      (w.setEntry fd (freshEntry file)).table := by
    rw [hw₀]
  have hOut₀ : w₀.StdoutOpen := by
    rw [World.StdoutOpen, hTable]
    exact hOut.setEntry hRange.1 (freshEntry file)
  have hSpan : Span data 0 [] :=
    fun i hi => absurd hi (Nat.not_lt_zero i)
  have hNonzero : ∀ c ∈ ([] : List UInt8), c ≠ 0 :=
    fun c hc => absurd hc List.not_mem_nil
  rcases @grepLines_spec s fname data name pattern 0 w₀
      hStrings 0 [] 1 [] hSpan hNonzero (by decide) hGuard
      hOut₀ (fun hSome => absurd rfl hSome)
      (fun _ => List.not_mem_nil) (by decide) with
    ⟨data', chars', w₁, bytes, hLines, _, hPrinted, hText,
      hNone⟩
  have hNothing : bytes = [] := by
    rw [hNone rfl, List.append_nil,
      grepText_last name pattern List.not_mem_nil (by decide),
      grepLine_nil] at hText
    exact (List.append_eq_nil_iff.mp hText.symm).1
  rcases grepClose_eq (w := w₁) hRange.1 hRange.2
      (by rw [hPrinted.table, hTable, hEntry]; rfl) with
    ⟨w', hClose, hOut', hClosed⟩
  refine ⟨w', ?_, ?_, hClosed.flags, ?_⟩
  · unfold doOneFile
    rw [ece391Open_eq h (by rw [hName]; exact hFile)
      (by rw [hType]; decide) hFree]
    simp only [hNotErr, if_false]
    rw [grepReads, hRead, ← hw₀]
    simp only [Option.bind_eq_bind, Option.bind_some, hSame]
    have hEmpty : grepLines s fname 0
        (0 + Int.toNat 0 + 1) 0 data (0 + Int.toNat 0) w₀ =
          some (data', chars'.length, w₁) := hLines
    rw [if_neg (by decide), hEmpty]
    simp only [Option.bind_some, if_true]
    exact hClose
  · rw [hOut', hPrinted.out, hNothing, List.append_nil, hw₀]
    rfl
  · intro fd' hNe
    rw [hClosed.others fd' hNe, hPrinted.table, hTable]
    exact Function.update_of_ne hNe _ _

end File

end MartianPendulum

------------------------------------------------------------
-- The Directory
------------------------------------------------------------

namespace MartianPendulum

/- What is printed for a name of the directory. -/
def FileSystem.grepFile
    (fs : FileSystem)
    (pattern name : List UInt8) : List UInt8 :=
  if name.head? = some dot then []
  else
    match fs.lookup name with
    | none => []
    | some file =>
        match kindOfType file.type with
        | .regular =>
            grepText name pattern (fs.bytesFrom file.nrInode 0)
        | _ => []

/- The exit status of `grep` and what it prints. -/
def FileSystem.grepResult
    (fs : FileSystem)
    (pattern : List UInt8) : Int × List UInt8 :=
  if pattern = [] then (3, text "could not read argument\n")
  else
    match fs.lookup (text ".") with
    | none => (2, text "directory open failed\n")
    | some _ =>
        (0, (fs.listed 0).flatMap (fs.grepFile pattern))

/-
  A file system that `grep` can search: only names with a
  dot are directories, and the regular files are texts.
-/
structure FileSystem.Searchable
    (fs : FileSystem) : Prop where
  readable : fs.Readable
  self : ∀ file, fs.lookup (text ".") = some file →
    file.type = typeDir
  dirs : ∀ i < fs.bootBlock.numDirEntries,
    (fs.bootBlock.files i).type = typeDir →
      (fs.bootBlock.files i).name.head? = some dot
  texts : ∀ i < fs.bootBlock.numDirEntries,
    (fs.bootBlock.files i).type = typeRegular →
      fs.TextFile (fs.bootBlock.files i).nrInode

namespace World

variable {w w' : World}
variable {fd : Int}

/- The same descriptor is free again. -/
theorem Closed.freeFd
    (hClosed : w.Closed fd w')
    (hFree : w.freeFd = some fd) :
    w'.freeFd = some fd := by
  have hFlags : (w.table fd).flags = flagFree := by
    simpa using List.find?_some hFree
  have hSame : (fun idx : Int =>
      decide ((w'.table idx).flags = flagFree)) =
        fun idx => decide ((w.table idx).flags = flagFree) := by
    funext idx
    by_cases hIdx : idx = fd
    · rw [hIdx, hClosed.flags, hFlags]
    · rw [hClosed.others idx hIdx]
  rw [World.freeFd, hSame]
  exact hFree

theorem Closed.lists
    (hClosed : w.Closed fd w')
    (hFree : w.freeFd = some fd)
    {fs : FileSystem}
    {dir : Int}
    {inode pos : Nat}
    (hLists : w.Lists fs dir inode pos) :
    w'.Lists fs dir inode pos := by
  have hRange := freeFd_range hFree
  have hFlags : (w.table fd).flags = flagFree := by
    simpa using List.find?_some hFree
  have hNe : dir ≠ fd := by
    rintro rfl
    rw [hLists.entry] at hFlags
    exact flagInUse_ne_flagFree hFlags
  refine ⟨hLists.low, hLists.high, ?_, ?_, hLists.count⟩
  · rw [hClosed.others dir hNe]
    exact hLists.entry
  · rw [StdoutOpen, hClosed.others 1 (by omega)]
    exact hLists.stdout

/- A second descriptor is left after an open. -/
theorem exists_freeFd
    {dir : Int}
    (hSecond : ∃ idx, 2 ≤ idx ∧ idx ≤ 7 ∧ idx ≠ dir ∧
      (w.table idx).flags = flagFree)
    (e : FileEntry) :
    ∃ fd, (w.setEntry dir e).freeFd = some fd := by
  rcases hSecond with ⟨idx, hLow, hHigh, hNe, hFlags⟩
  apply Option.isSome_iff_exists.mp
  rw [World.freeFd, List.find?_isSome]
  refine ⟨idx, ?_, ?_⟩
  · have hCases : idx = 2 ∨ idx = 3 ∨ idx = 4 ∨ idx = 5 ∨
        idx = 6 ∨ idx = 7 := by
      omega
    simpa using hCases
  · simp only [World.setEntry, Function.update_of_ne hNe,
      hFlags, decide_true]

/- A read does not free a descriptor. -/
theorem freeFd_moved
    (dir : Int)
    (pos : Nat) :
    (w.moved dir pos).freeFd = w.freeFd := by
  have hSame : (fun idx : Int =>
      decide (((w.moved dir pos).table idx).flags =
        flagFree)) =
        fun idx => decide ((w.table idx).flags = flagFree) := by
    funext idx
    by_cases hIdx : idx = dir
    · subst hIdx
      simp only [World.moved, World.setEntry,
        Function.update_self]
    · simp only [World.moved, World.setEntry,
        Function.update_of_ne hIdx]
  rw [World.freeFd, World.freeFd, hSame]

end World

section Directory

variable {h : Host}
variable {search fname : Ptr}
variable {name pattern : List UInt8}
variable {fd : Int}
variable {w : World}

/- One name of the directory. -/
theorem doOneFile_listed
    (hFs : h.fs.Searchable)
    (hStrings : GrepStrings search fname pattern name)
    {i : Nat}
    (hi : i < h.fs.bootBlock.numDirEntries)
    (hName : (h.fs.bootBlock.files i).name = name)
    (hDot : name.head? ≠ some dot)
    (hOut : w.StdoutOpen)
    (hFree : w.freeFd = some fd)
    {fuel : Nat}
    (hFuel : maxFiles * blockSize ≤ fuel)
    {data : Ptr}
    (hGuard : data 1024 ≠ newline) :
    ∃ w', doOneFile h fuel data search fname w =
        some (0, w') ∧
      w'.out = w.out ++ h.fs.grepFile pattern name ∧
      w.Closed fd w' := by
  obtain ⟨file, hFile⟩ :
      ∃ file, h.fs.lookup name = some file := by
    apply Option.ne_none_iff_exists'.mp
    intro hNone
    exact (lookup_eq_none_iff h.fs name).mp hNone i hi hName
  rcases (lookup_eq_some_iff h.fs name file).mp hFile with
    ⟨j, hj, rfl, hSameName, _⟩
  have hType := hFs.readable.type_le j hj
  have hNotDir : (h.fs.bootBlock.files j).type ≠ typeDir := by
    intro hDir
    have hHead := hFs.dirs j hj hDir
    rw [hSameName] at hHead
    exact hDot hHead
  simp only [FileSystem.grepFile, hDot, if_false, hFile]
  by_cases hRtc : (h.fs.bootBlock.files j).type = typeUserRtc
  · have hKind : kindOfType (h.fs.bootBlock.files j).type =
        .rtc := by
      rw [hRtc]
      rfl
    rw [hKind, List.append_nil]
    exact doOneFile_rtc hStrings hFile hRtc hOut hFree
      (Nat.lt_of_lt_of_le (by decide) hFuel) hGuard
  · have hRegular : (h.fs.bootBlock.files j).type =
        typeRegular := by
      simp only [typeDir, typeUserRtc, typeRegular]
        at hNotDir hRtc ⊢
      omega
    have hKind : kindOfType (h.fs.bootBlock.files j).type =
        .regular := by
      rw [hRegular]
      rfl
    rw [hKind]
    exact doOneFile_regular hStrings hFile hRegular
      (hFs.readable.good j hj hRegular)
      (hFs.texts j hj hRegular) hOut hFree hFuel hGuard

/- A name of the directory, ended by `main`. -/
theorem spells_update
    {buf : Ptr}
    (hChars : ∀ i < name.length, buf i = name.getD i 0)
    (hNonzero : ∀ c ∈ name, c ≠ 0) :
    Spells (Function.update buf name.length 0) name := by
  refine ⟨hNonzero, ?_, Function.update_self ..⟩
  intro i hi
  rw [Function.update_of_ne (by omega)]
  exact hChars i hi

theorem grepLoop_prints
    (hFs : h.fs.Searchable)
    (hPattern : Spells search pattern)
    (hLength : pattern.length < 2 ^ 32)
    {data : Nat → Ptr}
    (hGuard : ∀ n, data n 1024 ≠ newline)
    {fileFuel : Nat}
    (hFileFuel : maxFiles * blockSize ≤ fileFuel)
    (fuel : Nat)
    (buf : Ptr)
    {dir : Int}
    {inode pos : Nat}
    (hLists : w.Lists h.fs dir inode pos)
    (hFree : w.freeFd = some fd)
    (hFuel : h.fs.bootBlock.numDirEntries - pos < fuel) :
    Exits (grepLoop h data fileFuel search dir fuel buf w) w
      0 ((h.fs.listed pos).flatMap
        (h.fs.grepFile pattern)) := by
  induction fuel generalizing buf w pos with
  | zero => omega
  | succ fuel ih =>
      rcases hLists.read_cases buf 32 with
        ⟨name, hName, hNonempty, hPos, hListed, buf', hChars,
          hRead⟩ |
        ⟨hListed, buf', pos', hRead⟩
      · have hMoved := hLists.moved (pos + 1)
        have hFreeMoved :
            (w.moved dir (pos + 1)).freeFd = some fd := by
          rw [World.freeFd_moved]
          exact hFree
        have hFirst : name.head? = some (buf' 0) := by
          have hZero :=
            hChars 0 (List.length_pos_of_ne_nil hNonempty)
          cases name with
          | nil => exact absurd rfl hNonempty
          | cons c name =>
              rw [hZero]
              rfl
        have hPosLength := List.length_pos_of_ne_nil hNonempty
        rw [grepLoop, hRead, hListed, List.flatMap_cons]
        simp only [Option.bind_eq_bind, Option.bind_some]
        rw [if_neg (by omega), if_neg (by omega)]
        by_cases hDot : buf' 0 = dot
        · -- a directory
          have hNothing :
              h.fs.grepFile pattern name = [] := by
            rw [hDot] at hFirst
            exact if_pos hFirst
          rw [if_pos hDot, hNothing, List.nil_append]
          exact ih buf' hMoved hFreeMoved (by omega)
        · have hNotDot : name.head? ≠ some dot := by
            rw [hFirst]
            exact fun hEq => hDot (Option.some_inj.mp hEq)
          have hShort :=
            (h.fs.bootBlock.files pos).length_name_le
          have hStrings : GrepStrings search
              (Function.update buf' name.length 0)
              pattern name :=
            ⟨hPattern, hLength,
              spells_update hChars (by
                rw [hName]
                exact Dentry.name_nonzero _),
              by rw [hName]; omega⟩
          rcases doOneFile_listed hFs hStrings hPos hName.symm
              hNotDot hMoved.stdout hFreeMoved hFileFuel
              (hGuard (w.moved dir (pos + 1)).calls) with
            ⟨w₁, hFile, hOut₁, hClosed⟩
          rcases ih (Function.update buf' name.length 0)
              (hClosed.lists hFreeMoved hMoved)
              (hClosed.freeFd hFreeMoved) (by omega) with
            ⟨w', hRun, hOut⟩
          rw [if_neg hDot, Int.toNat_natCast, hFile]
          simp only [Option.bind_some, ne_eq,
            not_true_eq_false, if_false]
          refine ⟨w', hRun, ?_⟩
          rw [hOut, hOut₁, List.append_assoc]
          rfl
      · refine ⟨w.moved dir pos', ?_, ?_⟩
        · rw [grepLoop, hRead]
          simp only [Option.bind_eq_bind, Option.bind_some,
            if_true]
        · rw [hListed, List.flatMap_nil, List.append_nil]
          rfl

/-
  `grep` prints, file by file, the lines with the pattern,
  where a line longer than the buffer counts as several and
  a pattern that starts with a byte from 128 on is in no
  line.  The byte behind the buffer of `do_one_file` must not
  be a newline when the function is entered.
-/
theorem grep_prints_matches
    (hFs : h.fs.Searchable)
    (hArgs : Spells h.args pattern)
    (hShort : pattern.length < 1024)
    (hOut : w.StdoutOpen)
    {dir : Int}
    (hDir : w.freeFd = some dir)
    (hSecond : ∃ idx, 2 ≤ idx ∧ idx ≤ 7 ∧ idx ≠ dir ∧
      (w.table idx).flags = flagFree)
    (data : Nat → Ptr)
    (hGuard : ∀ n, data n 1024 ≠ newline)
    {fileFuel fuel : Nat}
    (hFileFuel : maxFiles * blockSize ≤ fileFuel)
    (hFuel : maxFiles < fuel)
    (buf search : Ptr) :
    Exits (grep h data fileFuel fuel buf search w) w
      (h.fs.grepResult pattern).1
      (h.fs.grepResult pattern).2 := by
  unfold grep FileSystem.grepResult
  by_cases hEmpty : pattern = []
  · have hFirst : h.args 0 = 0 := by
      have hNul := hArgs.nul
      rwa [hEmpty] at hNul
    simp only [ece391Getargs, hFirst, hEmpty, if_true]
    exact exits_message hOut (by decide) (by decide) 3
  · rcases ece391Getargs_holds h hArgs hEmpty search hShort
      with ⟨search', hGot, hSpells⟩
    have hName : (stringAt (literal ".")).chars =
        text "." :=
      (spells_literal (by decide)).stringAt (by decide)
    rw [show ((1024 : Nat) : Int) = 1024 from rfl] at hGot
    simp only [hGot, hEmpty, if_false, ne_eq,
      not_true_eq_false]
    cases hFile : h.fs.lookup (text ".") with
    | none =>
        rw [ece391Open_missing h (by rw [hName]; exact hFile)]
        exact exits_message (w := { w with
          calls := w.calls + 1 }) hOut (by decide)
          (by decide) 2
    | some file =>
        have hType := hFs.self file hFile
        have hRange := World.freeFd_range hDir
        have hNotErr : dir ≠ -1 := by omega
        have hCount := hFs.readable.count
        have hLists : (w.setEntry dir
            (freshEntry file)).Lists h.fs dir
              file.nrInode 0 := by
          refine ⟨hRange.1, hRange.2, ?_,
            hOut.setEntry hRange.1 _, hCount⟩
          simp only [World.setEntry, Function.update_self,
            freshEntry, hType]
          rfl
        rw [ece391Open_eq h (by rw [hName]; exact hFile)
          (by rw [hType]; decide) hDir]
        simp only [hNotErr, if_false]
        rcases World.exists_freeFd hSecond (freshEntry file)
          with ⟨fd, hFree⟩
        exact grepLoop_prints hFs hSpells (by omega) hGuard
          hFileFuel fuel buf hLists hFree (by omega)

end Directory

/- The directory itself, and a file `log` of two lines. -/
def logFs : FileSystem :=
  { bootBlock :=
      { numDirEntries := 2
        numInodes := 2
        numDataBlocks := 1
        files := fun i =>
          if i = 0 then
            { filename := literal "."
              type := typeDir
              nrInode := 0 }
          else
            { filename := literal "log"
              type := typeRegular
              nrInode := 1 } }
    fsBlocks := fun off =>
      if off = 8192 then 5
      else if 12288 ≤ off then
        (text "ab\ncd").getD (off - 12288) 0
      else 0 }

theorem logFs_searchable :
    logFs.Searchable := by
  have hCases : ∀ i, i < logFs.bootBlock.numDirEntries →
      i = 0 ∨ i = 1 := by
    intro i hi
    simp only [logFs] at hi
    omega
  have hLength : logFs.inodeLength 1 = 5 := by decide
  have hReadable : logFs.Readable :=
    FileSystem.readable_of_one_block rfl rfl rfl rfl
      (by decide) (by decide) (by decide)
  refine ⟨hReadable, ?_, by decide, ?_⟩
  · intro file hFile
    rw [show logFs.lookup (text ".") =
      some (logFs.bootBlock.files 0) by rfl] at hFile
    cases hFile
    rfl
  · intro i hi hType
    rcases hCases i hi with rfl | rfl
    · exact absurd hType (by decide)
    · have hBytes : ∀ i < 5, logFs.fileByte 1 i ≠ 0 := by
        decide
      intro k hk
      rw [show (logFs.bootBlock.files 1).nrInode = 1 from
        rfl, hLength] at hk
      exact hBytes k hk

/- One of the two lines has a `b` in it. -/
theorem grep_prints_matches_logFs :
    Exits (grep (sampleHost logFs "b") (fun _ _ => 0)
      258048 64 (fun _ => 0) (fun _ => 0) startWorld)
      startWorld 0 (text "log:ab\n") := by
  have hResult : logFs.grepResult (text "b") =
      (0, text "log:ab\n") := by
    decide
  have hGrep := grep_prints_matches
    (h := sampleHost logFs "b") (w := startWorld)
    logFs_searchable (spells_literal (s := "b") (by decide))
    (by decide) ⟨by decide, by decide⟩
    (show startWorld.freeFd = some 2 by decide)
    ⟨3, by decide⟩
    (fun _ _ => 0) (fun _ => show (0 : UInt8) ≠ newline by
      decide)
    (show maxFiles * blockSize ≤ 258048 by decide)
    (show maxFiles < 64 by decide)
    (fun _ => 0) (fun _ => 0)
  exact (congrArg (fun r => Exits _ startWorld r.1 r.2)
    hResult).mp hGrep

end MartianPendulum
