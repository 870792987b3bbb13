import MartianPendulum.Logic.Words
import MartianPendulum.Kernel.System

/-
  The arguments of a command.

  After the first word `parse_args` copies one character for
  each round of its loop and skips the spaces before it.  So
  the characters of all further words are joined.  A NUL
  follows them only if rounds are left, which takes a second
  space; otherwise the string ends where the buffer was
  cleared, or wherever old bytes of it end.

  Key definitions include:
    * `afterWord`, `argChars`, `argSpaces`
    * `HoldsString`
    * `KeepsWords`
    * `StaleFree`

  Key theorems include:
    * `Copying.step`
    * `parseArgs_args`
    * `keepsWords_iff`
    * `storedArgs_eq_iff`
-/

------------------------------------------------------------
-- The Rest of a Command
------------------------------------------------------------

namespace MartianPendulum

/- What follows the first word. -/
def afterWord
    (chars : List UInt8) : List UInt8 :=
  (skipped chars).dropWhile (fun c => !isSpace c)

/- The characters after the first word, without spaces. -/
def argChars
    (chars : List UInt8) : List UInt8 :=
  (afterWord chars).filter (fun c => !isSpace c)

/- The number of spaces after the first word. -/
def argSpaces
    (chars : List UInt8) : Nat :=
  (afterWord chars).countP isSpace

theorem length_afterWord
    (chars : List UInt8) :
    (afterWord chars).length =
      (argChars chars).length + argSpaces chars := by
  unfold argChars argSpaces
  rw [List.length_eq_countP_add_countP isSpace,
    ← List.countP_eq_length_filter, Nat.add_comm]
  simp

theorem skipped_eq_append
    (chars : List UInt8) :
    skipped chars = firstWord chars ++ afterWord chars :=
  List.takeWhile_append_dropWhile.symm

theorem length_skipped_le
    (chars : List UInt8) :
    (skipped chars).length ≤ chars.length :=
  (List.dropWhile_suffix isSpace).length_le

/- A rest that is not empty starts with a space. -/
theorem afterWord_eq_cons
    {chars : List UInt8}
    (hRest : afterWord chars ≠ []) :
    ∃ more, afterWord chars = Display.space :: more := by
  rcases List.exists_cons_of_ne_nil hRest with
    ⟨c, more, hCons⟩
  have hStop := List.head?_dropWhile_not
    (fun c => !isSpace c) (skipped chars)
  rw [show (skipped chars).dropWhile _ = _ from hCons]
    at hStop
  have hSpace : c = Display.space := by
    simpa [isSpace] using hStop
  exact ⟨more, hSpace ▸ hCons⟩

theorem argSpaces_pos
    {chars : List UInt8}
    (hRest : afterWord chars ≠ []) :
    0 < argSpaces chars := by
  rcases afterWord_eq_cons hRest with ⟨more, hMore⟩
  unfold argSpaces
  rw [hMore, List.countP_cons_of_pos rfl]
  omega

/- The words of a command that is not blank. -/
theorem words_command
    {chars : List UInt8}
    (hWord : ∃ c ∈ chars, c ≠ Display.space) :
    Logic.words isSpace chars =
      firstWord chars ::
        Logic.words isSpace (afterWord chars) := by
  rw [← Logic.words_dropWhile]
  unfold firstWord afterWord skipped
  cases hSkip : chars.dropWhile isSpace with
  | nil =>
      rcases hWord with ⟨c, hMem, hNe⟩
      rw [List.dropWhile_eq_nil_iff] at hSkip
      have hSpace := hSkip c hMem
      exact absurd (by simpa [isSpace] using hSpace) hNe
  | cons c l =>
      have hStop := List.head?_dropWhile_not isSpace chars
      rw [hSkip] at hStop
      exact Logic.words_eq_cons (by simpa using hStop)

end MartianPendulum

------------------------------------------------------------
-- Copying the Arguments
------------------------------------------------------------

namespace MartianPendulum

/-
  The loop has copied `k` characters and stands before a
  string whose characters, less the spaces, are the other
  ones.  The NUL is at `stop`.
-/
structure Copying
    (userInput args : Ptr)
    (chars : List UInt8)
    (stop k : Nat)
    (s : ParseState) : Prop where
  flag : s.flag = true
  argsPos : s.argsPos = k
  parsedArgs : s.parsedArgs =
    Logic.blit args 0 k (fun j => chars.getD j 0)
  rest : ∃ v : CString,
    v.chars.length < 2 ^ 32 ∧
    s.inputPos + v.chars.length = stop ∧
    (∀ i, userInput (s.inputPos + i) = v.ptr i) ∧
    v.chars.filter (fun c => !isSpace c) = chars.drop k

theorem filter_skipped
    (chars : List UInt8) :
    (skipped chars).filter (fun c => !isSpace c) =
      chars.filter (fun c => !isSpace c) := by
  unfold skipped
  rw [← Logic.flatten_words, ← Logic.flatten_words,
    Logic.words_dropWhile]

/- The next solid character comes after the spaces. -/
theorem skipped_eq_cons
    {rest chars : List UInt8}
    {k : Nat}
    (hRest : rest.filter (fun c => !isSpace c) =
      chars.drop k)
    (hMore : k < chars.length) :
    ∃ rest',
      skipped rest = chars.getD k 0 :: rest' ∧
        rest'.filter (fun c => !isSpace c) =
          chars.drop (k + 1) := by
  have hStop := List.head?_dropWhile_not isSpace rest
  rw [← filter_skipped, List.drop_eq_getElem_cons hMore]
    at hRest
  unfold skipped at hRest ⊢
  cases hDrop : rest.dropWhile isSpace with
  | nil =>
      rw [hDrop] at hRest
      cases hRest
  | cons c rest' =>
      rw [hDrop] at hStop hRest
      have hSolid : isSpace c = false := by
        simpa using hStop
      rw [List.filter_cons_of_pos (by simp [hSolid]),
        List.cons.injEq] at hRest
      refine ⟨rest', ?_, hRest.2⟩
      rw [hRest.1]
      simp [hMore]

/- The body of the loop once the flag is set. -/
theorem parseStep_of_flag
    (userInput : Ptr)
    {s : ParseState}
    (hFlag : s.flag = true)
    (i : Nat) :
    parseStep userInput s i =
      { s with
        parsedArgs := Function.update s.parsedArgs s.argsPos
          (userInput
            (skipSpaces userInput (2 ^ 32) s.inputPos))
        inputPos :=
          skipSpaces userInput (2 ^ 32) s.inputPos + 1
        argsPos := s.argsPos + 1 } := by
  unfold parseStep
  rw [if_neg (by simp [hFlag])]

namespace Copying

variable {userInput args : Ptr}
variable {chars : List UInt8}
variable {stop k : Nat}
variable {s : ParseState}

/- One more character is copied. -/
theorem step
    (hCopy : Copying userInput args chars stop k s)
    (hMore : k < chars.length)
    (i : Nat) :
    Copying userInput args chars stop (k + 1)
      (parseStep userInput s i) := by
  rcases hCopy.rest with ⟨v, hFit, hStop, hInput, hChars⟩
  have hSkip := skipSpaces_at hFit hInput
  rw [parseStep_of_flag userInput hCopy.flag, hSkip]
  rcases skipped_eq_cons hChars hMore with
    ⟨rest, hCons, hRest⟩
  rw [← v.drop_indent] at hCons
  have hChar : userInput (s.inputPos + v.indent) =
      chars.getD k 0 := by
    rw [hInput, ← Nat.add_zero v.indent,
      ← v.drop_ptr v.indent_le, CString.ptr, hCons,
      if_pos (by simp)]
    rfl
  have hLt : v.indent + 1 ≤ v.chars.length := by
    have hLength := congrArg List.length hCons
    simp only [CString.drop, List.length_drop,
      List.length_cons] at hLength
    omega
  refine ⟨hCopy.flag, ?_, ?_, v.drop (v.indent + 1),
    ?_, ?_, ?_, ?_⟩
  · dsimp only
    rw [hCopy.argsPos]
  · have hBlit := Logic.blit_succ args 0 k
      (fun j => chars.getD j 0)
    rw [Nat.zero_add] at hBlit
    dsimp only
    rw [hCopy.argsPos, hCopy.parsedArgs, hChar, hBlit]
  · simp only [CString.drop, List.length_drop]
    omega
  · simp only [CString.drop, List.length_drop]
    omega
  · intro j
    dsimp only
    rw [v.drop_ptr hLt, ← hInput]
    congr 1
    omega
  · have hDrop : (v.drop (v.indent + 1)).chars = rest := by
      have hTail := congrArg List.tail hCons
      simpa [CString.drop] using hTail
    rw [hDrop, hRest]

/- All characters are copied by as many rounds. -/
theorem foldl
    (hCopy : Copying userInput args chars stop k s)
    (is : List Nat)
    (hMore : k + is.length ≤ chars.length) :
    Copying userInput args chars stop (k + is.length)
      (is.foldl (parseStep userInput) s) := by
  induction is generalizing k s with
  | nil => exact hCopy
  | cons i is ih =>
      rw [List.length_cons] at hMore ⊢
      have hNext := ih (hCopy.step (by omega) i) (by omega)
      rw [Nat.add_right_comm] at hNext
      exact hNext

/- The round after the last character copies the NUL. -/
theorem step_nul
    (hCopy :
      Copying userInput args chars stop chars.length s)
    (i : Nat) :
    (parseStep userInput s i).flag = true ∧
      (parseStep userInput s i).inputPos = stop + 1 ∧
      (parseStep userInput s i).argsPos =
        chars.length + 1 ∧
      (parseStep userInput s i).parsedArgs =
        Function.update s.parsedArgs chars.length 0 := by
  rcases hCopy.rest with ⟨v, hFit, hStop, hInput, hChars⟩
  rw [List.drop_length, List.filter_eq_nil_iff] at hChars
  have hIndent : v.indent = v.chars.length := by
    unfold CString.indent
    rw [List.takeWhile_eq_self_iff.mpr]
    intro c hc
    simpa using hChars c hc
  rw [parseStep_of_flag userInput hCopy.flag,
    skipSpaces_at hFit hInput, hInput, hIndent,
    v.ptr_length]
  dsimp only
  rw [hCopy.argsPos, hStop]
  exact ⟨hCopy.flag, rfl, rfl, rfl⟩

end Copying

/- What lies before the position is not written again. -/
theorem foldl_parseStep_args
    {userInput : Ptr}
    (is : List Nat)
    {s : ParseState}
    (hFlag : s.flag = true)
    {j : Nat}
    (hj : j < s.argsPos) :
    (is.foldl (parseStep userInput) s).parsedArgs j =
      s.parsedArgs j := by
  induction is generalizing s with
  | nil => rfl
  | cons i is ih =>
      have hStep := parseStep_of_flag userInput hFlag i
      rw [List.foldl_cons, ih]
      · rw [hStep]
        exact Function.update_of_ne (by omega) _ _
      · rw [hStep]
        exact hFlag
      · rw [hStep]
        exact Nat.lt_succ_of_lt hj

end MartianPendulum

------------------------------------------------------------
-- The Argument Buffer
------------------------------------------------------------

namespace MartianPendulum

/-
  The characters are in the buffer, and are followed by a
  NUL if there is a second space.
-/
structure CopiedArgs
    (args parsedArgs : Ptr)
    (chars : List UInt8)
    (spaces : Nat) : Prop where
  copied : ∀ j, j < chars.length →
    parsedArgs j = chars.getD j 0
  stop : parsedArgs chars.length =
    if 2 ≤ spaces then 0 else args chars.length

/- All rounds after the one that sets the flag. -/
theorem Copying.copiedArgs
    {userInput args : Ptr}
    {chars : List UInt8}
    {stop : Nat}
    {s : ParseState}
    (hCopy : Copying userInput args chars stop 0 s)
    (is : List Nat)
    {spaces : Nat}
    (hLength : is.length + 1 = chars.length + spaces)
    (hSpaces : 0 < spaces) :
    CopiedArgs args
      (is.foldl (parseStep userInput) s).parsedArgs
      chars spaces := by
  have hTake : (is.take chars.length).length =
      chars.length := by
    rw [List.length_take]
    omega
  have hDone := hCopy.foldl (is.take chars.length)
    (by omega)
  rw [Nat.zero_add, hTake] at hDone
  conv =>
    arg 2
    rw [← List.take_append_drop chars.length is,
      List.foldl_append]
  generalize (is.take chars.length).foldl
    (parseStep userInput) s = s' at hDone ⊢
  cases hDrop : is.drop chars.length with
  | nil =>
      have hOne : ¬ 2 ≤ spaces := by
        have hLeft := congrArg List.length hDrop
        rw [List.length_drop, List.length_nil] at hLeft
        omega
      rw [List.foldl_nil, hDone.parsedArgs]
      refine ⟨?_, ?_⟩
      · intro j hj
        exact Logic.blit_apply_of_lt _ _ hj
      · rw [if_neg hOne]
        exact Logic.blit_apply_of_outside _ _ (by omega)
  | cons i is' =>
      have hTwo : 2 ≤ spaces := by
        have hLeft := congrArg List.length hDrop
        rw [List.length_drop, List.length_cons] at hLeft
        omega
      rcases hDone.step_nul i with ⟨hFlag, -, hPos, hArgs⟩
      -- later rounds write after the NUL
      have hKeep : ∀ j, j < chars.length + 1 →
          (is'.foldl (parseStep userInput)
              (parseStep userInput s' i)).parsedArgs j =
            Function.update s'.parsedArgs chars.length 0
              j := by
        intro j hj
        rw [← hArgs]
        exact foldl_parseStep_args is' hFlag (by omega)
      rw [List.foldl_cons]
      refine ⟨?_, ?_⟩
      · intro j hj
        rw [hKeep j (by omega),
          Function.update_of_ne (by omega),
          hDone.parsedArgs]
        exact Logic.blit_apply_of_lt _ _ hj
      · rw [hKeep _ (by omega), if_pos hTwo]
        exact Function.update_self _ _ _

section Command

variable (s : CString)

theorem length_afterWord_add :
    (firstWord s.chars).length +
        (afterWord s.chars).length =
      (skipped s.chars).length := by
  rw [skipped_eq_append, List.length_append]

/- The input from the end of the first word on. -/
theorem afterWord_input
    (hFit : s.chars.length < 2 ^ 32) :
    ∃ v : CString,
      v.chars = afterWord s.chars ∧
      v.chars.length < 2 ^ 32 ∧
      ∀ i, s.ptr (s.indent + (firstWord s.chars).length + i) =
        v.ptr i := by
  have hLe := length_skipped_le s.chars
  have hSum := length_afterWord_add s
  have hChars := congrArg
    (List.drop (firstWord s.chars).length) s.drop_indent
  rw [skipped_eq_append, List.drop_left] at hChars
  refine ⟨(s.drop s.indent).drop (firstWord s.chars).length,
    hChars, ?_, ?_⟩
  · have hLength := congrArg List.length hChars
    simp only [CString.drop] at hLength ⊢
    omega
  · intro i
    rw [CString.drop_ptr _ (by
        rw [s.drop_indent]
        exact length_firstWord_le s),
      CString.drop_ptr _ s.indent_le, Nat.add_assoc]

/- The spaces and the words make up the command. -/
theorem indent_add_length :
    s.indent + (firstWord s.chars).length +
        (afterWord s.chars).length =
      s.chars.length := by
  have hLe := s.indent_le
  have hSum := length_afterWord_add s
  have hLength := congrArg List.length s.drop_indent
  simp only [CString.drop, List.length_drop] at hLength
  omega

/-
  The round at the first space sets the flag and copies
  nothing.
-/
theorem copying_start
    (hFit : s.chars.length < 2 ^ 32)
    (hRest : afterWord s.chars ≠ [])
    (fname args : Ptr)
    (i : Nat) :
    Copying s.ptr args (argChars s.chars) s.chars.length 0
      (parseStep s.ptr
        (wordState s.ptr s.indent fname args
          (firstWord s.chars).length) i) := by
  rcases afterWord_input s hFit with ⟨v, hv, hvFit, hInput⟩
  have hStop := indent_add_length s
  have hHere : s.ptr (s.indent +
      (firstWord s.chars).length) = Display.space := by
    have hSum := length_afterWord_add s
    have hPos := List.length_pos_iff.mpr hRest
    apply ptr_firstWord_end
    omega
  have hStep : parseStep s.ptr
      (wordState s.ptr s.indent fname args
        (firstWord s.chars).length) i =
      { wordState s.ptr s.indent fname args
          (firstWord s.chars).length with
        flag := true } := by
    simp [parseStep, wordState, hHere]
  rw [hStep]
  refine ⟨rfl, rfl, ?_, v, hvFit, ?_, hInput, ?_⟩
  · exact (Logic.blit_zero _ _ _).symm
  · rw [hv]
    exact hStop
  · rw [hv]
    rfl

/- The buffer for the arguments after `parse_args`. -/
theorem parseArgs_args
    (hFit : s.chars.length < 2 ^ 32)
    (fileName args : Ptr) :
    CopiedArgs (Logic.blit args 0 50 (fun _ => 0))
      (parseArgs s.ptr fileName args).2
      (argChars s.chars) (argSpaces s.chars) := by
  have hSum := length_afterWord_add s
  have hRest := length_afterWord s.chars
  have hNoSpace : ∀ j, j < (firstWord s.chars).length →
      s.ptr (s.indent + j) ≠ Display.space :=
    fun j hj => (ptr_firstWord s hj).1
  have hParse : (parseArgs s.ptr fileName args).2 =
      ((List.range (skipped s.chars).length).foldl
        (parseStep s.ptr)
        (wordState s.ptr s.indent
          (Logic.blit fileName 0 50 (fun _ => 0))
          (Logic.blit args 0 50 (fun _ => 0)) 0
        )).parsedArgs := by
    simp only [parseArgs, skipSpaces_indent s hFit,
      strlen_indent s hFit, wordState, Logic.blit_zero,
      Nat.add_zero]
  rw [hParse, ← hSum, List.range_add, List.foldl_append,
    foldl_parseStep_word s.indent _ _ hNoSpace]
  generalize hIs : (List.range (afterWord s.chars).length
    ).map ((firstWord s.chars).length + ·) = is
  have hLength : is.length = (afterWord s.chars).length := by
    rw [← hIs, List.length_map, List.length_range]
  cases is with
  | nil =>
      rw [List.length_nil] at hLength
      have hNone : argChars s.chars = [] :=
        List.length_eq_zero_iff.mp (by omega)
      rw [hNone, List.foldl_nil]
      exact ⟨by simp, (if_neg (by omega)).symm⟩
  | cons i is =>
      rw [List.length_cons] at hLength
      have hSome : afterWord s.chars ≠ [] := by
        intro hNil
        rw [hNil, List.length_nil] at hLength
        omega
      rw [List.foldl_cons]
      exact (copying_start s hFit hSome _ _ i).copiedArgs is
        (by omega) (argSpaces_pos hSome)

end Command

end MartianPendulum

------------------------------------------------------------
-- Argument Strings
------------------------------------------------------------

namespace MartianPendulum

/-
  The argument string ends in the cleared part of the
  buffer, or with a NUL that the loop copies.
-/
def ArgsEnd
    (chars : List UInt8) : Prop :=
  (argChars chars).length < 50 ∨ 2 ≤ argSpaces chars

/- A string and its NUL in a buffer of `n` bytes. -/
def HoldsString
    (buf : Ptr)
    (n : Nat)
    (chars : List UInt8) : Prop :=
  cut buf n = chars ∧ chars.length < n

section Command

variable (s : CString)

theorem argChars_nonzero :
    ∀ c ∈ argChars s.chars, c ≠ 0 := by
  intro c hc
  have hRest := List.mem_of_mem_filter hc
  have hSkipped :=
    (List.dropWhile_suffix (fun c => !isSpace c)).subset hRest
  exact s.nonzero c
    ((List.dropWhile_suffix isSpace).subset hSkipped)

theorem length_argChars_le :
    (argChars s.chars).length ≤ s.chars.length := by
  have hRest := length_afterWord s.chars
  have hSum := length_afterWord_add s
  have hLe := length_skipped_le s.chars
  omega

/- A terminated argument string is the joined words. -/
theorem cut_parseArgs_args
    (hLength : s.chars.length < argLen)
    (hEnd : ArgsEnd s.chars)
    (fileName args : Ptr) :
    cut (parseArgs s.ptr fileName args).2 argLen =
      argChars s.chars := by
  have hLe := length_argChars_le s
  have hFit : s.chars.length < 2 ^ 32 :=
    Nat.lt_trans hLength (by decide)
  have hArgs := parseArgs_args s hFit fileName args
  apply cut_eq_of (by omega) hArgs.copied (argChars_nonzero s)
  intro _
  rw [hArgs.stop]
  split
  next => rfl
  next hOne =>
    have hCleared := hEnd.resolve_right hOne
    exact Logic.blit_apply_of_lt _ _ hCleared

/- Otherwise a byte left in the buffer follows. -/
theorem parseArgs_args_stale
    (hFit : s.chars.length < 2 ^ 32)
    (hEnd : ¬ ArgsEnd s.chars)
    (fileName args : Ptr) :
    (parseArgs s.ptr fileName args).2
        (argChars s.chars).length =
      args (argChars s.chars).length := by
  unfold ArgsEnd at hEnd
  have hArgs := parseArgs_args s hFit fileName args
  rw [hArgs.stop, if_neg (by omega)]
  exact Logic.blit_apply_of_outside _ _ (by omega)

/-
  With a character that is no space left there, the string
  has more characters than the words.
-/
theorem lt_length_filter_of_stale
    (hFit : s.chars.length < 2 ^ 32)
    (hEnd : ¬ ArgsEnd s.chars)
    (fileName args : Ptr)
    {n : Nat}
    (hRoom : (argChars s.chars).length < n)
    (hStale : args (argChars s.chars).length ≠ 0)
    (hSolid : args (argChars s.chars).length ≠
      Display.space) :
    (argChars s.chars).length <
      ((cut (parseArgs s.ptr fileName args).2 n).filter
        (fun c => !isSpace c)).length := by
  have hCopied :=
    (parseArgs_args s hFit fileName args).copied
  have hNext := parseArgs_args_stale s hFit hEnd fileName args
  have hArgChars := argChars_nonzero s
  have hSolidArgs : ∀ c ∈ argChars s.chars,
      (!isSpace c) = true :=
    fun c hc => (List.mem_filter.mp hc).2
  generalize argChars s.chars = chars at *
  have hLong : chars ++ [args chars.length] <+:
      cut (parseArgs s.ptr fileName args).2 n := by
    apply prefix_cut
    · rw [List.length_append, List.length_singleton]
      exact hRoom
    · intro j hj
      rw [List.length_append, List.length_singleton] at hj
      by_cases hLast : j = chars.length
      · subst hLast
        simpa using hNext
      · have hIn : j < chars.length := by omega
        rw [hCopied j hIn]
        simp [List.getElem?_append_left hIn]
    · intro c hc
      rcases List.mem_append.mp hc with hOld | hNew
      · exact hArgChars c hOld
      · rw [List.mem_singleton.mp hNew]
        exact hStale
  have hKeep : (chars ++ [args chars.length]).filter
      (fun c => !isSpace c) =
        chars ++ [args chars.length] := by
    rw [List.filter_eq_self]
    intro c hc
    rcases List.mem_append.mp hc with hOld | hNew
    · exact hSolidArgs c hOld
    · rw [List.mem_singleton.mp hNew]
      simpa [isSpace] using hSolid
  have hLength :=
    (hLong.sublist.filter (fun c => !isSpace c)).length_le
  rw [hKeep, List.length_append, List.length_singleton]
    at hLength
  exact hLength

end Command

end MartianPendulum

------------------------------------------------------------
-- Words
------------------------------------------------------------

namespace MartianPendulum

/-
  The buffers of `syscall_execute` hold strings, and these
  are the words of the command.
-/
def KeepsWords
    (s : CString)
    (fileName args : Ptr) : Prop :=
  ∃ name text,
    HoldsString (parseArgs s.ptr fileName args).1 33 name ∧
    HoldsString (parseArgs s.ptr fileName args).2 argLen
      text ∧
    name :: Logic.words isSpace text =
      Logic.words isSpace s.chars

/- A buffer in which an earlier call left letters. -/
def usedBuffer : Ptr :=
  fun _ => 97

section Command

variable {s : CString}
variable (hLength : s.chars.length ≤ 127)
variable (hWord : ∃ c ∈ s.chars, c ≠ Display.space)

include hLength in
theorem length_lt_argLen :
    s.chars.length < argLen :=
  Nat.lt_succ_of_le hLength

include hLength in
theorem length_lt_two_pow :
    s.chars.length < 2 ^ 32 :=
  Nat.lt_of_le_of_lt hLength (by decide)

include hLength hWord in
/- Old letters show that the string must be terminated. -/
theorem KeepsWords.argsEnd
    {fileName : Ptr}
    (hKeeps : KeepsWords s fileName usedBuffer) :
    ArgsEnd s.chars := by
  by_contra hOpen
  rcases hKeeps with ⟨name, text, -, hText, hEq⟩
  rw [words_command hWord, List.cons.injEq] at hEq
  have hFlat := congrArg List.flatten hEq.2
  rw [Logic.flatten_words, Logic.flatten_words] at hFlat
  have hMore := lt_length_filter_of_stale s
    (length_lt_two_pow hLength) hOpen fileName usedBuffer
    (Nat.lt_of_le_of_lt (length_argChars_le s)
      (length_lt_argLen hLength))
    (show (97 : UInt8) ≠ 0 by decide)
    (show (97 : UInt8) ≠ Display.space by decide)
  rw [hText.1, hFlat] at hMore
  exact Nat.lt_irrefl _ hMore

include hLength hWord in
/- A terminated string holds the joined words. -/
theorem KeepsWords.length_le
    (hEnd : ArgsEnd s.chars)
    {fileName args : Ptr}
    (hKeeps : KeepsWords s fileName args) :
    (Logic.words isSpace s.chars).length ≤ 2 := by
  rcases hKeeps with ⟨name, text, -, hText, hEq⟩
  have hCut := cut_parseArgs_args s
    (length_lt_argLen hLength) hEnd fileName args
  rw [hText.1] at hCut
  rw [words_command hWord, List.cons.injEq, hCut] at hEq
  rw [words_command hWord, List.length_cons]
  exact Nat.succ_le_succ
    ((Logic.words_filter_eq_iff isSpace _).mp hEq.2)

include hLength hWord in
theorem keepsWords_of_argsEnd
    (hFirst : (firstWord s.chars).length ≤ 32)
    (hEnd : ArgsEnd s.chars)
    (hFew : (Logic.words isSpace s.chars).length ≤ 2)
    (fileName args : Ptr) :
    KeepsWords s fileName args := by
  have hShort := length_lt_argLen hLength
  rw [words_command hWord, List.length_cons] at hFew
  refine ⟨firstWord s.chars, argChars s.chars, ⟨?_, ?_⟩,
    ⟨?_, ?_⟩, ?_⟩
  · rw [cut_parseArgs_fname s (length_lt_two_pow hLength)]
    exact List.take_of_length_le (by omega)
  · omega
  · exact cut_parseArgs_args s hShort hEnd fileName args
  · exact Nat.lt_of_le_of_lt (length_argChars_le s) hShort
  · rw [words_command hWord, List.cons.injEq]
    exact ⟨rfl, (Logic.words_filter_eq_iff isSpace _).mpr
      (Nat.le_of_succ_le_succ hFew)⟩

end Command

/-
  Exactly which commands are kept, whatever the buffers and
  the memory after the command hold: those of at most two
  words, whose second word has less than 50 characters or
  stands among more than one space.
-/
theorem keepsWords_iff
    (chars : List UInt8)
    (hNonzero : ∀ c ∈ chars, c ≠ 0)
    (hLength : chars.length ≤ 127)
    (hWord : ∃ c ∈ chars, c ≠ Display.space)
    (hFirst : (firstWord chars).length ≤ 32) :
    (∀ after fileName args,
      KeepsWords ⟨chars, after, hNonzero⟩ fileName args) ↔
    ((Logic.words isSpace chars).length ≤ 2 ∧
      ((argChars chars).length < 50 ∨
        2 ≤ argSpaces chars)) := by
  constructor
  · intro hAll
    have hEnd := (hAll (fun _ => 0) (fun _ => 0)
      usedBuffer).argsEnd hLength hWord
    exact ⟨(hAll (fun _ => 0) (fun _ => 0)
      usedBuffer).length_le hLength hWord hEnd, hEnd⟩
  · rintro ⟨hFew, hEnd⟩ after fileName args
    exact keepsWords_of_argsEnd
      (s := ⟨chars, after, hNonzero⟩) hLength hWord hFirst
      hEnd hFew fileName args

/- `cat frame0` is kept. -/
def catCommand : List UInt8 :=
  [99, 97, 116, 32, 102, 114, 97, 109, 101, 48]

theorem catCommand_nonzero :
    ∀ c ∈ catCommand, c ≠ 0 := by
  simp [catCommand]

theorem keepsWords_iff_cat :
    KeepsWords
      ⟨catCommand, fun _ => 0, catCommand_nonzero⟩
      (fun _ => 0) usedBuffer :=
  (keepsWords_iff catCommand catCommand_nonzero (by decide)
    ⟨99, by decide, by decide⟩ (by decide)).mpr
    ⟨by decide, Or.inl (by decide)⟩ _ _ _

/- `cat a b` -/
def twoArgsCommand : CString :=
  { chars := [99, 97, 116, 32, 97, 32, 98]
    after := fun _ => 0
    nonzero := by simp }

/- The two arguments are joined. -/
theorem two_arguments_joined :
    ¬ ∀ (s : CString) (fileName args : Ptr),
      s.chars.length ≤ 127 →
      (∃ c ∈ s.chars, c ≠ Display.space) →
      (firstWord s.chars).length ≤ 32 →
        KeepsWords s fileName args := by
  intro hAll
  have hWord : ∃ c ∈ twoArgsCommand.chars,
      c ≠ Display.space :=
    ⟨99, by decide, by decide⟩
  have hKeeps := hAll twoArgsCommand (fun _ => 0)
    (fun _ => 0) (by decide) hWord (by decide)
  have hFew := hKeeps.length_le (by decide) hWord
    (Or.inl (by decide))
  exact absurd hFew (by decide)

end MartianPendulum

------------------------------------------------------------
-- Stored Arguments
------------------------------------------------------------

namespace MartianPendulum

/- The arguments in the PCB that `syscall_execute` fills. -/
def storedArgs
    (newPid parentPid : Int)
    (p : PCB)
    (s : CString)
    (fileName args : Ptr) : List UInt8 :=
  cut (initPcb newPid parentPid
    (parseArgs s.ptr fileName args).2 p).args argLen

theorem storedArgs_eq
    (newPid parentPid : Int)
    (p : PCB)
    (s : CString)
    (fileName args : Ptr) :
    storedArgs newPid parentPid p s fileName args =
      cut (parseArgs s.ptr fileName args).2 argLen :=
  cut_strncpy _ _ _

/-
  Two calls with one command, which differ in what lies
  after the command and in the buffer for the arguments,
  agree in the name and in the stored arguments.
-/
def StaleFree
    (chars : List UInt8) : Prop :=
  ∀ (s₁ s₂ : CString) (fileName args₁ args₂ : Ptr)
      (newPid parentPid : Int) (p : PCB),
    s₁.chars = chars → s₂.chars = chars →
      cut (parseArgs s₁.ptr fileName args₁).1 33 =
          cut (parseArgs s₂.ptr fileName args₂).1 33 ∧
        storedArgs newPid parentPid p s₁ fileName args₁ =
          storedArgs newPid parentPid p s₂ fileName args₂

/- A terminated string does not depend on old bytes. -/
theorem staleFree_of_argsEnd
    {chars : List UInt8}
    (hLength : chars.length ≤ 127)
    (hEnd : ArgsEnd chars) :
    StaleFree chars := by
  rintro s₁ s₂ fileName args₁ args₂ newPid parentPid p
    rfl hSame
  have hLength₂ : s₂.chars.length ≤ 127 := by rwa [hSame]
  have hEnd₂ : ArgsEnd s₂.chars := by rwa [hSame]
  constructor
  · rw [cut_parseArgs_fname s₁ (length_lt_two_pow hLength),
      cut_parseArgs_fname s₂ (length_lt_two_pow hLength₂),
      hSame]
  · rw [storedArgs_eq, storedArgs_eq,
      cut_parseArgs_args s₁ (length_lt_argLen hLength) hEnd,
      cut_parseArgs_args s₂ (length_lt_argLen hLength₂)
        hEnd₂, hSame]

/-
  Two contents of the buffer that differ behind the last
  character are told apart.
-/
theorem StaleFree.argsEnd
    {s : CString}
    (hLength : s.chars.length ≤ 127)
    (hFree : StaleFree s.chars) :
    ArgsEnd s.chars := by
  by_contra hOpen
  have hFit := length_lt_two_pow hLength
  have hRoom : (argChars s.chars).length < argLen :=
    Nat.lt_of_le_of_lt (length_argChars_le s)
      (length_lt_argLen hLength)
  have hSame := (hFree s s (fun _ => 0) (fun _ => 0)
    usedBuffer 0 0 (blankKernel.pcb 0) rfl rfl).2
  rw [storedArgs_eq, storedArgs_eq] at hSame
  -- a cleared buffer ends the string, a used one does not
  have hCleared : cut (parseArgs s.ptr (fun _ => 0)
      (fun _ => 0)).2 argLen = argChars s.chars := by
    apply cut_eq_of hRoom.le
      (parseArgs_args s hFit _ _).copied (argChars_nonzero s)
    intro _
    exact parseArgs_args_stale s hFit hOpen _ _
  have hUsed := lt_length_filter_of_stale s hFit hOpen
    (fun _ => 0) usedBuffer hRoom
    (show (97 : UInt8) ≠ 0 by decide)
    (show (97 : UInt8) ≠ Display.space by decide)
  rw [← hSame, hCleared] at hUsed
  have hLe := (argChars s.chars).length_filter_le
    (fun c => !isSpace c)
  omega

/-
  Exactly which commands leave nothing of the buffer in the
  new PCB.
-/
theorem storedArgs_eq_iff
    (chars : List UInt8)
    (hNonzero : ∀ c ∈ chars, c ≠ 0)
    (hLength : chars.length ≤ 127) :
    StaleFree chars ↔
      ((argChars chars).length < 50 ∨
        2 ≤ argSpaces chars) := by
  constructor
  · intro hFree
    exact StaleFree.argsEnd
      (s := ⟨chars, fun _ => 0, hNonzero⟩) hLength hFree
  · exact staleFree_of_argsEnd hLength

theorem storedArgs_eq_iff_cat :
    StaleFree catCommand :=
  (storedArgs_eq_iff catCommand catCommand_nonzero
    (by decide)).mpr (Or.inl (by decide))

/- A name, a space, and fifty letters. -/
def longArgCommand : CString :=
  { chars := [99, 97, 116, 32] ++ List.replicate 50 97
    after := fun _ => 0
    nonzero := by simp }

/- What the buffer held follows the fifty letters. -/
theorem stale_bytes_stored :
    ¬ ∀ chars : List UInt8,
      (∀ c ∈ chars, c ≠ 0) → chars.length ≤ 127 →
      (firstWord chars).length ≤ 32 →
        StaleFree chars := by
  intro hAll
  have hEnd := StaleFree.argsEnd (s := longArgCommand)
    (by decide)
    (hAll longArgCommand.chars longArgCommand.nonzero
      (by decide) (by decide))
  exact absurd hEnd (by unfold ArgsEnd; decide)

end MartianPendulum
