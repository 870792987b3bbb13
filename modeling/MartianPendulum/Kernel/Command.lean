import Mathlib.Data.List.TakeWhile
import MartianPendulum.Logic.Loop
import MartianPendulum.Kernel.Process

/-
  The command line of `syscall_execute`.

  `parse_args` copies the characters before the first space
  into the buffer for the file name.  The buffer is not
  bounded, but a name is looked up by its first 33 bytes.

  Key definitions include:
    * `firstWord`

  Key theorems include:
    * `parseArgs_fname`
    * `readDentryByName_command`
-/

------------------------------------------------------------
-- Words
------------------------------------------------------------

namespace MartianPendulum

def isSpace
    (c : UInt8) : Bool :=
  c = Display.space

/- The command without the spaces in front of it. -/
def skipped
    (chars : List UInt8) : List UInt8 :=
  chars.dropWhile isSpace

/- The first word of a command. -/
def firstWord
    (chars : List UInt8) : List UInt8 :=
  (skipped chars).takeWhile (fun c => !isSpace c)

namespace CString

/- A string from one of its characters on. -/
def drop
    (s : CString)
    (n : Nat) : CString :=
  { chars := s.chars.drop n
    after := s.after
    nonzero := fun c hc =>
      s.nonzero c (List.mem_of_mem_drop hc) }

theorem drop_ptr
    (s : CString)
    {n : Nat}
    (hn : n ≤ s.chars.length)
    (i : Nat) :
    (s.drop n).ptr i = s.ptr (n + i) := by
  simp only [ptr, drop, List.length_drop,
    List.getD_eq_getElem?_getD, List.getElem?_drop]
  rcases Nat.lt_trichotomy i (s.chars.length - n) with
    hLt | hEq | hGt
  · have hLt' : n + i < s.chars.length := by omega
    rw [if_pos hLt, if_pos hLt']
  · have hEq' : n + i = s.chars.length := by omega
    simp [hEq, Nat.add_sub_of_le hn]
  · have hNe : i ≠ s.chars.length - n := by omega
    have hNotLt : ¬ n + i < s.chars.length := by omega
    have hNe' : n + i ≠ s.chars.length := by omega
    rw [if_neg (by omega), if_neg hNe, if_neg hNotLt,
      if_neg hNe']
    congr 1
    omega

end CString

/- The loop over spaces stops at the first other byte. -/
theorem skipSpaces_eq
    {userInput : Ptr}
    {fuel i m : Nat}
    (hSpaces : ∀ j, j < m →
      userInput (i + j) = Display.space)
    (hStop : userInput (i + m) ≠ Display.space)
    (hFuel : m ≤ fuel) :
    skipSpaces userInput fuel i = i + m := by
  induction m generalizing fuel i with
  | zero =>
      cases fuel with
      | zero => rfl
      | succ fuel =>
          rw [Nat.add_zero] at hStop
          rw [skipSpaces, if_neg hStop, Nat.add_zero]
  | succ m ih =>
      cases fuel with
      | zero => omega
      | succ fuel =>
          have hHere := hSpaces 0 (Nat.succ_pos m)
          rw [Nat.add_zero] at hHere
          rw [skipSpaces, if_pos hHere,
            ih (i := i + 1) _ _ (by omega)]
          · omega
          · intro j hj
            have hNext := hSpaces (j + 1) (by omega)
            rwa [← Nat.add_assoc, Nat.add_right_comm]
              at hNext
          · rwa [← Nat.add_assoc, Nat.add_right_comm]
              at hStop

end MartianPendulum

------------------------------------------------------------
-- The File Name
------------------------------------------------------------

namespace MartianPendulum

section Loop

variable (userInput : Ptr)
variable (start : Nat)
variable (fname args : Ptr)

/- The locals after `n` characters of the first word. -/
def wordState
    (n : Nat) : ParseState :=
  { flag := false
    inputPos := start + n
    parsedFname :=
      Logic.blit fname 0 n (fun j => userInput (start + j))
    parsedArgs := args
    argsPos := 0 }

variable {userInput}

/- The loop copies the first word. -/
theorem foldl_parseStep_word
    {n : Nat}
    (hWord : ∀ j, j < n →
      userInput (start + j) ≠ Display.space) :
    (List.range n).foldl (parseStep userInput)
        (wordState userInput start fname args 0) =
      wordState userInput start fname args n := by
  induction n with
  | zero => rfl
  | succ n ih =>
      rw [List.range_succ, List.foldl_append,
        ih (fun j hj => hWord j (by omega)),
        List.foldl_cons, List.foldl_nil]
      have hChar := hWord n (Nat.lt_succ_self n)
      have hCopy := Logic.blit_succ fname 0 n
        (fun j => userInput (start + j))
      rw [Nat.zero_add] at hCopy
      simp only [parseStep, wordState, ne_eq, hChar,
        not_false_eq_true, if_true, hCopy]
      rfl

/- From the first space on the file name is complete. -/
theorem foldl_parseStep_fname
    (l : List Nat)
    {s : ParseState}
    (hDone : s.flag = true ∨
      userInput s.inputPos = Display.space) :
    (l.foldl (parseStep userInput) s).parsedFname =
      s.parsedFname := by
  refine (Logic.foldl_preserves
    (R := fun (s s' : ParseState) =>
      s'.parsedFname = s.parsedFname)
    (I := fun (s : ParseState) => s.flag = true ∨
      userInput s.inputPos = Display.space)
    (fun _ => rfl)
    (fun _ _ _ h₁ h₂ => h₂.trans h₁) ?_ hDone).1
  intro s i _ hDone
  unfold parseStep
  cases hFlag : s.flag with
  | true => simp
  | false =>
      have hSpace : userInput s.inputPos = Display.space := by
        simpa [hFlag] using hDone
      simp [hSpace]

end Loop

/- The characters before the first that fails a test. -/
theorem takeWhile_spec
    (p : UInt8 → Bool)
    (chars : List UInt8) :
    (∀ j, j < (chars.takeWhile p).length →
      p (chars.getD j 0) = true ∧
        (chars.takeWhile p).getD j 0 = chars.getD j 0) ∧
      ((chars.takeWhile p).length < chars.length →
        p (chars.getD (chars.takeWhile p).length 0) =
          false) := by
  induction chars with
  | nil => simp
  | cons c chars ih =>
      cases hc : p c with
      | false => simp [hc]
      | true =>
          rw [List.takeWhile_cons, if_pos hc]
          refine ⟨?_, ?_⟩
          · intro j hj
            cases j with
            | zero => exact ⟨hc, rfl⟩
            | succ j =>
                rw [List.getD_cons_succ,
                  List.getD_cons_succ]
                exact ih.1 j (Nat.lt_of_succ_lt_succ hj)
          · intro hLt
            rw [List.length_cons, List.getD_cons_succ]
            exact ih.2 (Nat.lt_of_succ_lt_succ hLt)

theorem drop_length_takeWhile
    (p : UInt8 → Bool)
    (chars : List UInt8) :
    chars.drop (chars.takeWhile p).length =
      chars.dropWhile p := by
  induction chars with
  | nil => rfl
  | cons c chars ih =>
      cases hc : p c with
      | false => simp [hc]
      | true => simp [hc, ih]

section Command

variable (s : CString)

/- The number of spaces in front of a command. -/
def CString.indent : Nat :=
  (s.chars.takeWhile isSpace).length

theorem CString.indent_le :
    s.indent ≤ s.chars.length :=
  (List.takeWhile_prefix isSpace).length_le

theorem CString.drop_indent :
    (s.drop s.indent).chars = skipped s.chars :=
  drop_length_takeWhile isSpace s.chars

theorem CString.ptr_indent
    (i : Nat) :
    s.ptr (s.indent + i) = (s.drop s.indent).ptr i :=
  (s.drop_ptr s.indent_le i).symm

/- A string begins with its indent and no further space. -/
theorem CString.indent_spec :
    (∀ j, j < s.indent → s.ptr j = Display.space) ∧
      s.ptr s.indent ≠ Display.space := by
  have hSpec := takeWhile_spec isSpace s.chars
  have hLe := s.indent_le
  constructor
  · intro j hj
    have hSpace := (hSpec.1 j hj).1
    rw [CString.ptr, if_pos (by omega)]
    simpa [isSpace] using hSpace
  · rcases hLe.lt_or_eq with hLt | hEq
    · have hStop := hSpec.2 hLt
      rw [CString.ptr, if_pos hLt]
      simpa [isSpace, CString.indent] using hStop
    · rw [hEq, s.ptr_length]
      decide

/- The spaces in front of a string are skipped. -/
theorem skipSpaces_at
    {userInput : Ptr}
    {pos : Nat}
    {v : CString}
    (hFit : v.chars.length < 2 ^ 32)
    (hInput : ∀ i, userInput (pos + i) = v.ptr i) :
    skipSpaces userInput (2 ^ 32) pos = pos + v.indent := by
  have hLe := v.indent_le
  apply skipSpaces_eq
  · intro j hj
    rw [hInput]
    exact v.indent_spec.1 j hj
  · rw [hInput]
    exact v.indent_spec.2
  · omega

/- The first loop of `parse_args` skips the spaces. -/
theorem skipSpaces_indent
    (hFit : s.chars.length < 2 ^ 32) :
    skipSpaces s.ptr (2 ^ 32) 0 = s.indent := by
  have hInput : ∀ i, s.ptr (0 + i) = s.ptr i := by
    intro i
    rw [Nat.zero_add]
  rw [skipSpaces_at hFit hInput, Nat.zero_add]

theorem strlen_indent
    (hFit : s.chars.length < 2 ^ 32) :
    strlen (fun i => s.ptr (s.indent + i)) =
      (skipped s.chars).length := by
  simp only [s.ptr_indent]
  rw [← s.drop_indent]
  apply strlen_eq
  · rw [CString.drop, List.length_drop]
    omega
  · exact CString.ptr_length _
  · intro i hi
    exact CString.ptr_ne_zero _ hi

theorem length_firstWord_le :
    (firstWord s.chars).length ≤
      (skipped s.chars).length :=
  (List.takeWhile_prefix _).length_le

theorem ptr_skipped
    {j : Nat}
    (hj : j < (skipped s.chars).length) :
    s.ptr (s.indent + j) = (skipped s.chars).getD j 0 := by
  rw [s.ptr_indent, CString.ptr, s.drop_indent, if_pos hj]

/- The characters of the first word. -/
theorem ptr_firstWord
    {j : Nat}
    (hj : j < (firstWord s.chars).length) :
    s.ptr (s.indent + j) ≠ Display.space ∧
      s.ptr (s.indent + j) =
        (firstWord s.chars).getD j 0 := by
  have hChar := (takeWhile_spec (fun c => !isSpace c)
    (skipped s.chars)).1 j hj
  rw [ptr_skipped s (hj.trans_le (length_firstWord_le s))]
  refine ⟨?_, hChar.2.symm⟩
  simpa [isSpace] using hChar.1

/- The first word ends at a space or with the command. -/
theorem ptr_firstWord_end
    (hMore : (firstWord s.chars).length <
      (skipped s.chars).length) :
    s.ptr (s.indent + (firstWord s.chars).length) =
      Display.space := by
  have hEnd := (takeWhile_spec (fun c => !isSpace c)
    (skipped s.chars)).2 hMore
  rw [ptr_skipped s hMore]
  simpa [isSpace, firstWord] using hEnd

/- The loop of `parse_args` over the whole command. -/
theorem foldl_parseStep_command
    (fname args : Ptr) :
    ((List.range (skipped s.chars).length).foldl
        (parseStep s.ptr)
        (wordState s.ptr s.indent fname args 0)).parsedFname =
      Logic.blit fname 0 (firstWord s.chars).length
        (fun j => (firstWord s.chars).getD j 0) := by
  rcases
      Nat.exists_eq_add_of_le (length_firstWord_le s) with
    ⟨extra, hExtra⟩
  have hNoSpace : ∀ j, j < (firstWord s.chars).length →
      s.ptr (s.indent + j) ≠ Display.space :=
    fun j hj => (ptr_firstWord s hj).1
  rw [hExtra, List.range_add, List.foldl_append,
    foldl_parseStep_word s.indent fname args hNoSpace]
  have hRest :
      (((List.range extra).map
          ((firstWord s.chars).length + ·)).foldl
        (parseStep s.ptr)
        (wordState s.ptr s.indent fname args
          (firstWord s.chars).length)).parsedFname =
      (wordState s.ptr s.indent fname args
        (firstWord s.chars).length).parsedFname := by
    cases extra with
    | zero => rfl
    | succ extra =>
        apply foldl_parseStep_fname
        exact Or.inr (ptr_firstWord_end s (by omega))
  rw [hRest]
  dsimp only [wordState]
  apply Logic.blit_congr
  intro j hj
  exact (ptr_firstWord s hj).2

/- The buffer for the file name after `parse_args`. -/
theorem parseArgs_fname
    (hFit : s.chars.length < 2 ^ 32)
    (fileName args : Ptr) :
    (parseArgs s.ptr fileName args).1 =
      Logic.blit (Logic.blit fileName 0 50 (fun _ => 0)) 0
        (firstWord s.chars).length
        (fun j => (firstWord s.chars).getD j 0) := by
  rw [← foldl_parseStep_command s _
    (Logic.blit args 0 50 (fun _ => 0))]
  simp only [parseArgs, skipSpaces_indent s hFit,
    strlen_indent s hFit, wordState, Logic.blit_zero,
    Nat.add_zero]

/- What the name is looked up by. -/
theorem cut_parseArgs_fname
    (hFit : s.chars.length < 2 ^ 32)
    (fileName args : Ptr) :
    cut (parseArgs s.ptr fileName args).1 33 =
      (firstWord s.chars).take 33 := by
  have hWord : ∀ c ∈ firstWord s.chars, c ≠ 0 := by
    intro c hc
    have hMem := (List.takeWhile_prefix _).subset hc
    exact s.nonzero c
      ((List.dropWhile_suffix isSpace).subset hMem)
  rw [parseArgs_fname s hFit]
  refine cut_eq_of (by simp) ?_ ?_ ?_
  · intro j hj
    rw [List.length_take] at hj
    rw [Logic.blit_apply_of_lt _ _ (by omega),
      List.getD_eq_getElem?_getD,
      List.getD_eq_getElem?_getD,
      List.getElem?_take_of_lt (by omega)]
  · exact fun c hc => hWord c (List.mem_of_mem_take hc)
  · intro hLt
    rw [List.length_take] at hLt ⊢
    rw [Logic.blit_apply_of_outside _ _ (by omega),
      Logic.blit_apply_of_lt _ _ (by omega)]

/- The entry that the first word of a command names. -/
theorem readDentryByName_command
    (hFit : s.chars.length < 2 ^ 32)
    (fs : FileSystem)
    (fileName args : Ptr)
    (dentry : Dentry) :
    readDentryByName fs (parseArgs s.ptr fileName args).1
        dentry =
      match fs.lookup (firstWord s.chars) with
      | some d => (0, fillDentry dentry d)
      | none => (-1, dentry) := by
  have hLookup :
      fs.lookup ((firstWord s.chars).take 33) =
        fs.lookup (firstWord s.chars) := by
    by_cases hShort : (firstWord s.chars).length ≤ 33
    · rw [List.take_of_length_le hShort]
    · rw [lookup_eq_none_of_long fs (by
          rw [List.length_take]
          omega),
        lookup_eq_none_of_long fs (by omega)]
  have hFound := readDentryByName_ptr fs
    (parseArgs s.ptr fileName args).1 dentry
  rw [cut_parseArgs_fname s hFit fileName args,
    hLookup] at hFound
  exact hFound

end Command

end MartianPendulum
