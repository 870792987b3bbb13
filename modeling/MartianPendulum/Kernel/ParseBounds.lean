import MartianPendulum.Kernel.Arguments

/-
  The memory that `parse_args` reads and writes.

  The accesses are listed along the same states as the run
  of the loop.  The first clearing alone leaves the buffer
  of 33 bytes that `syscall_execute` passes for the name.
  The loop itself stays in bounds for short commands with
  at most two spaces after the first word; with a third one
  it reads on behind the NUL.

  Key definitions include:
    * `Access`
    * `clearAccesses`, `scanAccesses`
    * `parseAccesses`
    * `InBounds`

  Key theorems include:
    * `parseArgs_frame`
    * `scanAccesses_inBounds_iff`
    * `parseAccesses_not_inBounds`
-/

------------------------------------------------------------
-- Accesses
------------------------------------------------------------

namespace MartianPendulum

/-
  A byte of the command or of one of the two buffers, by its
  index from the pointer that was passed.
-/
inductive Access where
| readInput (i : Nat)
| writeFname (i : Nat)
| writeArgs (i : Nat)
deriving DecidableEq

/- The reads of `while (*user_input == ' ') user_input++`. -/
def skipReads
    (userInput : Ptr) :
    Nat → Nat → List Access
| 0, _ => []
| fuel + 1, i =>
    .readInput i ::
      if userInput i = Display.space then
        skipReads userInput fuel (i + 1)
      else []

/- The reads of `strlen` from a position on. -/
def strlenReads
    (userInput : Ptr)
    (start : Nat) :
    Nat → Nat → List Access
| 0, _ => []
| fuel + 1, len =>
    .readInput (start + len) ::
      if userInput (start + len) = 0 then []
      else strlenReads userInput start fuel (len + 1)

/- The accesses of the body of the loop. -/
def stepAccesses
    (userInput : Ptr)
    (s : ParseState)
    (i : Nat) : List Access :=
  if s.flag = false then
    .readInput s.inputPos ::
      if userInput s.inputPos ≠ Display.space then
        [.readInput s.inputPos, .writeFname i]
      else []
  else
    let pos := skipSpaces userInput (2 ^ 32) s.inputPos
    skipReads userInput (2 ^ 32) s.inputPos ++
      [.readInput pos, .writeArgs s.argsPos]

/- The accesses of the loop. -/
def loopAccesses
    (userInput : Ptr) :
    List Nat → ParseState → List Access
| [], _ => []
| i :: is, s =>
    stepAccesses userInput s i ++
      loopAccesses userInput is (parseStep userInput s i)

/- The locals when the loop is entered. -/
def parseInit
    (userInput parsedFname parsedArgs : Ptr) : ParseState :=
  { flag := false
    inputPos := skipSpaces userInput (2 ^ 32) 0
    parsedFname := Logic.blit parsedFname 0 50 (fun _ => 0)
    parsedArgs := Logic.blit parsedArgs 0 50 (fun _ => 0)
    argsPos := 0 }

/- The two calls of `memset`. -/
def clearAccesses : List Access :=
  (List.range 50).map .writeFname ++
    (List.range 50).map .writeArgs

/- The accesses after the buffers were cleared. -/
def scanAccesses
    (userInput parsedFname parsedArgs : Ptr) :
    List Access :=
  let start := skipSpaces userInput (2 ^ 32) 0
  let length := strlen (fun i => userInput (start + i))
  skipReads userInput (2 ^ 32) 0 ++
    strlenReads userInput start (2 ^ 32) 0 ++
    loopAccesses userInput (List.range length)
      (parseInit userInput parsedFname parsedArgs)

/- All accesses of `parse_args`, in order. -/
def parseAccesses
    (userInput parsedFname parsedArgs : Ptr) :
    List Access :=
  clearAccesses ++
    scanAccesses userInput parsedFname parsedArgs

/-
  Nothing of the command after its NUL is read, and the
  buffers of `syscall_execute` are not left.
-/
def InBounds
    (s : CString)
    (accesses : List Access) : Prop :=
  (∀ i, .readInput i ∈ accesses → i ≤ s.chars.length) ∧
    (∀ i, .writeFname i ∈ accesses → i < 33) ∧
    ∀ i, .writeArgs i ∈ accesses → i < argLen

end MartianPendulum

------------------------------------------------------------
-- Bytes That Are Not Written
------------------------------------------------------------

namespace MartianPendulum

/- A round leaves the bytes that it does not write. -/
theorem parseStep_frame
    (userInput : Ptr)
    (s : ParseState)
    (i j : Nat) :
    (.writeFname j ∉ stepAccesses userInput s i →
      (parseStep userInput s i).parsedFname j =
        s.parsedFname j) ∧
    (.writeArgs j ∉ stepAccesses userInput s i →
      (parseStep userInput s i).parsedArgs j =
        s.parsedArgs j) := by
  unfold stepAccesses parseStep
  by_cases hFlag : s.flag = false
  · simp only [hFlag, if_true]
    by_cases hSpace : userInput s.inputPos = Display.space
    · simp [hSpace]
    · simp only [hSpace, ne_eq, not_false_iff, if_true]
      refine ⟨?_, fun _ => trivial⟩
      intro hNot
      have hNe : j ≠ i := by simpa using hNot
      exact Function.update_of_ne hNe _ _
  · simp only [hFlag]
    refine ⟨fun _ => rfl, ?_⟩
    intro hNot
    have hNe : j ≠ s.argsPos := by
      rintro rfl
      simp at hNot
    exact Function.update_of_ne hNe _ _

theorem loop_frame
    (userInput : Ptr)
    (is : List Nat)
    (s : ParseState)
    (j : Nat) :
    (.writeFname j ∉ loopAccesses userInput is s →
      (is.foldl (parseStep userInput) s).parsedFname j =
        s.parsedFname j) ∧
    (.writeArgs j ∉ loopAccesses userInput is s →
      (is.foldl (parseStep userInput) s).parsedArgs j =
        s.parsedArgs j) := by
  induction is generalizing s with
  | nil => exact ⟨fun _ => rfl, fun _ => rfl⟩
  | cons i is ih =>
      have hStep := parseStep_frame userInput s i j
      have hRest := ih (parseStep userInput s i)
      rw [loopAccesses, List.foldl_cons]
      simp only [List.mem_append, not_or]
      constructor
      · rintro ⟨hHere, hLater⟩
        rw [hRest.1 hLater, hStep.1 hHere]
      · rintro ⟨hHere, hLater⟩
        rw [hRest.2 hLater, hStep.2 hHere]

/- The buffers change only where a write is listed. -/
theorem parseArgs_frame
    (userInput fileName args : Ptr)
    (j : Nat) :
    (.writeFname j ∉ parseAccesses userInput fileName args →
      (parseArgs userInput fileName args).1 j =
        fileName j) ∧
    (.writeArgs j ∉ parseAccesses userInput fileName args →
      (parseArgs userInput fileName args).2 j = args j) := by
  have hLoop := loop_frame userInput
    (List.range (strlen (fun i => userInput
      (skipSpaces userInput (2 ^ 32) 0 + i))))
    (parseInit userInput fileName args) j
  simp only [parseAccesses, clearAccesses, scanAccesses,
    List.mem_append, not_or]
  constructor
  · rintro ⟨⟨hClear, -⟩, -, hScan⟩
    have hOut : ¬ (0 ≤ j ∧ j < 0 + 50) := by
      simpa using hClear
    refine (hLoop.1 hScan).trans ?_
    exact Logic.blit_apply_of_outside fileName
      (fun _ => 0) hOut
  · rintro ⟨⟨-, hClear⟩, -, hScan⟩
    have hOut : ¬ (0 ≤ j ∧ j < 0 + 50) := by
      simpa using hClear
    refine (hLoop.2 hScan).trans ?_
    exact Logic.blit_apply_of_outside args (fun _ => 0) hOut

end MartianPendulum

------------------------------------------------------------
-- Bytes That Are Read
------------------------------------------------------------

namespace MartianPendulum

/- The loop over spaces reads up to the first other byte. -/
theorem skipReads_eq
    {userInput : Ptr}
    {fuel i m : Nat}
    (hSpaces : ∀ j, j < m →
      userInput (i + j) = Display.space)
    (hStop : userInput (i + m) ≠ Display.space)
    (hFuel : m < fuel) :
    skipReads userInput fuel i =
      (List.range' i (m + 1)).map .readInput := by
  induction m generalizing fuel i with
  | zero =>
      cases fuel with
      | zero => omega
      | succ fuel =>
          rw [Nat.add_zero] at hStop
          rw [skipReads, if_neg hStop]
          rfl
  | succ m ih =>
      cases fuel with
      | zero => omega
      | succ fuel =>
          have hHere := hSpaces 0 (Nat.succ_pos m)
          rw [Nat.add_zero] at hHere
          rw [skipReads, if_pos hHere,
            ih (i := i + 1) _ _ (by omega)]
          · rfl
          · intro j hj
            have hNext := hSpaces (j + 1) (by omega)
            rwa [← Nat.add_assoc, Nat.add_right_comm]
              at hNext
          · rwa [← Nat.add_assoc, Nat.add_right_comm]
              at hStop

theorem skipReads_at
    {userInput : Ptr}
    {pos : Nat}
    {v : CString}
    (hFit : v.chars.length < 2 ^ 32)
    (hInput : ∀ i, userInput (pos + i) = v.ptr i) :
    skipReads userInput (2 ^ 32) pos =
      (List.range' pos (v.indent + 1)).map .readInput := by
  have hLe := v.indent_le
  apply skipReads_eq
  · intro j hj
    rw [hInput]
    exact v.indent_spec.1 j hj
  · rw [hInput]
    exact v.indent_spec.2
  · omega

theorem mem_skipReads
    {userInput : Ptr}
    {fuel i : Nat}
    {a : Access}
    (hMem : a ∈ skipReads userInput fuel i) :
    ∃ j, a = .readInput j := by
  induction fuel generalizing i with
  | zero => cases hMem
  | succ fuel ih =>
      rw [skipReads, List.mem_cons] at hMem
      rcases hMem with hHere | hLater
      · exact ⟨i, hHere⟩
      · split at hLater
        · exact ih hLater
        · cases hLater

/- `strlen` reads up to the NUL. -/
theorem strlenReads_eq
    {userInput : Ptr}
    {start fuel len n : Nat}
    (hLe : len ≤ n)
    (hFuel : n < len + fuel)
    (hZero : userInput (start + n) = 0)
    (hBefore : ∀ i, len ≤ i → i < n →
      userInput (start + i) ≠ 0) :
    strlenReads userInput start fuel len =
      (List.range' (start + len) (n - len + 1)).map
        .readInput := by
  induction fuel generalizing len with
  | zero => omega
  | succ fuel ih =>
      rw [strlenReads]
      by_cases hEq : len = n
      · subst hEq
        rw [if_pos hZero, Nat.sub_self]
        rfl
      · have hHere : userInput (start + len) ≠ 0 :=
          hBefore len (Nat.le_refl _) (by omega)
        have hCount : n - len + 1 = n - (len + 1) + 1 + 1 := by
          omega
        rw [if_neg hHere, ih (by omega) (by omega)
          (fun i hi hn => hBefore i (by omega) hn), hCount,
          List.range'_succ]
        rfl

theorem inBounds_append
    (s : CString)
    (l m : List Access) :
    InBounds s (l ++ m) ↔ InBounds s l ∧ InBounds s m := by
  simp only [InBounds, List.mem_append, or_imp,
    forall_and]
  tauto

/- Reads up to the NUL are in bounds. -/
theorem inBounds_reads
    (s : CString)
    {i n : Nat}
    (hEnd : i + n ≤ s.chars.length + 1) :
    InBounds s ((List.range' i n).map .readInput) := by
  refine ⟨?_, ?_, ?_⟩
  · intro j hj
    simp only [List.mem_map, List.mem_range'_1,
      Access.readInput.injEq, exists_eq_right] at hj
    omega
  · intro j hj
    simp at hj
  · intro j hj
    simp at hj

theorem loopAccesses_append
    (userInput : Ptr)
    (is js : List Nat)
    (s : ParseState) :
    loopAccesses userInput (is ++ js) s =
      loopAccesses userInput is s ++
        loopAccesses userInput js
          (is.foldl (parseStep userInput) s) := by
  induction is generalizing s with
  | nil => rfl
  | cons i is ih =>
      rw [List.cons_append, loopAccesses, ih,
        loopAccesses, List.foldl_cons, List.append_assoc]

end MartianPendulum

------------------------------------------------------------
-- The Rounds of the Loop
------------------------------------------------------------

namespace MartianPendulum

/- A round of the first word reads and writes its index. -/
theorem stepAccesses_word
    {userInput : Ptr}
    (start : Nat)
    (fname args : Ptr)
    {n : Nat}
    (hChar : userInput (start + n) ≠ Display.space) :
    stepAccesses userInput
        (wordState userInput start fname args n) n =
      [.readInput (start + n), .readInput (start + n),
        .writeFname n] := by
  simp [stepAccesses, wordState, hChar]

/- The rounds of the first word. -/
theorem inBounds_word_iff
    (s : CString)
    (fname args : Ptr)
    {n : Nat}
    (hWord : ∀ j, j < n →
      s.ptr (s.indent + j) ≠ Display.space)
    (hFit : s.indent + n ≤ s.chars.length) :
    InBounds s
        (loopAccesses s.ptr (List.range n)
          (wordState s.ptr s.indent fname args 0)) ↔
      n ≤ 33 := by
  induction n with
  | zero =>
      refine iff_of_true ?_ (by omega)
      exact inBounds_reads s (i := 0) (n := 0) (by omega)
  | succ n ih =>
      rw [List.range_succ, loopAccesses_append,
        inBounds_append,
        foldl_parseStep_word s.indent fname args
          (fun j hj => hWord j (by omega)),
        ih (fun j hj => hWord j (by omega)) (by omega),
        loopAccesses, loopAccesses, List.append_nil,
        stepAccesses_word s.indent fname args
          (hWord n (by omega))]
      simp only [InBounds, List.mem_cons, List.not_mem_nil,
        Access.readInput.injEq, Access.writeFname.injEq,
        reduceCtorEq, or_false, false_or, or_self,
        forall_eq]
      constructor
      · rintro ⟨-, -, hn, -⟩
        omega
      · intro hn
        exact ⟨by omega, by omega, by omega, by simp⟩

/- A round after the flag is set. -/
theorem stepAccesses_of_flag
    (userInput : Ptr)
    {s : ParseState}
    (hFlag : s.flag = true)
    (i : Nat) :
    stepAccesses userInput s i =
      skipReads userInput (2 ^ 32) s.inputPos ++
        [.readInput
          (skipSpaces userInput (2 ^ 32) s.inputPos),
          .writeArgs s.argsPos] := by
  unfold stepAccesses
  rw [if_neg (by simp [hFlag])]

/- One byte of the arguments is written in each round. -/
theorem mem_loopAccesses_of_flag
    (userInput : Ptr)
    (is : List Nat)
    {s : ParseState}
    (hFlag : s.flag = true)
    (j : Nat) :
    .writeFname j ∉ loopAccesses userInput is s ∧
      (.writeArgs j ∈ loopAccesses userInput is s ↔
        s.argsPos ≤ j ∧ j < s.argsPos + is.length) := by
  induction is generalizing s with
  | nil =>
      simp only [loopAccesses, List.not_mem_nil,
        not_false_iff, List.length_nil, true_and, false_iff]
      omega
  | cons i is ih =>
      have hNext := ih (s := parseStep userInput s i) (by
        rw [parseStep_of_flag userInput hFlag]
        exact hFlag)
      have hPos : (parseStep userInput s i).argsPos =
          s.argsPos + 1 := by
        rw [parseStep_of_flag userInput hFlag]
      have hReads : ∀ a ∈ skipReads userInput (2 ^ 32)
          s.inputPos, ∃ j, a = .readInput j :=
        fun a hMem => mem_skipReads hMem
      rw [hPos] at hNext
      rw [loopAccesses, stepAccesses_of_flag userInput hFlag]
      simp only [List.mem_append, List.mem_cons,
        List.not_mem_nil, or_false, hNext.1, hNext.2,
        List.length_cons, reduceCtorEq, false_or,
        Access.writeArgs.injEq]
      constructor
      · intro hMem
        rcases hReads _ hMem with ⟨j', hj⟩
        cases hj
      · constructor
        · rintro ((hMem | hHere) | hLater)
          · rcases hReads _ hMem with ⟨j', hj⟩
            cases hj
          · omega
          · omega
        · intro hRange
          by_cases hHere : j = s.argsPos
          · exact Or.inl (Or.inr hHere)
          · exact Or.inr ⟨by omega, by omega⟩

end MartianPendulum

------------------------------------------------------------
-- Bounds
------------------------------------------------------------

namespace MartianPendulum

namespace Copying

variable {userInput args : Ptr}
variable {chars : List UInt8}
variable {stop k : Nat}
variable {s : ParseState}

/- A round before the NUL reads up to the NUL at most. -/
theorem step_reads
    (hCopy : Copying userInput args chars stop k s)
    (i : Nat)
    {j : Nat}
    (hMem : .readInput j ∈ stepAccesses userInput s i) :
    j ≤ stop := by
  rcases hCopy.rest with ⟨v, hFit, hStop, hInput, -⟩
  have hLe := v.indent_le
  rw [stepAccesses_of_flag userInput hCopy.flag,
    skipReads_at hFit hInput, skipSpaces_at hFit hInput]
    at hMem
  simp only [List.mem_append, List.mem_map,
    List.mem_range'_1, Access.readInput.injEq,
    exists_eq_right, List.mem_cons, reduceCtorEq,
    List.not_mem_nil, or_false] at hMem
  omega

/- The rounds that copy the characters and the NUL. -/
theorem foldl_reads
    (hCopy : Copying userInput args chars stop k s)
    (is : List Nat)
    (hRounds : k + is.length ≤ chars.length + 1)
    {j : Nat}
    (hMem : .readInput j ∈ loopAccesses userInput is s) :
    j ≤ stop := by
  induction is generalizing k s with
  | nil => cases hMem
  | cons i is ih =>
      rw [List.length_cons] at hRounds
      rw [loopAccesses, List.mem_append] at hMem
      rcases hMem with hHere | hLater
      · exact hCopy.step_reads i hHere
      · by_cases hMore : k < chars.length
        · exact ih (hCopy.step hMore i) (by omega) hLater
        · have hNone : is = [] :=
            List.length_eq_zero_iff.mp (by omega)
          rw [hNone] at hLater
          cases hLater

/- A further round reads behind the NUL. -/
theorem reads_past_nul
    (hCopy : Copying userInput args chars stop 0 s)
    (is : List Nat)
    (hRounds : chars.length + 1 < is.length) :
    .readInput (stop + 1) ∈ loopAccesses userInput is s := by
  have hTake : (is.take chars.length).length =
      chars.length := by
    rw [List.length_take]
    omega
  have hDone := hCopy.foldl (is.take chars.length)
    (by omega)
  rw [Nat.zero_add, hTake] at hDone
  rw [← List.take_append_drop chars.length is,
    loopAccesses_append, List.mem_append]
  right
  generalize (is.take chars.length).foldl
    (parseStep userInput) s = s' at hDone ⊢
  have hLeft : 1 < (is.drop chars.length).length := by
    rw [List.length_drop]
    omega
  match is.drop chars.length, hLeft with
  | i :: i' :: is', _ =>
      rcases hDone.step_nul i with ⟨hFlag, hPos, -, -⟩
      rw [loopAccesses, loopAccesses,
        stepAccesses_of_flag userInput hFlag, hPos]
      -- the first test of the next round
      have hFirst : .readInput (stop + 1) ∈
          skipReads userInput (2 ^ 32) (stop + 1) := by
        rw [show 2 ^ 32 = (2 ^ 32 - 1) + 1 from rfl,
          skipReads]
        exact List.mem_cons_self
      simp only [List.mem_append, hFirst, true_or, or_true]

end Copying

/- The rounds after the first word. -/
theorem inBounds_rest_iff
    (s : CString)
    (hFit : s.chars.length < 2 ^ 32)
    (fname args : Ptr)
    (is : List Nat)
    (hLength : is.length = (afterWord s.chars).length) :
    InBounds s
        (loopAccesses s.ptr is
          (wordState s.ptr s.indent fname args
            (firstWord s.chars).length)) ↔
      (afterWord s.chars).length ≤ argLen + 1 ∧
        argSpaces s.chars ≤ 2 := by
  have hRest := length_afterWord s.chars
  have hStop := indent_add_length s
  cases is with
  | nil =>
      rw [List.length_nil] at hLength
      refine iff_of_true ?_ (by omega)
      exact inBounds_reads s (i := 0) (n := 0) (by omega)
  | cons i is =>
      rw [List.length_cons] at hLength
      have hSome : afterWord s.chars ≠ [] := by
        intro hNil
        rw [hNil, List.length_nil] at hLength
        omega
      have hHere : s.ptr (s.indent +
          (firstWord s.chars).length) = Display.space := by
        have hSum := length_afterWord_add s
        apply ptr_firstWord_end
        omega
      have hSwitch : stepAccesses s.ptr
          (wordState s.ptr s.indent fname args
            (firstWord s.chars).length) i =
          [.readInput (s.indent +
            (firstWord s.chars).length)] := by
        simp [stepAccesses, wordState, hHere]
      have hSwitchOk : InBounds s
          [.readInput (s.indent +
            (firstWord s.chars).length)] :=
        inBounds_reads s (n := 1) (by omega)
      have hCopy := copying_start s hFit hSome fname args i
      have hMem := mem_loopAccesses_of_flag s.ptr is
        hCopy.flag
      rw [hCopy.argsPos] at hMem
      rw [loopAccesses, inBounds_append, hSwitch]
      constructor
      · rintro ⟨-, hReads, -, hArgs⟩
        constructor
        · by_contra hLong
          have hLast := hArgs argLen
            ((hMem argLen).2.mpr (by omega))
          exact Nat.lt_irrefl _ hLast
        · by_contra hMany
          have hPast := hReads (s.chars.length + 1)
            (hCopy.reads_past_nul is (by omega))
          omega
      · rintro ⟨hShort, hFew⟩
        refine ⟨hSwitchOk, ?_, ?_, ?_⟩
        · intro j hj
          exact hCopy.foldl_reads is (by omega) hj
        · intro j hj
          exact absurd hj (hMem j).1
        · intro j hj
          have hRange := (hMem j).2.mp hj
          omega

/-
  After the clearing `parse_args` stays in bounds exactly
  for names and arguments that fit, with at most two spaces
  after the name.
-/
theorem scanAccesses_inBounds_iff
    (s : CString)
    (hFit : s.chars.length < 2 ^ 32)
    (fileName args : Ptr) :
    InBounds s (scanAccesses s.ptr fileName args) ↔
      (firstWord s.chars).length ≤ 33 ∧
        (afterWord s.chars).length ≤ argLen + 1 ∧
        argSpaces s.chars ≤ 2 := by
  have hSum := length_afterWord_add s
  have hStop := indent_add_length s
  have hNoSpace : ∀ j, j < (firstWord s.chars).length →
      s.ptr (s.indent + j) ≠ Display.space :=
    fun j hj => (ptr_firstWord s hj).1
  have hSkip : skipReads s.ptr (2 ^ 32) 0 =
      (List.range' 0 (s.indent + 1)).map .readInput := by
    apply skipReads_at hFit
    intro i
    rw [Nat.zero_add]
  have hStrlen : strlenReads s.ptr s.indent (2 ^ 32) 0 =
      (List.range' s.indent
        ((skipped s.chars).length + 1)).map .readInput := by
    have hNul : s.ptr (s.indent +
        (skipped s.chars).length) = 0 := by
      rw [← hSum, ← Nat.add_assoc, hStop]
      exact s.ptr_length
    exact strlenReads_eq (Nat.zero_le _) (by omega) hNul
      (fun i _ hi => s.ptr_ne_zero (by omega))
  have hInit : parseInit s.ptr fileName args =
      wordState s.ptr s.indent
        (Logic.blit fileName 0 50 (fun _ => 0))
        (Logic.blit args 0 50 (fun _ => 0)) 0 := by
    simp only [parseInit, wordState, Logic.blit_zero,
      Nat.add_zero, skipSpaces_indent s hFit]
  unfold scanAccesses
  dsimp only
  rw [skipSpaces_indent s hFit, strlen_indent s hFit, hSkip,
    hStrlen, hInit, ← hSum, List.range_add,
    loopAccesses_append, inBounds_append, inBounds_append,
    inBounds_append,
    foldl_parseStep_word s.indent _ _ hNoSpace,
    inBounds_word_iff s _ _ hNoSpace (by omega),
    inBounds_rest_iff s hFit _ _ _ (by simp)]
  have hHead := inBounds_reads s (i := 0)
    (n := s.indent + 1) (by omega)
  have hLine := inBounds_reads s (i := s.indent)
    (n := (firstWord s.chars).length +
      (afterWord s.chars).length + 1) (by omega)
  simp only [hHead, hLine, true_and]

/-
  With the clearing it does so for no command: the buffer
  for the name is cleared over its end.
-/
theorem parseAccesses_not_inBounds
    (s : CString)
    (fileName args : Ptr) :
    ¬ InBounds s (parseAccesses s.ptr fileName args) := by
  rintro ⟨-, hFname, -⟩
  have hClear : .writeFname 49 ∈
      parseAccesses s.ptr fileName args := by
    apply List.mem_append_left
    decide
  exact absurd (hFname 49 hClear) (by decide)

/- The command `shell` shows it. -/
theorem clearing_leaves_buffer :
    ¬ ∀ (s : CString) (fileName args : Ptr),
      InBounds s (parseAccesses s.ptr fileName args) := by
  intro hAll
  have hFname := (hAll shellLiteral (fun _ => 0)
    (fun _ => 0)).2.1
  have hClear : .writeFname 33 ∈ parseAccesses
      shellLiteral.ptr (fun _ => 0) (fun _ => 0) := by
    apply List.mem_append_left
    decide
  exact absurd (hFname 33 hClear) (by decide)

end MartianPendulum
