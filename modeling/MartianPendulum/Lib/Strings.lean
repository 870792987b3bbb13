import Mathlib.Algebra.Group.Nat.Defs
import MartianPendulum.Logic.Blit

/-
  The string routines of `lib.c`, over memory seen from a
  pointer.

  A `char *` is the function from offsets to the bytes at
  and after the address.  The loops of the source are
  structural recursions on the number of iterations left.

  Key definitions include:
    * `CString`
    * `strlen`
    * `strncmp`
    * `strncpy`
    * `cut`

  Key theorems include:
    * `strlen_ptr_le_iff`
    * `strncmp_eq_zero_iff`
    * `strncpy_apply`
-/

------------------------------------------------------------
-- Pointers and Terminated Strings
------------------------------------------------------------

namespace MartianPendulum

/- The bytes at and after an address. -/
abbrev Ptr := Nat → UInt8

/-
  A NUL-terminated string in memory, with the bytes that lie
  after its terminator.
-/
structure CString where
  chars : List UInt8
  after : Ptr
  nonzero : ∀ c ∈ chars, c ≠ 0

namespace CString

/- The memory seen from the first character. -/
def ptr
    (s : CString) : Ptr :=
  fun i =>
    if i < s.chars.length then s.chars.getD i 0
    else if i = s.chars.length then 0
    else s.after (i - s.chars.length - 1)

theorem ptr_length
    (s : CString) :
    s.ptr s.chars.length = 0 := by
  simp [ptr]

theorem ptr_of_lt
    (s : CString)
    {i : Nat}
    (hi : i < s.chars.length) :
    s.ptr i = s.chars[i] := by
  simp [ptr, hi]

theorem ptr_ne_zero
    (s : CString)
    {i : Nat}
    (hi : i < s.chars.length) :
    s.ptr i ≠ 0 := by
  rw [s.ptr_of_lt hi]
  exact s.nonzero _ (List.getElem_mem hi)

end CString

end MartianPendulum

------------------------------------------------------------
-- String Length
------------------------------------------------------------

namespace MartianPendulum

/- The `while` loop of `strlen`, from index `len` on. -/
def strlenLoop
    (s : Ptr) :
    Nat → Nat → Nat
| 0, len => len
| fuel + 1, len =>
    if s len = 0 then len else strlenLoop s fuel (len + 1)

/-
  `strlen`, with a 32-bit counter: memory holds at most
  `2 ^ 32` bytes.
-/
def strlen
    (s : Ptr) : Nat :=
  strlenLoop s (2 ^ 32) 0

/- The loop stops at the first NUL it can reach. -/
theorem strlenLoop_eq
    (s : Ptr)
    {fuel len n : Nat}
    (hLe : len ≤ n)
    (hFuel : n < len + fuel)
    (hZero : s n = 0)
    (hBefore : ∀ i, len ≤ i → i < n → s i ≠ 0) :
    strlenLoop s fuel len = n := by
  induction fuel generalizing len with
  | zero => omega
  | succ fuel ih =>
      by_cases hEq : len = n
      · subst hEq
        simp [strlenLoop, hZero]
      · have hHere : s len ≠ 0 :=
          hBefore len (Nat.le_refl _) (by omega)
        rw [strlenLoop, if_neg hHere]
        exact ih (by omega) (by omega)
          (fun i hi hn => hBefore i (by omega) hn)

theorem strlen_eq
    (s : Ptr)
    {n : Nat}
    (hBound : n < 2 ^ 32)
    (hZero : s n = 0)
    (hBefore : ∀ i, i < n → s i ≠ 0) :
    strlen s = n :=
  strlenLoop_eq s (Nat.zero_le n) (by omega) hZero
    (fun i _ hi => hBefore i hi)

/- The counter never goes back. -/
theorem le_strlenLoop
    (s : Ptr)
    (fuel len : Nat) :
    len ≤ strlenLoop s fuel len := by
  induction fuel generalizing len with
  | zero => exact Nat.le_refl _
  | succ fuel ih =>
      rw [strlenLoop]
      split
      · exact Nat.le_refl _
      · exact Nat.le_of_succ_le (ih (len + 1))

/- The loop runs past every byte that is not NUL. -/
theorem lt_strlenLoop
    (s : Ptr)
    {fuel len n : Nat}
    (hFuel : n < len + fuel)
    (hBefore : ∀ i, len ≤ i → i ≤ n → s i ≠ 0) :
    n < strlenLoop s fuel len := by
  induction fuel generalizing len with
  | zero => simpa [strlenLoop] using hFuel
  | succ fuel ih =>
      by_cases hLt : n < len
      · exact Nat.lt_of_lt_of_le hLt (le_strlenLoop s _ _)
      · have hHere : s len ≠ 0 :=
          hBefore len (Nat.le_refl _) (by omega)
        rw [strlenLoop, if_neg hHere]
        exact ih (by omega)
          (fun i hi hn => hBefore i (by omega) hn)

/- `strlen` compares with a bound as the string does. -/
theorem strlen_ptr_le_iff
    (s : CString)
    {n : Nat}
    (hBound : n < 2 ^ 32) :
    strlen s.ptr ≤ n ↔ s.chars.length ≤ n := by
  constructor
  · intro hLe
    by_contra hLong
    have hGt : n < strlen s.ptr :=
      lt_strlenLoop s.ptr (by omega)
        (fun i _ hi => s.ptr_ne_zero (by omega))
    omega
  · intro hLe
    rw [strlen_eq s.ptr (by omega) s.ptr_length
      (fun i hi => s.ptr_ne_zero hi)]
    exact hLe

end MartianPendulum

------------------------------------------------------------
-- Bounded Strings
------------------------------------------------------------

namespace MartianPendulum

/-
  The string in `n` bytes from index `i` on, cut at the
  first NUL.
-/
def cutFrom
    (s : Ptr) :
    Nat → Nat → List UInt8
| 0, _ => []
| n + 1, i =>
    if s i = 0 then [] else s i :: cutFrom s n (i + 1)

/- The string in the first `n` bytes. -/
def cut
    (s : Ptr)
    (n : Nat) : List UInt8 :=
  cutFrom s n 0

/- Bytes that are a string, up to a NUL or the end. -/
theorem cutFrom_eq_of
    {s : Ptr}
    {n i : Nat}
    {chars : List UInt8}
    (hFit : chars.length ≤ n)
    (hChars :
      ∀ j, j < chars.length → s (i + j) = chars.getD j 0)
    (hNonzero : ∀ c ∈ chars, c ≠ 0)
    (hEnd : chars.length < n → s (i + chars.length) = 0) :
    cutFrom s n i = chars := by
  induction chars generalizing n i with
  | nil =>
      cases n with
      | zero => rfl
      | succ n =>
          have hZero : s i = 0 := hEnd (Nat.succ_pos n)
          rw [cutFrom, if_pos hZero]
  | cons c chars ih =>
      cases n with
      | zero => simp at hFit
      | succ n =>
          have hHere : s i = c := hChars 0 (Nat.succ_pos _)
          have hNe : c ≠ 0 := hNonzero c (by simp)
          rw [cutFrom, hHere, if_neg hNe]
          congr 1
          apply ih (Nat.le_of_succ_le_succ hFit)
          · intro j hj
            have hNext := hChars (j + 1)
              (Nat.succ_lt_succ hj)
            rw [List.getD_cons_succ, ← Nat.add_assoc]
              at hNext
            rw [Nat.add_right_comm]
            exact hNext
          · exact fun d hd => hNonzero d (by simp [hd])
          · intro hLt
            have hNext := hEnd (Nat.succ_lt_succ hLt)
            rw [List.length_cons, ← Nat.add_assoc] at hNext
            rw [Nat.add_right_comm]
            exact hNext

theorem cut_eq_of
    {s : Ptr}
    {n : Nat}
    {chars : List UInt8}
    (hFit : chars.length ≤ n)
    (hChars : ∀ j, j < chars.length → s j = chars.getD j 0)
    (hNonzero : ∀ c ∈ chars, c ≠ 0)
    (hEnd : chars.length < n → s chars.length = 0) :
    cut s n = chars := by
  apply cutFrom_eq_of hFit _ hNonzero
  · simpa using hEnd
  · simpa using hChars

/- Bytes that are not NUL come before the cut. -/
theorem prefix_cutFrom
    {s : Ptr}
    {n i : Nat}
    {chars : List UInt8}
    (hFit : chars.length ≤ n)
    (hChars :
      ∀ j, j < chars.length → s (i + j) = chars.getD j 0)
    (hNonzero : ∀ c ∈ chars, c ≠ 0) :
    chars <+: cutFrom s n i := by
  induction chars generalizing n i with
  | nil => exact List.nil_prefix
  | cons c chars ih =>
      cases n with
      | zero => simp at hFit
      | succ n =>
          have hHere : s i = c := hChars 0 (Nat.succ_pos _)
          have hNe : c ≠ 0 := hNonzero c (by simp)
          rw [cutFrom, hHere, if_neg hNe,
            List.prefix_cons_inj]
          apply ih (Nat.le_of_succ_le_succ hFit)
          · intro j hj
            have hNext := hChars (j + 1)
              (Nat.succ_lt_succ hj)
            rw [List.getD_cons_succ, ← Nat.add_assoc]
              at hNext
            rw [Nat.add_right_comm]
            exact hNext
          · exact fun d hd => hNonzero d (by simp [hd])

theorem prefix_cut
    {s : Ptr}
    {n : Nat}
    {chars : List UInt8}
    (hFit : chars.length ≤ n)
    (hChars : ∀ j, j < chars.length → s j = chars.getD j 0)
    (hNonzero : ∀ c ∈ chars, c ≠ 0) :
    chars <+: cut s n := by
  apply prefix_cutFrom hFit _ hNonzero
  simpa using hChars

/- A string that fits is not cut short. -/
theorem cut_ptr
    (s : CString)
    {n : Nat}
    (hFit : s.chars.length ≤ n) :
    cut s.ptr n = s.chars := by
  apply cut_eq_of hFit _ s.nonzero
  · exact fun _ => s.ptr_length
  · intro j hj
    simp [CString.ptr, hj]

theorem length_cutFrom_le
    (s : Ptr)
    (n i : Nat) :
    (cutFrom s n i).length ≤ n := by
  induction n generalizing i with
  | zero => simp [cutFrom]
  | succ n ih =>
      rw [cutFrom]
      split
      · simp
      · simpa using ih (i + 1)

/- The characters before the cut are the bytes there. -/
theorem getD_cutFrom
    (s : Ptr)
    {n i j : Nat}
    (hj : j < (cutFrom s n i).length) :
    (cutFrom s n i).getD j 0 = s (i + j) := by
  induction n generalizing i j with
  | zero => simp [cutFrom] at hj
  | succ n ih =>
      by_cases hZero : s i = 0
      · simp [cutFrom, hZero] at hj
      · rw [cutFrom, if_neg hZero] at hj ⊢
        cases j with
        | zero => rfl
        | succ j =>
            have hRest := ih (i := i + 1)
              (Nat.lt_of_succ_lt_succ hj)
            rw [Nat.add_right_comm] at hRest
            rw [List.getD_cons_succ]
            exact hRest

theorem cutFrom_nonzero
    (s : Ptr)
    (n i : Nat) :
    ∀ c ∈ cutFrom s n i, c ≠ 0 := by
  induction n generalizing i with
  | zero => simp [cutFrom]
  | succ n ih =>
      by_cases hZero : s i = 0
      · simp [cutFrom, hZero]
      · simp only [cutFrom, hZero, if_false, List.mem_cons]
        rintro c (rfl | hMem)
        · exact hZero
        · exact ih (i + 1) c hMem

/- A cut before the end is at a NUL. -/
theorem cutFrom_end
    (s : Ptr)
    {n i : Nat}
    (hLt : (cutFrom s n i).length < n) :
    s (i + (cutFrom s n i).length) = 0 := by
  induction n generalizing i with
  | zero => omega
  | succ n ih =>
      by_cases hZero : s i = 0
      · simp [cutFrom, hZero]
      · simp only [cutFrom, hZero, if_false,
          List.length_cons] at hLt ⊢
        have hRest := ih (i := i + 1) (by omega)
        rw [Nat.add_right_comm] at hRest
        exact hRest

theorem length_cut_le
    (s : Ptr)
    (n : Nat) :
    (cut s n).length ≤ n :=
  length_cutFrom_le s n 0

theorem cut_nonzero
    (s : Ptr)
    (n : Nat) :
    ∀ c ∈ cut s n, c ≠ 0 :=
  cutFrom_nonzero s n 0

theorem getD_cut
    (s : Ptr)
    {n j : Nat}
    (hj : j < (cut s n).length) :
    (cut s n).getD j 0 = s j := by
  have hChar := getD_cutFrom s (i := 0) hj
  rwa [Nat.zero_add] at hChar

theorem cut_end
    (s : Ptr)
    {n : Nat}
    (hLt : (cut s n).length < n) :
    s (cut s n).length = 0 := by
  have hEnd := cutFrom_end s hLt
  rwa [Nat.zero_add] at hEnd

/- Memory with a NUL in its first `n` bytes is a string. -/
def CString.ofPtr
    (p : Ptr)
    (n : Nat) : CString :=
  { chars := cut p n
    after := fun i => p ((cut p n).length + 1 + i)
    nonzero := cut_nonzero p n }

theorem CString.ofPtr_ptr
    (p : Ptr)
    {n : Nat}
    (hNul : (cut p n).length < n) :
    (CString.ofPtr p n).ptr = p := by
  funext i
  rcases Nat.lt_trichotomy i (cut p n).length with
    hLt | hEq | hGt
  · simp only [CString.ptr, CString.ofPtr, hLt, if_true]
    exact getD_cut p hLt
  · subst hEq
    exact (CString.ptr_length _).trans (cut_end p hNul).symm
  · have hAfter :
        (cut p n).length + 1 + (i - (cut p n).length - 1) =
          i := by
      omega
    simp only [CString.ptr, CString.ofPtr, hAfter]
    rw [if_neg (by omega), if_neg (by omega)]

/- The loop of `strncmp` from index `i`, `n` bytes to go. -/
def strncmpLoop
    (s1 s2 : Ptr) :
    Nat → Nat → Int
| 0, _ => 0
| n + 1, i =>
    if s1 i ≠ s2 i ∨ s1 i = 0 then
      (s1 i).toInt8.toInt - (s2 i).toInt8.toInt
    else strncmpLoop s1 s2 n (i + 1)

def strncmp
    (s1 s2 : Ptr)
    (n : Nat) : Int :=
  strncmpLoop s1 s2 n 0

/- Equal signed bytes are equal bytes. -/
private theorem toInt8_sub_eq_zero
    {a b : UInt8}
    (hSub : a.toInt8.toInt - b.toInt8.toInt = 0) :
    a = b := by
  have hInt : a.toInt8.toInt = b.toInt8.toInt := by omega
  have hEq : a.toInt8 = b.toInt8 := Int8.toInt_inj.mp hInt
  simpa using congrArg Int8.toUInt8 hEq

theorem strncmpLoop_eq_zero_iff
    (s1 s2 : Ptr)
    (n i : Nat) :
    strncmpLoop s1 s2 n i = 0 ↔
      cutFrom s1 n i = cutFrom s2 n i := by
  induction n generalizing i with
  | zero => simp [strncmpLoop, cutFrom]
  | succ n ih =>
      by_cases hNe : s1 i = s2 i
      · by_cases hZero : s2 i = 0
        · simp [strncmpLoop, cutFrom, hNe, hZero]
        · simp [strncmpLoop, cutFrom, hNe, hZero, ih]
      · have hDiff :
            (s1 i).toInt8.toInt - (s2 i).toInt8.toInt ≠ 0 :=
          fun hSub => hNe (toInt8_sub_eq_zero hSub)
        rw [strncmpLoop, if_pos (Or.inl hNe)]
        refine iff_of_false hDiff ?_
        rw [cutFrom, cutFrom]
        by_cases h1 : s1 i = 0
        · have h2 : s2 i ≠ 0 := fun h => hNe (h1.trans h.symm)
          simp [h1, h2]
        · by_cases h2 : s2 i = 0
          · simp [h1, h2]
          · simp [h1, h2, hNe]

/- `strncmp` decides equality of the cut strings. -/
theorem strncmp_eq_zero_iff
    (s1 s2 : Ptr)
    (n : Nat) :
    strncmp s1 s2 n = 0 ↔ cut s1 n = cut s2 n :=
  strncmpLoop_eq_zero_iff s1 s2 n 0

end MartianPendulum

------------------------------------------------------------
-- Bounded Copy
------------------------------------------------------------

namespace MartianPendulum

/-
  The loop that copies up to the first NUL or `n` bytes and
  returns its final index, of `strncpy` and of `dir_read`.
-/
def copyUntilNul
    (src : Ptr) :
    Nat → Nat → Ptr → Nat × Ptr
| 0, i, dest => (i, dest)
| n + 1, i, dest =>
    if src i ≠ 0 then
      copyUntilNul src n (i + 1)
        (Function.update dest i (src i))
    else (i, dest)

/- The padding loop of `strncpy`. -/
def strncpyPad :
    Nat → Nat → Ptr → Ptr
| 0, _, dest => dest
| n + 1, i, dest =>
    strncpyPad n (i + 1) (Function.update dest i 0)

def strncpy
    (dest src : Ptr)
    (n : Nat) : Ptr :=
  let copied := copyUntilNul src n 0 dest
  strncpyPad (n - copied.1) copied.1 copied.2

theorem strncpyPad_apply
    (n i : Nat)
    (dest : Ptr)
    (j : Nat) :
    strncpyPad n i dest j =
      if i ≤ j ∧ j < i + n then 0 else dest j := by
  induction n generalizing i dest with
  | zero => rw [strncpyPad, if_neg (by omega)]
  | succ n ih =>
      rw [strncpyPad, ih]
      by_cases hj : j = i
      · subst hj
        simp
      · rw [Function.update_of_ne hj]
        congr 1
        simp only [eq_iff_iff]
        omega

/-
  The copying loop stops at the first NUL or after `n`
  bytes, and has copied everything before that.
-/
theorem copyUntilNul_spec
    (src : Ptr)
    (n i : Nat)
    (dest : Ptr) :
    (copyUntilNul src n i dest).1 =
        i + (cutFrom src n i).length ∧
      ∀ j, (copyUntilNul src n i dest).2 j =
        if i ≤ j ∧ j < i + (cutFrom src n i).length then
          src j
        else dest j := by
  induction n generalizing i dest with
  | zero =>
      refine ⟨rfl, fun j => ?_⟩
      rw [cutFrom, if_neg (by simp), copyUntilNul]
  | succ n ih =>
      by_cases hZero : src i = 0
      · refine ⟨by simp [copyUntilNul, cutFrom, hZero],
          fun j => ?_⟩
        rw [cutFrom, if_pos hZero, if_neg (by simp)]
        simp [copyUntilNul, hZero]
      · have hRest := ih (i + 1)
          (Function.update dest i (src i))
        rw [copyUntilNul, if_pos hZero, cutFrom,
          if_neg hZero, List.length_cons]
        refine ⟨by rw [hRest.1]; omega, fun j => ?_⟩
        rw [hRest.2 j]
        by_cases hj : j = i
        · subst hj
          simp
        · rw [Function.update_of_ne hj]
          congr 1
          simp only [eq_iff_iff]
          omega

/- `strncpy` copies up to the first NUL and pads with NUL. -/
theorem strncpy_apply
    (dest src : Ptr)
    (n j : Nat) :
    strncpy dest src n j =
      if j < (cut src n).length then src j
      else if j < n then 0
      else dest j := by
  have hCopy := copyUntilNul_spec src n 0 dest
  have hLen := length_cutFrom_le src n 0
  rw [strncpy, strncpyPad_apply, hCopy.1, hCopy.2 j, cut]
  by_cases hIn : j < (cutFrom src n 0).length
  · rw [if_neg (by omega), if_pos (by omega), if_pos hIn]
  · by_cases hPad : j < n
    · rw [if_pos (by omega), if_neg hIn, if_pos hPad]
    · rw [if_neg (by omega), if_neg (by omega),
        if_neg hIn, if_neg hPad]

/- A copy of a bounded string is the same string. -/
theorem cut_strncpy
    (dest src : Ptr)
    (n : Nat) :
    cut (strncpy dest src n) n = cut src n := by
  apply cut_eq_of (length_cut_le src n) _
    (cut_nonzero src n)
  · intro hLt
    rw [strncpy_apply, if_neg (Nat.lt_irrefl _),
      if_pos hLt]
  · intro j hj
    rw [strncpy_apply, if_pos hj]
    exact (getD_cut src hj).symm

end MartianPendulum
