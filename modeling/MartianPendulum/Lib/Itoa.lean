import Mathlib.Data.Nat.Digits.Lemmas
import MartianPendulum.Lib.Strings
import MartianPendulum.Logic.Reversal

/-
  Number formatting: `itoa` and `strrev` of `lib.c`, and
  `ece391_itoa` and `ece391_strrev` of the user library.

  The routines write into an array of the caller.  A store
  outside of the array is refused, so a result says that
  there was none.

  Key definitions include:
    * `itoa`, `ece391Itoa`
    * `strrev`, `ece391Strrev`
    * `numeral`
    * `IsNumeral`

  Key theorems include:
    * `strrev_laid`
    * `itoa_eq`
    * `isNumeral_numeral`
-/

------------------------------------------------------------
-- The Routines
------------------------------------------------------------

namespace MartianPendulum

/- A store into an array of `size` bytes. -/
def storeIn
    (size i : Nat)
    (b : UInt8)
    (mem : Ptr) : Option Ptr :=
  if i < size then some (Function.update mem i b) else none

/- `lookup` -/
def itoaLookup : List UInt8 :=
  "0123456789ABCDEFGHIJKLMNOPQRSTUVWXYZ".toList.map
    (fun c => UInt8.ofNat c.toNat)

/-
  The loop of `strrev` on the string at `s`.  The indices
  are an `int32_t` each.
-/
def strrevLoop
    (size s : Nat) :
    Nat → Int → Int → Ptr → Option Ptr
| 0, _, _, _ => none
| fuel + 1, first, last, mem =>
    if first < last then do
      let tmp := mem (s + last.toNat)
      let mem ← storeIn size (s + last.toNat)
        (mem (s + first.toNat)) mem
      let mem ← storeIn size (s + first.toNat) tmp mem
      strrevLoop size s fuel (first + 1) (last - 1) mem
    else some mem

/- `strrev`, which exchanges at most every character. -/
def strrev
    (size s : Nat)
    (mem : Ptr) : Option Ptr :=
  let len := strlen (fun i => mem (s + i))
  strrevLoop size s (len + 1) 0 ((len : Int) - 1) mem

/- The `for` loop of `ece391_strlen`. -/
def ece391StrlenLoop
    (mem : Ptr) :
    Nat → Nat → Nat → Nat
| 0, _, len => len
| fuel + 1, s, len =>
    if 0 ≠ mem s then
      ece391StrlenLoop mem fuel (s + 1) (len + 1)
    else len

/- `ece391_strlen` -/
def ece391Strlen
    (s : Nat)
    (mem : Ptr) : Nat :=
  ece391StrlenLoop mem (2 ^ 32) s 0

/- `ece391_strrev`, which returns early on short strings. -/
def ece391Strrev
    (size s : Nat)
    (mem : Ptr) : Option Ptr :=
  let len := ece391Strlen s mem
  if (len : Int) - 1 ≤ 0 then some mem
  else
    strrevLoop size s (len + 1) 0 ((len : Int) - 1) mem

/-
  The loop of `itoa`.  With a radix of at least 2 it makes
  at most 32 passes.
-/
def itoaLoop
    (size radix : Nat) :
    Nat → Nat → Nat → Ptr → Option (Nat × Ptr)
| 0, _, _, _ => none
| fuel + 1, newval, newbuf, mem =>
    if newval > 0 then do
      let mem ← storeIn size newbuf
        (itoaLookup.getD (newval % radix) 0) mem
      itoaLoop size radix fuel (newval / radix)
        (newbuf + 1) mem
    else some (newbuf, mem)

/- The two conversions, with the reversal they call. -/
def itoaWith
    (reverse : Nat → Nat → Ptr → Option Ptr)
    (size : Nat)
    (value : UInt32)
    (buf radix : Nat)
    (mem : Ptr) : Option Ptr :=
  if value = 0 then do
    let mem ← storeIn size buf 48 mem
    storeIn size (buf + 1) 0 mem
  else do
    let (newbuf, mem) ←
      itoaLoop size radix 33 value.toNat buf mem
    let mem ← storeIn size newbuf 0 mem
    reverse size buf mem

/- `itoa` -/
def itoa :
    Nat → UInt32 → Nat → Nat → Ptr → Option Ptr :=
  itoaWith strrev

/- `ece391_itoa` -/
def ece391Itoa :
    Nat → UInt32 → Nat → Nat → Ptr → Option Ptr :=
  itoaWith ece391Strrev

end MartianPendulum

------------------------------------------------------------
-- Reversal
------------------------------------------------------------

namespace MartianPendulum

theorem storeIn_of_lt
    {size i : Nat}
    (hi : i < size)
    (b : UInt8)
    (mem : Ptr) :
    storeIn size i b mem =
      some (Function.update mem i b) :=
  if_pos hi

/- The loop reverses what is between its indices. -/
theorem strrevLoop_eq
    {size s : Nat}
    {fuel first n : Nat}
    (hFuel : n < 2 * fuel)
    (hSize : s + first + n ≤ size)
    (mem : Ptr) :
    strrevLoop size s fuel first
        ((first : Int) + n - 1) mem =
      some (Logic.reversed mem (s + first) n) := by
  induction fuel generalizing first n mem with
  | zero => omega
  | succ fuel ih =>
      unfold strrevLoop
      split
      next hLt =>
        have hIndex : ((first : Int) + n - 1).toNat =
            first + n - 1 := by
          omega
        have hNext : (first : Int) + 1 = (first + 1 : Nat) :=
          rfl
        have hLast : (first : Int) + n - 1 - 1 =
            ((first + 1 : Nat) : Int) + (n - 2 : Nat) - 1 := by
          omega
        have hPos : s + (first + n - 1) - (s + first) - 1 =
            n - 2 := by
          omega
        have hCount :
            s + (first + n - 1) - (s + first) + 1 = n := by
          omega
        have hSwap := Logic.reversed_exchange mem
          (show s + first < s + (first + n - 1) by omega)
        rw [hPos, hCount] at hSwap
        rw [hIndex, Int.toNat_natCast,
          storeIn_of_lt (by omega), Option.bind_eq_bind,
          Option.bind_some, storeIn_of_lt (by omega),
          Option.bind_some, hNext, hLast,
          ih (by omega) (by omega), ← hSwap]
        rfl
      next hNot =>
        rw [Logic.reversed_short mem _ (by omega)]

/- The length of a string that was laid into memory. -/
theorem strlen_laid
    (mem : Ptr)
    (s : Nat)
    {chars : List UInt8}
    (hChars : ∀ c ∈ chars, c ≠ 0)
    (hLen : chars.length < 2 ^ 32) :
    strlen (fun i =>
      Logic.laid mem s (chars ++ [0]) (s + i)) =
        chars.length := by
  apply strlen_eq _ hLen
  · rw [Logic.laid_of_lt _ _ (by simp)]
    simp
  · intro i hi
    rw [Logic.laid_of_lt _ _ (by simp; omega),
      List.getElem_append_left hi]
    exact hChars _ (List.getElem_mem hi)

/- `strrev` reverses a string within the array. -/
theorem strrev_laid
    {size s : Nat}
    (mem : Ptr)
    {chars : List UInt8}
    (hChars : ∀ c ∈ chars, c ≠ 0)
    (hLen : chars.length < 2 ^ 32)
    (hSize : s + chars.length ≤ size) :
    strrev size s (Logic.laid mem s (chars ++ [0])) =
      some (Logic.laid mem s (chars.reverse ++ [0])) := by
  have hLoop : strrevLoop size s (chars.length + 1)
      (0 : Nat) (((0 : Nat) : Int) + chars.length - 1)
      (Logic.laid mem s (chars ++ [0])) =
        some (Logic.reversed
          (Logic.laid mem s (chars ++ [0])) (s + 0)
          chars.length) :=
    strrevLoop_eq (by omega) (by omega) _
  unfold strrev
  dsimp only
  rw [strlen_laid mem s hChars hLen,
    ← Logic.reversed_laid]
  simpa using hLoop

/- `ece391_strlen` is `strlen`. -/
theorem ece391StrlenLoop_eq
    (mem : Ptr)
    (s fuel len : Nat) :
    ece391StrlenLoop mem fuel (s + len) len =
      strlenLoop (fun i => mem (s + i)) fuel len := by
  induction fuel generalizing len with
  | zero => rfl
  | succ fuel ih =>
      unfold ece391StrlenLoop strlenLoop
      by_cases hZero : mem (s + len) = 0
      · rw [if_neg (fun h => h hZero.symm), if_pos hZero]
      · rw [if_pos (fun h => hZero h.symm), if_neg hZero]
        exact ih (len + 1)

theorem ece391Strlen_eq
    (s : Nat)
    (mem : Ptr) :
    ece391Strlen s mem = strlen (fun i => mem (s + i)) :=
  ece391StrlenLoop_eq mem s (2 ^ 32) 0

/- The early return of `ece391_strrev` changes nothing. -/
theorem ece391Strrev_eq
    (size s : Nat)
    (mem : Ptr) :
    ece391Strrev size s mem = strrev size s mem := by
  unfold ece391Strrev strrev
  rw [ece391Strlen_eq]
  dsimp only
  split
  next hShort =>
    unfold strrevLoop
    rw [if_neg (by omega)]
  next hLong => rfl

theorem ece391Itoa_eq :
    ece391Itoa = itoa := by
  have hReverse : ece391Strrev = strrev := by
    funext size s mem
    exact ece391Strrev_eq size s mem
  unfold ece391Itoa itoa
  rw [hReverse]

end MartianPendulum

------------------------------------------------------------
-- Numerals
------------------------------------------------------------

namespace MartianPendulum

/- The character of a digit. -/
def digitChar
    (d : Nat) : UInt8 :=
  itoaLookup.getD d 0

/- The digits of a value, the most significant one first. -/
def numeral
    (radix value : Nat) : List UInt8 :=
  if value = 0 then [digitChar 0]
  else ((radix.digits value).map digitChar).reverse

/- The digit that a character stands for. -/
def charDigit
    (c : UInt8) : Option Nat :=
  if 48 ≤ c.toNat ∧ c.toNat ≤ 57 then some (c.toNat - 48)
  else if 65 ≤ c.toNat ∧ c.toNat ≤ 90 then
    some (c.toNat - 55)
  else none

/- The value of a text of digits, read from the left. -/
def evaluate
    (radix : Nat)
    (chars : List UInt8) : Nat :=
  chars.foldl
    (fun value c => value * radix + (charDigit c).getD 0) 0

/-
  A text of digits of a radix, without leading zeros, that
  evaluates to a value.
-/
structure IsNumeral
    (radix value : Nat)
    (chars : List UInt8) : Prop where
  digits : ∀ c ∈ chars, ∃ d < radix, charDigit c = some d
  nonempty : chars ≠ []
  leading : chars.head? = some 48 → chars = [48]
  value : evaluate radix chars = value

theorem charDigit_digitChar
    {d : Nat}
    (hd : d < 36) :
    charDigit (digitChar d) = some d := by
  have hTable : ∀ d < 36,
      charDigit (digitChar d) = some d := by
    decide
  exact hTable d hd

/- The digits of a value, the least significant one first. -/
theorem evaluate_reverse
    {radix : Nat}
    (hRadix : radix ≤ 36)
    {digits : List Nat}
    (hDigits : ∀ d ∈ digits, d < radix) :
    evaluate radix (digits.map digitChar).reverse =
      Nat.ofDigits radix digits := by
  induction digits with
  | nil => rfl
  | cons d digits ih =>
      have hd := hDigits d (by simp)
      have hRest := ih (fun e he => hDigits e (by simp [he]))
      unfold evaluate at hRest ⊢
      rw [List.map_cons, List.reverse_cons,
        List.foldl_append, hRest, List.foldl_cons,
        List.foldl_nil, charDigit_digitChar (by omega),
        Nat.ofDigits_cons]
      simp [Nat.mul_comm, Nat.add_comm]

/- The leading digit of a value is not zero. -/
theorem head_numeral_ne
    {radix value : Nat}
    (hRadix : 2 ≤ radix)
    (hRadix' : radix ≤ 36)
    (hValue : value ≠ 0) :
    (numeral radix value).head? ≠ some 48 := by
  have hNil : radix.digits value ≠ [] :=
    Nat.digits_ne_nil_iff_ne_zero.mpr hValue
  have hLast := Nat.getLast_digit_ne_zero radix hValue
  have hLt := Nat.digits_lt_base hRadix
    (List.getLast_mem hNil)
  unfold numeral
  rw [if_neg hValue, List.head?_reverse,
    List.getLast?_map, List.getLast?_eq_some_getLast hNil]
  intro hZero
  have hChar : digitChar ((radix.digits value).getLast hNil) =
      48 := Option.some.inj hZero
  have hDigit := charDigit_digitChar
    (show (radix.digits value).getLast hNil < 36 by omega)
  rw [hChar] at hDigit
  exact hLast (Option.some.inj hDigit).symm

/- The numeral of a value is one. -/
theorem isNumeral_numeral
    {radix : Nat}
    (hRadix : 2 ≤ radix)
    (hRadix' : radix ≤ 36)
    (value : Nat) :
    IsNumeral radix value (numeral radix value) := by
  by_cases hValue : value = 0
  · subst hValue
    refine ⟨?_, by simp [numeral], fun _ => rfl, ?_⟩
    · intro c hc
      simp only [numeral, if_true, List.mem_singleton] at hc
      subst hc
      exact ⟨0, by omega, charDigit_digitChar (by decide)⟩
    · simp [numeral, evaluate,
        charDigit_digitChar (show 0 < 36 by decide)]
  · have hDigits : ∀ d ∈ radix.digits value, d < radix :=
      fun d hd => Nat.digits_lt_base hRadix hd
    have hNumeral : numeral radix value =
        ((radix.digits value).map digitChar).reverse :=
      if_neg hValue
    refine ⟨?_, ?_, fun hHead => absurd hHead
      (head_numeral_ne hRadix hRadix' hValue), ?_⟩
    · intro c hc
      rw [hNumeral, List.mem_reverse, List.mem_map] at hc
      rcases hc with ⟨d, hd, rfl⟩
      have hLt := hDigits d hd
      exact ⟨d, hLt, charDigit_digitChar (by omega)⟩
    · rw [hNumeral]
      simpa using Nat.digits_ne_nil_iff_ne_zero.mpr hValue
    · rw [hNumeral, evaluate_reverse hRadix' hDigits,
        Nat.ofDigits_digits]

/- A text of digits has no NUL. -/
theorem IsNumeral.ne_zero
    {radix value : Nat}
    {chars : List UInt8}
    (hNumeral : IsNumeral radix value chars) :
    ∀ c ∈ chars, c ≠ 0 := by
  rintro c hc rfl
  rcases hNumeral.digits 0 hc with ⟨d, -, hDigit⟩
  simp [charDigit] at hDigit

/- A 32-bit value has at most 32 digits. -/
theorem length_numeral_le
    {radix value : Nat}
    (hRadix : 2 ≤ radix)
    {n : Nat}
    (hn : 1 ≤ n)
    (hValue : value < radix ^ n) :
    (numeral radix value).length ≤ n := by
  unfold numeral
  split
  · exact hn
  · rw [List.length_reverse, List.length_map]
    exact (Nat.digits_length_le_iff hRadix value).mpr hValue

theorem length_numeral_uint32
    {radix : Nat}
    (hRadix : 2 ≤ radix)
    (value : UInt32) :
    (numeral radix value.toNat).length ≤ 32 := by
  apply length_numeral_le hRadix (by decide)
  calc value.toNat < 2 ^ 32 := value.toNat_lt
    _ ≤ radix ^ 32 := Nat.pow_le_pow_left hRadix 32

end MartianPendulum

------------------------------------------------------------
-- The Conversion
------------------------------------------------------------

namespace MartianPendulum

/- The loop lays the digits, the least significant first. -/
theorem itoaLoop_eq
    {size radix : Nat}
    (hRadix : 2 ≤ radix)
    {fuel newval newbuf : Nat}
    (hFuel : (radix.digits newval).length < fuel)
    (hSize :
      newbuf + (radix.digits newval).length ≤ size)
    (mem : Ptr) :
    itoaLoop size radix fuel newval newbuf mem =
      some (newbuf + (radix.digits newval).length,
        Logic.laid mem newbuf
          ((radix.digits newval).map digitChar)) := by
  induction fuel generalizing newval newbuf mem with
  | zero => omega
  | succ fuel ih =>
      unfold itoaLoop
      split
      next hPos =>
        have hDigits := Nat.digits_def' hRadix hPos
        rw [hDigits, List.length_cons] at hFuel hSize
        rw [storeIn_of_lt (by omega), Option.bind_eq_bind,
          Option.bind_some, ih (by omega) (by omega),
          hDigits, List.length_cons, List.map_cons,
          ← Logic.laid_cons]
        rw [Nat.add_assoc, Nat.add_comm 1]
        rfl
      next hZero =>
        have hNone : newval = 0 := by omega
        rw [hNone, Nat.digits_zero, List.map_nil,
          Logic.laid_nil]
        rfl

/-
  `itoa` lays the numeral of the value and a NUL into the
  array, and changes nothing else.
-/
theorem itoa_eq
    {size radix buf : Nat}
    (hRadix : 2 ≤ radix)
    (hRadix' : radix ≤ 36)
    (value : UInt32)
    (hSize :
      buf + (numeral radix value.toNat).length + 1 ≤ size)
    (mem : Ptr) :
    itoa size value buf radix mem =
      some (Logic.laid mem buf
        (numeral radix value.toNat ++ [0])) := by
  have hNumeral := isNumeral_numeral hRadix hRadix'
    value.toNat
  have hLength := length_numeral_uint32 hRadix value
  unfold itoa itoaWith
  split
  next hZero =>
    subst hZero
    have hOne : numeral radix (0 : UInt32).toNat = [48] := rfl
    rw [hOne] at hSize ⊢
    simp only [List.length_singleton] at hSize
    rw [storeIn_of_lt (by omega), Option.bind_eq_bind,
      Option.bind_some, storeIn_of_lt (by omega)]
    rw [List.singleton_append, ← Logic.laid_cons,
      ← Logic.laid_cons, Logic.laid_nil]
  next hPos =>
    have hValue : value.toNat ≠ 0 := by
      intro hZero
      exact hPos (UInt32.toNat_inj.mp hZero)
    have hDigits : numeral radix value.toNat =
        ((radix.digits value.toNat).map digitChar).reverse :=
      if_neg hValue
    have hChars : ∀ c ∈
        (radix.digits value.toNat).map digitChar, c ≠ 0 := by
      intro c hc
      apply hNumeral.ne_zero
      rw [hDigits, List.mem_reverse]
      exact hc
    rw [hDigits, List.length_reverse, List.length_map]
      at hSize hLength
    rw [itoaLoop_eq hRadix (by omega) (by omega),
      Option.bind_eq_bind, Option.bind_some]
    dsimp only
    rw [storeIn_of_lt (by omega), Option.bind_eq_bind,
      Option.bind_some]
    -- the NUL behind the digits
    have hEnd := Logic.laid_append mem buf
      ((radix.digits value.toNat).map digitChar) [0]
    rw [← Logic.laid_cons, Logic.laid_nil,
      List.length_map] at hEnd
    rw [hEnd, strrev_laid mem hChars
      (by rw [List.length_map]; omega)
      (by rw [List.length_map]; omega), hDigits]

end MartianPendulum
