import MartianPendulum.Lib.Itoa
import MartianPendulum.Lib.Word

/-
  `printf` of `lib.c`.

  The format is memory seen from its first byte, and every
  pass of the model reads one byte of it.  `buf` is advanced
  once more after a conversion, whatever the byte was that
  ended the directive: a format that ends within a directive
  is read past its terminator.

  Key definitions include:
    * `PrintfState`
    * `printfLoop`
    * `completeFrom`
    * `render`

  Key theorems include:
    * `convert_eq`
    * `printfLoop_complete`
    * `printf_stops_at_end_iff`
    * `number_formatting_round_trips`
-/

------------------------------------------------------------
-- The Conversions
------------------------------------------------------------

namespace MartianPendulum

/- The bytes that `puts` gives to `nb_putc`. -/
def puts
    (s : Ptr) : List UInt8 :=
  cut s (2 ^ 32)

/- The loop that pads `%#x` with zeros. -/
def padLoop
    (startingIndex : Nat)
    (convBuf : Ptr) : Option Ptr :=
  (List.range' startingIndex (8 - startingIndex)).foldlM
    (fun convBuf i => storeIn 64 i 48 convBuf) convBuf

/- The case of `x`. -/
def convHex
    (alternate : Bool)
    (value : UInt32)
    (convBuf : Ptr) : Option (List UInt8) :=
  if alternate = false then do
    let convBuf ← itoa 64 value 0 16 convBuf
    some (puts convBuf)
  else do
    let convBuf ← itoa 64 value 8 16 convBuf
    let startingIndex := strlen (fun i => convBuf (8 + i))
    let convBuf ← padLoop startingIndex convBuf
    some (puts (fun i => convBuf (startingIndex + i)))

/- The case of `u`. -/
def convUnsigned
    (value : UInt32)
    (convBuf : Ptr) : Option (List UInt8) := do
  let convBuf ← itoa 36 value 0 10 convBuf
  some (puts convBuf)

/- The case of `d`.  The negation wraps around. -/
def convSigned
    (arg : UInt32)
    (convBuf : Ptr) : Option (List UInt8) :=
  let value := s32 arg.toNat
  if value < 0 then do
    let convBuf ← storeIn 36 0 45 convBuf
    let convBuf ←
      itoa 36 (UInt32.ofNat (u32 (-value))) 1 10 convBuf
    some (puts convBuf)
  else do
    let convBuf ←
      itoa 36 (UInt32.ofNat (u32 value)) 0 10 convBuf
    some (puts convBuf)

/-
  What a call finds behind `format` on the stack, the memory
  at the pointers among it, and what the local arrays hold
  when a conversion starts.
-/
structure PrintfArgs where
  word : Nat → UInt32
  string : UInt32 → Ptr
  convBuf : Nat → Ptr

/-
  The switch over the conversion specifiers: the bytes given
  to `nb_putc`, and how far `esp` is advanced.
-/
def convert
    (args : PrintfArgs)
    (alternate : Bool)
    (c : UInt8)
    (buf esp : Nat) : Option (List UInt8 × Nat) :=
  if c = 37 then some ([37], 0)
  else if c = 120 then do
    let printed ← convHex alternate (args.word esp)
      (args.convBuf buf)
    some (printed, 1)
  else if c = 117 then do
    let printed ← convUnsigned (args.word esp)
      (args.convBuf buf)
    some (printed, 1)
  else if c = 100 then do
    let printed ← convSigned (args.word esp)
      (args.convBuf buf)
    some (printed, 1)
  else if c = 99 then
    some ([UInt8.ofNat (args.word esp).toNat], 1)
  else if c = 115 then
    some (puts (args.string (args.word esp)), 1)
  else some ([], 0)

end MartianPendulum

------------------------------------------------------------
-- The Loop
------------------------------------------------------------

namespace MartianPendulum

/- The two `switch` statements. -/
inductive PrintfMode where
| text
| directive (alternate : Bool)
deriving DecidableEq

/-
  The locals of `printf`, with offsets for the pointers, and
  besides them the output and the bytes of the format that
  were read.
-/
structure PrintfState where
  buf : Nat
  esp : Nat
  mode : PrintfMode
  out : List UInt8
  reads : List Nat

/-
  The loop, with the state in which it returns.  It returns
  `buf - format`.
-/
def printfLoop
    (format : Ptr)
    (args : PrintfArgs) :
    Nat → PrintfState → Option PrintfState
| 0, _ => none
| fuel + 1, s =>
    let c := format s.buf
    let s := { s with reads := s.reads ++ [s.buf] }
    match s.mode with
    | .text =>
        if c = 0 then some s
        else if c = 37 then
          printfLoop format args fuel
            { s with
              buf := s.buf + 1
              mode := .directive false }
        else
          printfLoop format args fuel
            { s with
              buf := s.buf + 1
              out := s.out ++ [c] }
    | .directive alternate =>
        if c = 35 then
          printfLoop format args fuel
            { s with
              buf := s.buf + 1
              mode := .directive true }
        else do
          let (printed, used) ←
            convert args alternate c s.buf s.esp
          printfLoop format args fuel
            { s with
              buf := s.buf + 1
              esp := s.esp + used
              mode := .text
              out := s.out ++ printed }

/- The state in which `printf` enters its loop. -/
def printfStart : PrintfState :=
  { buf := 0
    esp := 0
    mode := .text
    out := []
    reads := [] }

/- `printf` returns, in a state. -/
def PrintfReturns
    (format : Ptr)
    (args : PrintfArgs)
    (s : PrintfState) : Prop :=
  ∃ fuel, printfLoop format args fuel printfStart = some s

/-
  Every directive has its conversion specifier, from a
  position within the text or within a directive on.
-/
def completeFrom :
    Bool → List UInt8 → Bool
| inDirective, [] => !inDirective
| false, c :: chars => completeFrom (c = 37) chars
| true, c :: chars => completeFrom (c = 35) chars

end MartianPendulum

------------------------------------------------------------
-- What the Conversions Print
------------------------------------------------------------

namespace MartianPendulum

/- `puts` of a string that was laid into memory. -/
theorem puts_laid
    (mem : Ptr)
    (pos : Nat)
    {chars : List UInt8}
    (hChars : ∀ c ∈ chars, c ≠ 0)
    (hLen : chars.length < 2 ^ 32) :
    puts (fun i =>
      Logic.laid mem pos (chars ++ [0]) (pos + i)) =
        chars := by
  apply cut_eq_of (Nat.le_of_lt hLen) _ hChars
  · intro _
    rw [Logic.laid_of_lt _ _ (by simp)]
    simp
  · intro j hj
    rw [Logic.laid_of_lt _ _ (by simp; omega),
      List.getElem_append_left hj,
      List.getD_eq_getElem _ _ hj]

theorem puts_laid_zero
    (mem : Ptr)
    {chars : List UInt8}
    (hChars : ∀ c ∈ chars, c ≠ 0)
    (hLen : chars.length < 2 ^ 32) :
    puts (Logic.laid mem 0 (chars ++ [0])) = chars := by
  have hPuts := puts_laid mem 0 hChars hLen
  simpa using hPuts

/- The loop lays zeros up to the digits. -/
theorem padLoop_eq
    {startingIndex : Nat}
    (hStart : startingIndex ≤ 8)
    (convBuf : Ptr) :
    padLoop startingIndex convBuf =
      some (Logic.laid convBuf startingIndex
        (List.replicate (8 - startingIndex) 48)) := by
  have hLoop : ∀ (n first : Nat) (mem : Ptr),
      first + n ≤ 64 →
      (List.range' first n).foldlM
          (fun mem i => storeIn 64 i 48 mem) mem =
        some (Logic.laid mem first
          (List.replicate n 48)) := by
    intro n
    induction n with
    | zero =>
        intro first mem _
        rw [List.replicate_zero, Logic.laid_nil]
        rfl
    | succ n ih =>
        intro first mem hSize
        rw [List.range'_succ, List.foldlM_cons,
          storeIn_of_lt (by omega), Option.bind_eq_bind,
          Option.bind_some, ih (first + 1) _ (by omega),
          List.replicate_succ, Logic.laid_cons]
  exact hLoop _ _ convBuf (by omega)

/- Eight hexadecimal digits. -/
def paddedHex
    (value : UInt32) : List UInt8 :=
  List.replicate
      (8 - (numeral 16 value.toNat).length) (digitChar 0) ++
    numeral 16 value.toNat

/- A minus sign and the digits of the absolute value. -/
def signedNumeral
    (arg : UInt32) : List UInt8 :=
  if s32 arg.toNat < 0 then
    45 :: numeral 10 (2 ^ 32 - arg.toNat)
  else numeral 10 arg.toNat

theorem length_hex
    (value : UInt32) :
    (numeral 16 value.toNat).length ≤ 8 := by
  apply length_numeral_le (by decide) (by decide)
  exact value.toNat_lt

theorem convHex_eq
    (alternate : Bool)
    (value : UInt32)
    (convBuf : Ptr) :
    convHex alternate value convBuf =
      some (if alternate then paddedHex value
        else numeral 16 value.toNat) := by
  have hNumeral := isNumeral_numeral
    (show 2 ≤ 16 by decide) (by decide) value.toNat
  have hLength := length_hex value
  have hChars := hNumeral.ne_zero
  unfold convHex
  cases alternate with
  | false =>
      rw [if_pos rfl, itoa_eq (by decide) (by decide) value
        (by omega), Option.bind_eq_bind, Option.bind_some,
        puts_laid_zero _ hChars (by omega)]
      rfl
  | true =>
      rw [if_neg (by decide), itoa_eq (by decide) (by decide)
        value (by omega), Option.bind_eq_bind,
        Option.bind_some]
      dsimp only
      rw [strlen_laid convBuf 8 hChars (by omega),
        padLoop_eq hLength, Option.bind_some]
      -- the zeros end where the digits start
      have hStart : (numeral 16 value.toNat).length +
          (List.replicate
            (8 - (numeral 16 value.toNat).length)
            (48 : UInt8)).length = 8 := by
        rw [List.length_replicate]
        omega
      have hJoin := Logic.laid_prepend convBuf
        (numeral 16 value.toNat).length
        (List.replicate
          (8 - (numeral 16 value.toNat).length) 48)
        (numeral 16 value.toNat ++ [0])
      rw [hStart, ← List.append_assoc] at hJoin
      rw [hJoin, puts_laid convBuf _ ?_ ?_]
      · rfl
      · intro c hc
        rcases List.mem_append.mp hc with hZero | hDigit
        · rw [List.eq_of_mem_replicate hZero]
          decide
        · exact hChars c hDigit
      · rw [List.length_append, List.length_replicate]
        omega

theorem convUnsigned_eq
    (value : UInt32)
    (convBuf : Ptr) :
    convUnsigned value convBuf =
      some (numeral 10 value.toNat) := by
  have hChars := (isNumeral_numeral
    (show 2 ≤ 10 by decide) (by decide)
    value.toNat).ne_zero
  have hLength := length_numeral_uint32
    (show 2 ≤ 10 by decide) value
  unfold convUnsigned
  rw [itoa_eq (by decide) (by decide) value (by omega),
    Option.bind_eq_bind, Option.bind_some,
    puts_laid_zero _ hChars (by omega)]

/- The negative values, and how they are negated. -/
theorem s32_neg_iff
    (arg : UInt32) :
    s32 arg.toNat < 0 ↔ 2 ^ 31 ≤ arg.toNat := by
  have hLt := arg.toNat_lt
  unfold s32
  rw [Int.bmod_def]
  omega

theorem u32_neg
    {arg : UInt32}
    (hNeg : s32 arg.toNat < 0) :
    u32 (-s32 arg.toNat) = 2 ^ 32 - arg.toNat := by
  have hLt := arg.toNat_lt
  rw [s32_neg_iff] at hNeg
  unfold s32 u32
  rw [Int.bmod_def]
  omega

theorem u32_nonneg
    {arg : UInt32}
    (hPos : ¬ s32 arg.toNat < 0) :
    u32 (s32 arg.toNat) = arg.toNat := by
  have hLt := arg.toNat_lt
  rw [s32_neg_iff] at hPos
  unfold s32 u32
  rw [Int.bmod_def]
  omega

theorem convSigned_eq
    (arg : UInt32)
    (convBuf : Ptr) :
    convSigned arg convBuf = some (signedNumeral arg) := by
  have hLt := arg.toNat_lt
  unfold convSigned signedNumeral
  dsimp only
  split
  next hNeg =>
    have hBelow := (s32_neg_iff arg).mp hNeg
    have hValue : (UInt32.ofNat
        (u32 (-s32 arg.toNat))).toNat =
          2 ^ 32 - arg.toNat := by
      rw [u32_neg hNeg, UInt32.toNat_ofNat']
      omega
    have hChars := (isNumeral_numeral
      (show 2 ≤ 10 by decide) (by decide)
      (2 ^ 32 - arg.toNat)).ne_zero
    have hLength := length_numeral_uint32
      (show 2 ≤ 10 by decide)
      (UInt32.ofNat (u32 (-s32 arg.toNat)))
    have hSign : ∀ c ∈ 45 :: numeral 10 (2 ^ 32 - arg.toNat),
        c ≠ 0 := by
      rw [List.forall_mem_cons]
      exact ⟨by decide, hChars⟩
    rw [storeIn_of_lt (by decide), Option.bind_eq_bind,
      Option.bind_some, itoa_eq (by decide) (by decide) _
        (by omega), Option.bind_some, hValue,
      Logic.laid_cons, ← List.cons_append]
    rw [hValue] at hLength
    rw [puts_laid_zero _ hSign (by
      rw [List.length_cons]
      omega)]
  next hPos =>
    have hValue : (UInt32.ofNat
        (u32 (s32 arg.toNat))).toNat = arg.toNat := by
      rw [u32_nonneg hPos, UInt32.toNat_ofNat']
      omega
    have hChars := (isNumeral_numeral
      (show 2 ≤ 10 by decide) (by decide)
      arg.toNat).ne_zero
    have hLength := length_numeral_uint32
      (show 2 ≤ 10 by decide) arg
    rw [itoa_eq (by decide) (by decide) _ (by
        rw [hValue]
        omega),
      Option.bind_eq_bind, Option.bind_some, hValue,
      puts_laid_zero _ hChars (by omega)]

/- What a directive prints, and the arguments it takes. -/
def directiveText
    (args : PrintfArgs)
    (alternate : Bool)
    (c : UInt8)
    (esp : Nat) : List UInt8 :=
  if c = 37 then [37]
  else if c = 120 then
    if alternate then paddedHex (args.word esp)
    else numeral 16 (args.word esp).toNat
  else if c = 117 then numeral 10 (args.word esp).toNat
  else if c = 100 then signedNumeral (args.word esp)
  else if c = 99 then
    [UInt8.ofNat (args.word esp).toNat]
  else if c = 115 then
    puts (args.string (args.word esp))
  else []

def directiveArgs
    (c : UInt8) : Nat :=
  if c ∈ [120, 117, 100, 99, 115] then 1 else 0

/-
  No conversion leaves its array, and the arrays' earlier
  contents do not matter.
-/
theorem convert_eq
    (args : PrintfArgs)
    (alternate : Bool)
    (c : UInt8)
    (buf esp : Nat) :
    convert args alternate c buf esp =
      some (directiveText args alternate c esp,
        directiveArgs c) := by
  unfold convert directiveText
  rw [convHex_eq, convUnsigned_eq, convSigned_eq]
  by_cases hPercent : c = 37
  · subst hPercent
    simp [directiveArgs]
  · by_cases hHex : c = 120
    · subst hHex
      simp [directiveArgs]
    · by_cases hUnsigned : c = 117
      · subst hUnsigned
        simp [directiveArgs]
      · by_cases hSigned : c = 100
        · subst hSigned
          simp [directiveArgs]
        · by_cases hChar : c = 99
          · subst hChar
            simp [directiveArgs]
          · by_cases hString : c = 115
            · subst hString
              simp [directiveArgs]
            · simp [directiveArgs, hPercent, hHex,
                hUnsigned, hSigned, hChar, hString]

end MartianPendulum

------------------------------------------------------------
-- One Pass
------------------------------------------------------------

namespace MartianPendulum

def PrintfMode.inDirective : PrintfMode → Bool
| text => false
| directive _ => true

/- The state after a byte of the format was used. -/
def PrintfState.advance
    (s : PrintfState)
    (mode : PrintfMode)
    (used : Nat)
    (printed : List UInt8) : PrintfState :=
  { buf := s.buf + 1
    esp := s.esp + used
    mode := mode
    out := s.out ++ printed
    reads := s.reads ++ [s.buf] }

/- The state after a byte that is not NUL. -/
def printfNext
    (args : PrintfArgs)
    (c : UInt8)
    (s : PrintfState) : PrintfState :=
  match s.mode with
  | .text =>
      if c = 37 then s.advance (.directive false) 0 []
      else s.advance .text 0 [c]
  | .directive alternate =>
      if c = 35 then s.advance (.directive true) 0 []
      else s.advance .text (directiveArgs c)
        (directiveText args alternate c s.esp)

variable {format : Ptr}
variable {args : PrintfArgs}
variable {s : PrintfState}

/- The loop ends at a NUL in the text. -/
theorem printfLoop_end
    (hMode : s.mode = .text)
    (hZero : format s.buf = 0)
    (fuel : Nat) :
    printfLoop format args (fuel + 1) s =
      some { s with reads := s.reads ++ [s.buf] } := by
  rw [printfLoop]
  dsimp only
  rw [hMode, hZero]
  rfl

/- A NUL within a directive is passed like any byte. -/
theorem printfLoop_next
    (hGo : s.mode = .text → format s.buf ≠ 0)
    (fuel : Nat) :
    printfLoop format args (fuel + 1) s =
      printfLoop format args fuel
        (printfNext args (format s.buf) s) := by
  cases s with
  | mk buf esp mode out reads =>
      cases mode with
      | text =>
          have hChar := hGo rfl
          dsimp only at hChar
          rw [printfLoop, printfNext]
          dsimp only
          rw [if_neg hChar]
          split
          · simp [PrintfState.advance]
          · simp [PrintfState.advance]
      | directive alternate =>
          rw [printfLoop, printfNext]
          dsimp only
          split
          · simp [PrintfState.advance]
          · rw [convert_eq]
            rfl

/- What the rest of a format prints. -/
def render
    (args : PrintfArgs) :
    PrintfMode → Nat → List UInt8 → List UInt8
| _, _, [] => []
| .text, esp, c :: chars =>
    if c = 37 then render args (.directive false) esp chars
    else c :: render args .text esp chars
| .directive alternate, esp, c :: chars =>
    if c = 35 then render args (.directive true) esp chars
    else
      directiveText args alternate c esp ++
        render args .text (esp + directiveArgs c) chars

/- A byte of the format, used. -/
structure Used
    (args : PrintfArgs)
    (c : UInt8)
    (s s' : PrintfState) : Prop where
  buf : s'.buf = s.buf + 1
  reads : s'.reads = s.reads ++ [s.buf]
  complete : ∀ chars,
    completeFrom s.mode.inDirective (c :: chars) =
      completeFrom s'.mode.inDirective chars
  out : ∀ chars,
    s'.out ++ render args s'.mode s'.esp chars =
      s.out ++ render args s.mode s.esp (c :: chars)

theorem used_printfNext
    (args : PrintfArgs)
    (c : UInt8)
    (s : PrintfState) :
    Used args c s (printfNext args c s) := by
  cases s with
  | mk buf esp mode out reads =>
      cases mode with
      | text =>
          by_cases hPercent : c = 37
          · subst hPercent
            refine ⟨rfl, rfl, fun _ => rfl, ?_⟩
            intro chars
            simp [printfNext, PrintfState.advance, render]
          · have hNext : printfNext args c
                ⟨buf, esp, .text, out, reads⟩ =
                  PrintfState.advance
                    ⟨buf, esp, .text, out, reads⟩
                    .text 0 [c] := if_neg hPercent
            rw [hNext]
            refine ⟨rfl, rfl, ?_, ?_⟩
            · intro chars
              simp [PrintfMode.inDirective, completeFrom,
                PrintfState.advance, hPercent]
            · intro chars
              simp [PrintfState.advance, render, hPercent]
      | directive alternate =>
          by_cases hHash : c = 35
          · subst hHash
            refine ⟨rfl, rfl, fun _ => rfl, ?_⟩
            intro chars
            simp [printfNext, PrintfState.advance, render]
          · have hNext : printfNext args c
                ⟨buf, esp, .directive alternate, out,
                  reads⟩ =
                  PrintfState.advance
                    ⟨buf, esp, .directive alternate, out,
                      reads⟩
                    .text (directiveArgs c)
                    (directiveText args alternate c esp) :=
              if_neg hHash
            rw [hNext]
            refine ⟨rfl, rfl, ?_, ?_⟩
            · intro chars
              simp [PrintfMode.inDirective, completeFrom,
                PrintfState.advance, hHash]
            · intro chars
              simp [PrintfState.advance, render, hHash]

/- What was read stays read. -/
theorem reads_subset_printfLoop
    {fuel : Nat}
    {s' : PrintfState}
    (hLoop : printfLoop format args fuel s = some s') :
    s.reads ++ [s.buf] ⊆ s'.reads := by
  induction fuel generalizing s with
  | zero => cases hLoop
  | succ fuel ih =>
      by_cases hEnd : s.mode = .text ∧ format s.buf = 0
      · rw [printfLoop_end hEnd.1 hEnd.2] at hLoop
        cases hLoop
        exact List.Subset.refl _
      · rw [printfLoop_next (fun hMode hZero =>
          hEnd ⟨hMode, hZero⟩)] at hLoop
        have hSub := ih hLoop
        rw [(used_printfNext args _ s).reads] at hSub
        exact List.Subset.trans
          (List.subset_append_left _ _) hSub

end MartianPendulum

------------------------------------------------------------
-- Whole Formats
------------------------------------------------------------

namespace MartianPendulum

/- The byte at a position within the format. -/
theorem CString.ptr_append
    {f : CString}
    {before chars : List UInt8}
    {c : UInt8}
    (hFormat : f.chars = before ++ c :: chars) :
    f.ptr before.length = c := by
  have hLt : before.length < f.chars.length := by
    rw [hFormat, List.length_append, List.length_cons]
    omega
  rw [f.ptr_of_lt hLt]
  simp [hFormat]

/- One character of the format taken by the loop. -/
theorem printfLoop_char
    {f : CString}
    (args : PrintfArgs)
    {before chars : List UInt8}
    {c : UInt8}
    (hFormat : f.chars = before ++ c :: chars)
    {s : PrintfState}
    (hBuf : s.buf = before.length) :
    f.chars = (before ++ [c]) ++ chars ∧
      (printfNext args c s).buf = (before ++ [c]).length ∧
      ∀ fuel, printfLoop f.ptr args (fuel + 1) s =
        printfLoop f.ptr args fuel (printfNext args c s) := by
  have hChar : f.ptr s.buf = c := by
    rw [hBuf]
    exact CString.ptr_append hFormat
  have hNonzero : c ≠ 0 := by
    apply f.nonzero
    rw [hFormat]
    simp
  refine ⟨?_, ?_, ?_⟩
  · rw [hFormat, List.append_assoc]
    rfl
  · rw [(used_printfNext args c s).buf, hBuf,
      List.length_append]
    rfl
  · intro fuel
    rw [printfLoop_next (by
      intro _
      rw [hChar]
      exact hNonzero), hChar]

/-
  From a position after which every directive is complete,
  the loop prints the rest, reads it up to the terminator
  and returns there.
-/
theorem printfLoop_complete
    {f : CString}
    (args : PrintfArgs)
    {before chars : List UInt8}
    (hFormat : f.chars = before ++ chars)
    {s : PrintfState}
    (hBuf : s.buf = before.length)
    (hComplete :
      completeFrom s.mode.inDirective chars = true) :
    ∃ s',
      printfLoop f.ptr args (chars.length + 1) s = some s' ∧
      s'.buf = f.chars.length ∧
      s'.out = s.out ++ render args s.mode s.esp chars ∧
      s'.reads =
        s.reads ++ List.range' s.buf (chars.length + 1) := by
  induction chars generalizing before s with
  | nil =>
      rw [List.append_nil] at hFormat
      have hMode : s.mode = .text := by
        cases hMode : s.mode with
        | text => rfl
        | directive alternate =>
            rw [hMode] at hComplete
            cases hComplete
      have hZero : f.ptr s.buf = 0 := by
        rw [hBuf, ← hFormat]
        exact f.ptr_length
      refine ⟨_, printfLoop_end hMode hZero 0, ?_, ?_, ?_⟩
      · rw [hBuf, hFormat]
      · simp [render]
      · rfl
  | cons c chars ih =>
      have hUsed := used_printfNext args c s
      rcases printfLoop_char args hFormat hBuf with
        ⟨hSplit, hNext, hPass⟩
      rw [hUsed.complete] at hComplete
      rcases ih hSplit hNext hComplete with
        ⟨s', hLoop, hEnd, hOut, hReads⟩
      refine ⟨s', ?_, hEnd, ?_, ?_⟩
      · rw [List.length_cons, hPass]
        exact hLoop
      · rw [hOut, hUsed.out]
      · rw [hReads, hUsed.reads, hUsed.buf,
          List.length_cons, List.append_assoc]
        rfl

/-
  From a position after which a directive is cut off, every
  run that returns has read behind the terminator.
-/
theorem printfLoop_incomplete
    {f : CString}
    {args : PrintfArgs}
    {before chars : List UInt8}
    (hFormat : f.chars = before ++ chars)
    {s : PrintfState}
    (hBuf : s.buf = before.length)
    (hCut :
      completeFrom s.mode.inDirective chars = false)
    {fuel : Nat}
    {s' : PrintfState}
    (hLoop : printfLoop f.ptr args fuel s = some s') :
    f.chars.length + 1 ∈ s'.reads := by
  induction chars generalizing before s fuel with
  | nil =>
      rw [List.append_nil] at hFormat
      have hMode : s.mode ≠ .text := by
        intro hMode
        rw [hMode] at hCut
        cases hCut
      cases fuel with
      | zero => cases hLoop
      | succ fuel =>
          rw [printfLoop_next
            (fun h => absurd h hMode)] at hLoop
          have hSub := reads_subset_printfLoop hLoop
          apply hSub
          rw [(used_printfNext args _ s).buf, hBuf, hFormat]
          simp
  | cons c chars ih =>
      have hUsed := used_printfNext args c s
      rcases printfLoop_char args hFormat hBuf with
        ⟨hSplit, hNext, hPass⟩
      rw [hUsed.complete] at hCut
      cases fuel with
      | zero => cases hLoop
      | succ fuel =>
          rw [hPass] at hLoop
          exact ih hSplit hNext hCut hLoop

/-
  `printf` returns the length of its format and reads none
  of the bytes behind its terminator exactly if no directive
  of the format is cut off by its end.
-/
theorem printf_stops_at_end_iff
    (f : CString)
    (args : PrintfArgs) :
    (∃ s, PrintfReturns f.ptr args s ∧
        s.buf = f.chars.length ∧
        ∀ i ∈ s.reads, i ≤ f.chars.length) ↔
      completeFrom false f.chars = true := by
  constructor
  · rintro ⟨s, ⟨fuel, hLoop⟩, -, hReads⟩
    by_contra hCut
    rw [Bool.not_eq_true] at hCut
    have hBehind := printfLoop_incomplete
      (s := printfStart) (List.nil_append _).symm rfl hCut
      hLoop
    have hLe := hReads _ hBehind
    omega
  · intro hComplete
    rcases printfLoop_complete args (s := printfStart)
        (List.nil_append _).symm rfl hComplete with
      ⟨s, hLoop, hEnd, -, hReads⟩
    refine ⟨s, ⟨_, hLoop⟩, hEnd, ?_⟩
    intro i hi
    rw [hReads] at hi
    simp only [printfStart, List.nil_append,
      List.mem_range'_1] at hi
    omega

/- A lone percent sign, with more bytes behind the NUL. -/
def lonePercent : CString :=
  { chars := [37]
    after := fun _ => 0
    nonzero := by simp }

def noArgs : PrintfArgs :=
  { word := fun _ => 0
    string := fun _ _ => 0
    convBuf := fun _ _ => 0 }

/- `printf("%")` steps over the terminator. -/
theorem printf_lonePercent :
    ¬ ∃ s, PrintfReturns lonePercent.ptr noArgs s ∧
      s.buf = lonePercent.chars.length ∧
      ∀ i ∈ s.reads, i ≤ lonePercent.chars.length := by
  rintro ⟨s, ⟨fuel, hLoop⟩, -, hReads⟩
  have hBehind := printfLoop_incomplete
    (s := printfStart)
    (List.nil_append lonePercent.chars).symm rfl rfl hLoop
  exact absurd (hReads _ hBehind) (by decide)

end MartianPendulum

------------------------------------------------------------
-- Directives within a Format
------------------------------------------------------------

namespace MartianPendulum

/- The arguments that a part of a format takes. -/
def argsTaken :
    Bool → List UInt8 → Nat
| _, [] => 0
| false, c :: chars => argsTaken (c = 37) chars
| true, c :: chars =>
    if c = 35 then argsTaken true chars
    else directiveArgs c + argsTaken false chars

theorem completeFrom_append
    {inDirective : Bool}
    {before : List UInt8}
    (hBefore : completeFrom inDirective before = true)
    (chars : List UInt8) :
    completeFrom inDirective (before ++ chars) =
      completeFrom false chars := by
  induction before generalizing inDirective with
  | nil =>
      cases inDirective with
      | false => rfl
      | true => cases hBefore
  | cons c before ih =>
      cases inDirective with
      | false => exact ih hBefore
      | true => exact ih hBefore

theorem render_append
    (args : PrintfArgs)
    {mode : PrintfMode}
    {before : List UInt8}
    (hBefore :
      completeFrom mode.inDirective before = true)
    (esp : Nat)
    (chars : List UInt8) :
    render args mode esp (before ++ chars) =
      render args mode esp before ++
        render args .text
          (esp + argsTaken mode.inDirective before)
          chars := by
  induction before generalizing mode esp with
  | nil =>
      cases mode with
      | text => rfl
      | directive alternate => cases hBefore
  | cons c before ih =>
      cases mode with
      | text =>
          by_cases hPercent : c = 37
          · subst hPercent
            have hRest := @ih (.directive false) hBefore esp
            simpa [render, argsTaken,
              PrintfMode.inDirective] using hRest
          · have hRest := @ih .text
              (by simpa [PrintfMode.inDirective,
                completeFrom, hPercent] using hBefore) esp
            simpa [render, argsTaken, hPercent,
              PrintfMode.inDirective] using hRest
      | directive alternate =>
          by_cases hHash : c = 35
          · subst hHash
            have hRest := @ih (.directive true) hBefore esp
            simpa [render, argsTaken,
              PrintfMode.inDirective] using hRest
          · have hRest := @ih .text
              (by simpa [PrintfMode.inDirective,
                completeFrom, hHash] using hBefore)
              (esp + directiveArgs c)
            simpa [render, argsTaken, hHash,
              PrintfMode.inDirective, Nat.add_assoc]
              using hRest

/-
  The directive prints a text with a property of its
  argument, wherever it stands in a format without cut off
  directives.
-/
def PrintsArgument
    (args : PrintfArgs)
    (directive : List UInt8)
    (P : UInt32 → List UInt8 → Prop) : Prop :=
  ∀ (f : CString) (before after : List UInt8),
    f.chars = before ++ directive ++ after →
    completeFrom false before = true →
    completeFrom false after = true →
    ∃ s chars,
      PrintfReturns f.ptr args s ∧
      s.out =
        render args .text 0 before ++ chars ++
          render args .text (argsTaken false before + 1)
            after ∧
      P (args.word (argsTaken false before)) chars

theorem printsArgument_of
    (args : PrintfArgs)
    {directive : List UInt8}
    {P : UInt32 → List UInt8 → Prop}
    {print : UInt32 → List UInt8}
    (hDirective : completeFrom false directive = true)
    (hTaken : argsTaken false directive = 1)
    (hRender : ∀ esp,
      render args .text esp directive =
        print (args.word esp))
    (hPrint : ∀ v, P v (print v)) :
    PrintsArgument args directive P := by
  intro f before after hFormat hBefore hAfter
  rw [List.append_assoc] at hFormat
  have hComplete : completeFrom false f.chars = true := by
    rw [hFormat, completeFrom_append hBefore,
      completeFrom_append hDirective]
    exact hAfter
  rcases printfLoop_complete args (s := printfStart)
      (List.nil_append _).symm rfl hComplete with
    ⟨s, hLoop, -, hOut, -⟩
  refine ⟨s, print (args.word (argsTaken false before)),
    ⟨_, hLoop⟩, ?_, hPrint _⟩
  have hFirst := @render_append args .text before hBefore 0
    (directive ++ after)
  have hSecond := @render_append args .text directive
    hDirective (argsTaken false before) after
  simp only [PrintfMode.inDirective, Nat.zero_add, hTaken,
    hRender] at hFirst hSecond
  rw [hSecond] at hFirst
  rw [hOut, hFormat]
  simpa [printfStart] using hFirst

end MartianPendulum

------------------------------------------------------------
-- Round Trips
------------------------------------------------------------

namespace MartianPendulum

/- The value of a text with an optional minus sign. -/
def evaluateSigned :
    List UInt8 → Int
| 45 :: chars => -(evaluate 10 chars : Int)
| chars => evaluate 10 chars

/- A signed decimal number, without leading zeros. -/
def IsSignedNumeral
    (value : Int)
    (chars : List UInt8) : Prop :=
  evaluateSigned chars = value ∧
    ∃ n digits, IsNumeral 10 n digits ∧
      (chars = digits ∨ chars = 45 :: digits)

/- Eight hexadecimal digits with a value. -/
structure IsPaddedHex
    (value : Nat)
    (chars : List UInt8) : Prop where
  length : chars.length = 8
  digits : ∀ c ∈ chars, ∃ d < 16, charDigit c = some d
  value : evaluate 16 chars = value

/- A numeral does not start with a minus sign. -/
theorem evaluateSigned_of_isNumeral
    {n : Nat}
    {chars : List UInt8}
    (hNumeral : IsNumeral 10 n chars) :
    evaluateSigned chars = n := by
  have hValue := hNumeral.value
  unfold evaluateSigned
  split
  next rest =>
    rcases hNumeral.digits 45 (by simp) with ⟨d, -, hDigit⟩
    simp [charDigit] at hDigit
  next => rw [hValue]

theorem isSignedNumeral_signedNumeral
    (arg : UInt32) :
    IsSignedNumeral (s32 arg.toNat) (signedNumeral arg) := by
  have hLt := arg.toNat_lt
  unfold signedNumeral
  split
  next hNeg =>
    have hNumeral := isNumeral_numeral
      (show 2 ≤ 10 by decide) (by decide)
      (2 ^ 32 - arg.toNat)
    refine ⟨?_, _, _, hNumeral, Or.inr rfl⟩
    rw [s32_neg_iff] at hNeg
    change -(evaluate 10
      (numeral 10 (2 ^ 32 - arg.toNat)) : Int) = _
    rw [hNumeral.value]
    unfold s32
    rw [Int.bmod_def]
    omega
  next hPos =>
    have hNumeral := isNumeral_numeral
      (show 2 ≤ 10 by decide) (by decide) arg.toNat
    refine ⟨?_, _, _, hNumeral, Or.inl rfl⟩
    rw [evaluateSigned_of_isNumeral hNumeral]
    rw [s32_neg_iff] at hPos
    unfold s32
    rw [Int.bmod_def]
    omega

/- Leading zeros do not change a value. -/
theorem evaluate_zeros
    (radix n : Nat)
    (chars : List UInt8) :
    evaluate radix
        (List.replicate n (digitChar 0) ++ chars) =
      evaluate radix chars := by
  induction n with
  | zero => rfl
  | succ n ih =>
      have hZero := charDigit_digitChar
        (show 0 < 36 by decide)
      rw [← ih]
      unfold evaluate
      rw [List.replicate_succ, List.cons_append,
        List.foldl_cons, hZero]
      simp

theorem isPaddedHex_paddedHex
    (value : UInt32) :
    IsPaddedHex value.toNat (paddedHex value) := by
  have hNumeral := isNumeral_numeral
    (show 2 ≤ 16 by decide) (by decide) value.toNat
  have hLength := length_hex value
  unfold paddedHex
  refine ⟨?_, ?_, ?_⟩
  · rw [List.length_append, List.length_replicate]
    omega
  · intro c hc
    rcases List.mem_append.mp hc with hZero | hDigit
    · rw [List.eq_of_mem_replicate hZero]
      exact ⟨0, by decide, charDigit_digitChar (by decide)⟩
    · exact hNumeral.digits c hDigit
  · rw [evaluate_zeros]
    exact hNumeral.value

/-
  `itoa` and `ece391_itoa` lay the same numeral of the value
  into their buffer, the number directives of `printf` print
  their argument, and no conversion leaves its array.
-/
theorem number_formatting_round_trips :
    (∀ radix, 2 ≤ radix → radix ≤ 36 → ∀ value : UInt32,
      ∃ chars,
        IsNumeral radix value.toNat chars ∧
        chars.length ≤ 32 ∧
        ∀ size buf mem, buf + chars.length + 1 ≤ size →
          itoa size value buf radix mem =
              some (Logic.laid mem buf (chars ++ [0])) ∧
            ece391Itoa size value buf radix mem =
              some (Logic.laid mem buf (chars ++ [0]))) ∧
    (∀ args,
      PrintsArgument args [37, 117]
          (fun v chars => IsNumeral 10 v.toNat chars) ∧
        PrintsArgument args [37, 120]
          (fun v chars => IsNumeral 16 v.toNat chars) ∧
        PrintsArgument args [37, 100]
          (fun v chars =>
            IsSignedNumeral (s32 v.toNat) chars) ∧
        PrintsArgument args [37, 35, 120]
          (fun v chars => IsPaddedHex v.toNat chars)) ∧
    (∀ args alternate c buf esp,
      (convert args alternate c buf esp).isSome) := by
  refine ⟨?_, ?_, ?_⟩
  · intro radix hRadix hRadix' value
    refine ⟨numeral radix value.toNat,
      isNumeral_numeral hRadix hRadix' _,
      length_numeral_uint32 hRadix value, ?_⟩
    intro size buf mem hSize
    rw [ece391Itoa_eq, and_self]
    exact itoa_eq hRadix hRadix' value hSize mem
  · intro args
    refine ⟨?_, ?_, ?_, ?_⟩
    · exact printsArgument_of args rfl rfl
        (fun esp => by simp [render, directiveText])
        (fun v => isNumeral_numeral (by decide) (by decide)
          v.toNat)
    · exact printsArgument_of args rfl rfl
        (fun esp => by simp [render, directiveText])
        (fun v => isNumeral_numeral (by decide) (by decide)
          v.toNat)
    · exact printsArgument_of args rfl rfl
        (fun esp => by simp [render, directiveText])
        isSignedNumeral_signedNumeral
    · exact printsArgument_of args rfl rfl
        (fun esp => by simp [render, directiveText])
        isPaddedHex_paddedHex
  · intro args alternate c buf esp
    rw [convert_eq]
    rfl

/- `itoa(255, buf, 16)`, and `printf` of the least integer. -/
theorem number_formatting_round_trips_samples :
    (∃ chars, IsNumeral 16 255 chars ∧
      itoa 33 255 0 16 (fun _ => 0) =
        some (Logic.laid (fun _ => 0) 0 (chars ++ [0]))) ∧
    ∃ s chars,
      PrintfReturns (CString.mk [37, 100] (fun _ => 0)
        (by simp)).ptr
        { noArgs with word := fun _ => 2147483648 } s ∧
      s.out = chars ∧
      IsSignedNumeral (-2147483648) chars := by
  rcases number_formatting_round_trips with
    ⟨hItoa, hPrintf, -⟩
  constructor
  · rcases hItoa 16 (by decide) (by decide) 255 with
      ⟨chars, hNumeral, hLength, hLaid⟩
    exact ⟨chars, hNumeral,
      (hLaid 33 0 (fun _ => 0) (by omega)).1⟩
  · have hLeast : s32 (2147483648 : UInt32).toNat =
        -2147483648 := by
      decide
    rcases (hPrintf
        { noArgs with
          word := fun _ => 2147483648 }).2.2.1
        (CString.mk [37, 100] (fun _ => 0) (by simp))
        [] [] rfl rfl rfl with
      ⟨s, chars, hReturns, hOut, hSigned⟩
    rw [hLeast] at hSigned
    refine ⟨s, chars, hReturns, ?_, hSigned⟩
    simpa [render] using hOut

end MartianPendulum
