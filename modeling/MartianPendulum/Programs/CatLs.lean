import MartianPendulum.Programs.World

/-
  The programs `cat` and `ls`.

  Both read until a read returns 0.  For a regular file this
  is its end.  For the directory it is its end, or an entry
  without a name before it.

  Key definitions include:
    * `cat`
    * `ls`
    * `FileSystem.listed`
    * `FileSystem.catResult`, `FileSystem.lsResult`

  Key theorems include:
    * `catLoop_regular`
    * `catLoop_directory`
    * `cat_prints_file`
    * `ls_prints_names`
-/

------------------------------------------------------------
-- Programs
------------------------------------------------------------

namespace MartianPendulum

/- The loop of `cat`; `buf` is an array of 1024 bytes. -/
def catLoop
    (h : Host)
    (fd : Int) :
    Nat → Ptr → World → Option (Int × World)
| 0, _, _ => none
| fuel + 1, buf, w => do
    let (cnt, buf, w) ← ece391Read h fd buf 1024 w
    if cnt = 0 then some (0, w)
    else if cnt = -1 then do
      let w ← ece391Fdputs 1 (literal "file read failed\n") w
      some (3, w)
    else do
      let (written, w) ← ece391Write 1 buf cnt w
      if written = -1 then some (3, w)
      else catLoop h fd fuel buf w

/- `main` of `ece391cat.c` -/
def cat
    (h : Host)
    (fuel : Nat)
    (buf : Ptr)
    (w : World) : Option (Int × World) :=
  let got := ece391Getargs h buf 1024
  if got.1 ≠ 0 then do
    let w ← ece391Fdputs 1
      (literal "could not read arguments\n") w
    some (3, w)
  else
    let opened := ece391Open h got.2 w
    if opened.1 = -1 then do
      let w ← ece391Fdputs 1 (literal "file not found\n")
        opened.2
      some (2, w)
    else catLoop h opened.1 fuel got.2 opened.2

/- The loop of `ls`; `buf` is an array of 33 bytes. -/
def lsLoop
    (h : Host)
    (fd : Int) :
    Nat → Ptr → World → Option (Int × World)
| 0, _, _ => none
| fuel + 1, buf, w => do
    let (cnt, buf, w) ← ece391Read h fd buf 32 w
    if cnt = 0 then some (0, w)
    else if cnt = -1 then do
      let w ← ece391Fdputs 1
        (literal "directory entry read failed\n") w
      some (3, w)
    else do
      let buf := Function.update buf cnt.toNat newline
      let w ← ece391Fdputs 1 (literal "try to write...\n") w
      let (result, w) ← ece391Write 1 buf (cnt + 1) w
      if result = -1 then some (3, w)
      else lsLoop h fd fuel buf w

/- `main` of `ece391ls.c` -/
def ls
    (h : Host)
    (fuel : Nat)
    (buf : Ptr)
    (w : World) : Option (Int × World) :=
  let opened := ece391Open h (literal ".") w
  if opened.1 = -1 then do
    let w ← ece391Fdputs 1
      (literal "directory open failed\n") opened.2
    some (2, w)
  else lsLoop h opened.1 fuel buf opened.2

end MartianPendulum

------------------------------------------------------------
-- Loops
------------------------------------------------------------

namespace MartianPendulum

section Loops

variable {h : Host}
variable {fd : Int}
variable {inode pos : Nat}
variable {w : World}

/- The bytes of a buffer that was just filled. -/
theorem map_blit
    (buf : Ptr)
    (m : Nat)
    (src : Nat → UInt8) :
    (List.range m).map (Logic.blit buf 0 m src) =
      (List.range m).map src := by
  apply List.map_congr_left
  intro k hk
  exact Logic.blit_apply_of_lt _ _ (List.mem_range.mp hk)

/- A read of some bytes is followed by their printing. -/
theorem catLoop_step
    {buf buf' : Ptr}
    {w' : World}
    {m : Nat}
    (hRead : ece391Read h fd buf 1024 w =
      some ((m : Int), buf', w'))
    (hOut : w'.StdoutOpen)
    (hm : 0 < m)
    (fuel : Nat) :
    catLoop h fd (fuel + 1) buf w =
      catLoop h fd fuel buf'
        (w'.print ((List.range m).map buf')) := by
  have hNotZero : (m : Int) ≠ 0 := by omega
  have hNotErr : (m : Int) ≠ -1 := by omega
  rw [catLoop, hRead]
  simp only [Option.bind_eq_bind, Option.bind_some,
    hNotZero, hNotErr, if_false]
  rw [ece391Write_stdout hOut buf' hm]
  simp only [Option.bind_some, hNotErr, if_false]

theorem catLoop_stop
    {buf buf' : Ptr}
    {w' : World}
    (hRead : ece391Read h fd buf 1024 w =
      some (0, buf', w'))
    (fuel : Nat) :
    catLoop h fd (fuel + 1) buf w = some (0, w') := by
  rw [catLoop, hRead]
  simp only [Option.bind_eq_bind, Option.bind_some, if_true]

/- The rest of a regular file is printed. -/
theorem catLoop_regular
    (hGood : h.fs.GoodFile inode)
    (fuel : Nat)
    (buf : Ptr)
    (hReads : w.Reads h.fs fd inode pos)
    (hFuel : h.fs.inodeLength inode - pos < fuel) :
    Exits (catLoop h fd fuel buf w) w 0
      (h.fs.bytesFrom inode pos) := by
  induction fuel generalizing buf w pos with
  | zero => omega
  | succ fuel ih =>
      obtain ⟨m, hm⟩ :
          ∃ m, m = min 1024 (h.fs.inodeLength inode - pos) :=
        ⟨_, rfl⟩
      have hPos := hReads.pos_le
      have hRead :=
        hReads.read hGood buf (n := 1024) (by decide) hm
      have hMoved := hReads.moved (pos + m) (by omega)
      rw [h.fs.bytesFrom_split inode
        (show m ≤ h.fs.inodeLength inode - pos by omega)]
      rcases Nat.eq_zero_or_pos m with hZero | hSome
      · -- the end of the file
        subst hZero
        have hDone : h.fs.inodeLength inode - pos = 0 := by
          omega
        refine ⟨_, catLoop_stop hRead fuel, ?_⟩
        simp [FileSystem.bytesFrom, hDone, World.moved,
          World.setEntry]
      · rw [catLoop_step hRead hMoved.stdout hSome, map_blit]
        rcases ih _ (hMoved.print _) (by omega) with
          ⟨w', hRun, hOut⟩
        refine ⟨w', hRun, ?_⟩
        rw [hOut, World.print_out, List.append_assoc]
        rfl

/- For the directory the names follow each other. -/
theorem catLoop_directory
    (fuel : Nat)
    (buf : Ptr)
    (hLists : w.Lists h.fs fd inode pos)
    (hFuel : h.fs.bootBlock.numDirEntries - pos < fuel) :
    Exits (catLoop h fd fuel buf w) w 0
      (h.fs.listed pos).flatten := by
  induction fuel generalizing buf w pos with
  | zero => omega
  | succ fuel ih =>
      rcases hLists.read_cases buf 1024 with
        ⟨name, _, hName, hPos, hListed, buf', hChars, hRead⟩ |
        ⟨hListed, buf', pos', hRead⟩
      · have hMoved := hLists.moved (pos + 1)
        rw [catLoop_step hRead hMoved.stdout
          (List.length_pos_of_ne_nil hName),
          map_range_of_getD hChars, hListed]
        rcases ih buf' (hMoved.print name) (by omega) with
          ⟨w', hRun, hOut⟩
        refine ⟨w', hRun, ?_⟩
        rw [hOut, World.print_out, List.append_assoc]
        rfl
      · refine ⟨_, catLoop_stop hRead fuel, ?_⟩
        rw [hListed, List.flatten_nil, List.append_nil]
        rfl

/- What `ls` prints for one entry. -/
def lsLine
    (name : List UInt8) : List UInt8 :=
  text "try to write...\n" ++ (name ++ [newline])

theorem lsLoop_step
    {buf buf' : Ptr}
    {w' : World}
    {name : List UInt8}
    (hRead : ece391Read h fd buf 32 w =
      some ((name.length : Int), buf', w'))
    (hChars : ∀ i < name.length, buf' i = name.getD i 0)
    (hOut : w'.StdoutOpen)
    (hName : name ≠ [])
    (fuel : Nat) :
    lsLoop h fd (fuel + 1) buf w =
      lsLoop h fd fuel
        (Function.update buf' name.length newline)
        ((w'.print (text "try to write...\n")).print
          (name ++ [newline])) := by
  have hPos := List.length_pos_of_ne_nil hName
  have hNotZero : (name.length : Int) ≠ 0 := by omega
  have hNotErr : (name.length : Int) ≠ -1 := by omega
  have hWritten : ((name.length + 1 : Nat) : Int) ≠ -1 := by
    omega
  have hLine : (List.range (name.length + 1)).map
      (Function.update buf' name.length newline) =
        name ++ [newline] := by
    rw [List.range_succ, List.map_append, List.map_singleton,
      Function.update_self]
    congr 1
    apply map_range_of_getD
    intro i hi
    rw [Function.update_of_ne (by omega)]
    exact hChars i hi
  rw [lsLoop, hRead]
  simp only [Option.bind_eq_bind, Option.bind_some,
    hNotZero, hNotErr, if_false, Int.toNat_natCast]
  rw [ece391Fdputs_literal hOut (by decide) (by decide)]
  simp only [Option.bind_some]
  have hWrite := ece391Write_stdout
    (w := w'.print (text "try to write...\n")) hOut
    (Function.update buf' name.length newline)
    (Nat.succ_pos name.length)
  rw [hLine] at hWrite
  rw [show (name.length : Int) + 1 =
    ((name.length + 1 : Nat) : Int) by omega]
  rw [hWrite]
  simp only [Option.bind_some, hWritten, if_false]

theorem lsLoop_stop
    {buf buf' : Ptr}
    {w' : World}
    (hRead : ece391Read h fd buf 32 w =
      some (0, buf', w'))
    (fuel : Nat) :
    lsLoop h fd (fuel + 1) buf w = some (0, w') := by
  rw [lsLoop, hRead]
  simp only [Option.bind_eq_bind, Option.bind_some, if_true]

theorem lsLoop_directory
    (fuel : Nat)
    (buf : Ptr)
    (hLists : w.Lists h.fs fd inode pos)
    (hFuel : h.fs.bootBlock.numDirEntries - pos < fuel) :
    Exits (lsLoop h fd fuel buf w) w 0
      ((h.fs.listed pos).flatMap lsLine) := by
  induction fuel generalizing buf w pos with
  | zero => omega
  | succ fuel ih =>
      rcases hLists.read_cases buf 32 with
        ⟨name, _, hName, hPos, hListed, buf', hChars, hRead⟩ |
        ⟨hListed, buf', pos', hRead⟩
      · have hMoved := hLists.moved (pos + 1)
        rw [lsLoop_step hRead hChars hMoved.stdout hName,
          hListed]
        rcases ih _ ((hMoved.print _).print _) (by omega) with
          ⟨w', hRun, hOut⟩
        refine ⟨w', hRun, ?_⟩
        rw [hOut, World.print_out, World.print_out,
          List.flatMap_cons, lsLine]
        simp only [List.append_assoc]
        rfl
      · refine ⟨_, lsLoop_stop hRead fuel, ?_⟩
        rw [hListed, List.flatMap_nil, List.append_nil]
        rfl

end Loops

end MartianPendulum

------------------------------------------------------------
-- Whole Programs
------------------------------------------------------------

namespace MartianPendulum

/- What `cat` prints of a file. -/
def FileSystem.catText
    (fs : FileSystem)
    (file : Dentry) : List UInt8 :=
  match kindOfType file.type with
  | .rtc => []
  | .dir => (fs.listed 0).flatten
  | .regular => fs.bytesFrom file.nrInode 0

/- The exit status of `cat` and what it prints. -/
def FileSystem.catResult
    (fs : FileSystem)
    (name : List UInt8) : Int × List UInt8 :=
  if name = [] then (3, text "could not read arguments\n")
  else
    match fs.lookup name with
    | none => (2, text "file not found\n")
    | some file => (0, fs.catText file)

def FileSystem.lsResult
    (fs : FileSystem) : Int × List UInt8 :=
  match fs.lookup (text ".") with
  | none => (2, text "directory open failed\n")
  | some _ => (0, (fs.listed 0).flatMap lsLine)

section Programs

variable {h : Host}
variable {w : World}
variable {fd : Int}

/- A read from the clock ends the loop of `cat`. -/
theorem catLoop_rtc
    {file : Dentry}
    (hKind : kindOfType file.type = .rtc)
    (hLow : 2 ≤ fd)
    (hHigh : fd ≤ 7)
    (fuel : Nat)
    (buf : Ptr) :
    Exits (catLoop h fd (fuel + 1) buf
      (w.setEntry fd (freshEntry file))) w 0 [] := by
  have hEntry : (w.setEntry fd (freshEntry file)).table fd =
      freshEntry file :=
    Function.update_self ..
  have hRead := ece391Read_rtc h hLow hHigh
    (by rw [hEntry]; rfl)
    (by rw [hEntry, freshEntry, hKind]; rfl) buf 1024
  refine ⟨_, catLoop_stop hRead fuel, ?_⟩
  rw [List.append_nil]
  rfl

theorem catLoop_opened
    (hFs : h.fs.Readable)
    (hOut : w.StdoutOpen)
    {name : List UInt8}
    {file : Dentry}
    (hFile : h.fs.lookup name = some file)
    (hLow : 2 ≤ fd)
    (hHigh : fd ≤ 7)
    {fuel : Nat}
    (hFuel : maxFiles * blockSize ≤ fuel)
    (buf : Ptr) :
    Exits (catLoop h fd fuel buf
      (w.setEntry fd (freshEntry file))) w 0
      (h.fs.catText file) := by
  rcases (lookup_eq_some_iff h.fs name file).mp hFile with
    ⟨i, hi, rfl, _, _⟩
  unfold FileSystem.catText
  cases hKind : kindOfType (h.fs.bootBlock.files i).type with
  | rtc =>
      obtain ⟨fuel, rfl⟩ : ∃ n, fuel = n + 1 :=
        ⟨fuel - 1, by
          simp only [maxFiles, blockSize] at hFuel
          omega⟩
      exact catLoop_rtc hKind hLow hHigh fuel buf
  | dir =>
      have hLists : (w.setEntry fd
          (freshEntry (h.fs.bootBlock.files i))).Lists h.fs fd
            (h.fs.bootBlock.files i).nrInode 0 := by
        refine ⟨hLow, hHigh, ?_, hOut.setEntry hLow _,
          hFs.count⟩
        simp only [World.setEntry, Function.update_self,
          freshEntry, hKind, FileKind.ops]
      have hCount := hFs.count
      exact catLoop_directory fuel buf hLists (by
        simp only [maxFiles, blockSize] at hFuel hCount
        omega)
  | regular =>
      have hGood := hFs.good i hi (by
        have hType := hFs.type_le i hi
        simp only [kindOfType] at hKind
        split at hKind
        · cases hKind
        · split at hKind
          · cases hKind
          next hDir hRtc =>
              simp only [typeDir, typeUserRtc, typeRegular]
                at hDir hRtc ⊢
              omega)
      have hReads : (w.setEntry fd
          (freshEntry (h.fs.bootBlock.files i))).Reads h.fs fd
            (h.fs.bootBlock.files i).nrInode 0 := by
        refine ⟨hLow, hHigh, ?_, hOut.setEntry hLow _,
          Nat.zero_le _⟩
        simp only [World.setEntry, Function.update_self,
          freshEntry, hKind, FileKind.ops]
      exact catLoop_regular hGood fuel buf hReads
        (by have := hGood.length_lt; omega)

/-
  `cat` prints the file that it was given, whatever it is,
  or says what went wrong, and always ends.
-/
theorem cat_prints_file
    (hFs : h.fs.Readable)
    (hOut : w.StdoutOpen)
    (hFree : w.freeFd = some fd)
    {name : List UInt8}
    (hArgs : Spells h.args name)
    (hShort : name.length < 1024)
    {fuel : Nat}
    (hFuel : maxFiles * blockSize ≤ fuel)
    (buf : Ptr) :
    Exits (cat h fuel buf w) w (h.fs.catResult name).1
      (h.fs.catResult name).2 := by
  unfold cat FileSystem.catResult
  by_cases hEmpty : name = []
  · have hFirst : h.args 0 = 0 := by
      have hNul := hArgs.nul
      rwa [hEmpty] at hNul
    simp only [ece391Getargs, hFirst, hEmpty, if_true]
    exact exits_message hOut (by decide) (by decide) 3
  · rcases ece391Getargs_holds h hArgs hEmpty buf hShort with
      ⟨buf', hGot, hSpells⟩
    have hName : (stringAt buf').chars = name :=
      hSpells.stringAt (by omega)
    rw [show ((1024 : Nat) : Int) = 1024 from rfl] at hGot
    simp only [hGot, hEmpty, if_false, ne_eq,
      not_true_eq_false]
    cases hFile : h.fs.lookup name with
    | none =>
        rw [ece391Open_missing h (by rw [hName]; exact hFile)]
        exact exits_message (w := { w with
          calls := w.calls + 1 }) hOut (by decide)
          (by decide) 2
    | some file =>
        have hRange := World.freeFd_range hFree
        have hType : file.type ≤ 2 := by
          rcases (lookup_eq_some_iff h.fs name file).mp hFile
            with ⟨i, hi, rfl, _, _⟩
          exact hFs.type_le i hi
        rw [ece391Open_eq h (by rw [hName]; exact hFile)
          hType hFree]
        have hNotErr : fd ≠ -1 := by omega
        simp only [hNotErr, if_false]
        exact catLoop_opened hFs hOut hFile hRange.1
          hRange.2 hFuel buf'

/-
  `ls` prints a line for each name, with the text that was
  left in it for debugging before each of them, and misses
  what follows an entry without a name.
-/
theorem ls_prints_names
    (hFs : h.fs.Readable)
    (hDot : ∀ file, h.fs.lookup (text ".") = some file →
      file.type = typeDir)
    (hOut : w.StdoutOpen)
    (hFree : w.freeFd = some fd)
    {fuel : Nat}
    (hFuel : maxFiles < fuel)
    (buf : Ptr) :
    Exits (ls h fuel buf w) w h.fs.lsResult.1
      h.fs.lsResult.2 := by
  have hName : (stringAt (literal ".")).chars = text "." :=
    (spells_literal (by decide)).stringAt (by decide)
  unfold ls FileSystem.lsResult
  cases hFile : h.fs.lookup (text ".") with
  | none =>
      rw [ece391Open_missing h (by rw [hName]; exact hFile)]
      exact exits_message (w := { w with
        calls := w.calls + 1 }) hOut (by decide)
        (by decide) 2
  | some file =>
      have hType := hDot file hFile
      have hRange := World.freeFd_range hFree
      have hNotErr : fd ≠ -1 := by omega
      rw [ece391Open_eq h (by rw [hName]; exact hFile)
        (by rw [hType]; decide) hFree]
      simp only [hNotErr, if_false]
      have hLists : (w.setEntry fd
          (freshEntry file)).Lists h.fs fd
            file.nrInode 0 := by
        refine ⟨hRange.1, hRange.2, ?_,
          hOut.setEntry hRange.1 _, hFs.count⟩
        simp only [World.setEntry, Function.update_self,
          freshEntry, hType, kindOfType, FileKind.ops,
          if_true]
      have hCount := hFs.count
      exact lsLoop_directory fuel buf hLists (by omega)

end Programs

theorem longNameFs_readable :
    longNameFs.Readable :=
  FileSystem.readable_of_one_block rfl rfl rfl rfl
    (by decide) (by decide) (by decide)

/- The directory itself, and a file `log` of two reads. -/
def longFileFs : FileSystem :=
  { bootBlock :=
      { numDirEntries := 2
        numInodes := 2
        numDataBlocks := 1
        files := fun i =>
          if i = 0 then
            { filename := literal "."
              type := typeDir
              nrInode := 0 }
          else
            { filename := literal "log"
              type := typeRegular
              nrInode := 1 } }
    fsBlocks := fun off =>
      -- the length, 1500, of the file
      if off = 8192 then 0xDC
      else if off = 8193 then 0x05
      else if 12288 ≤ off then UInt8.ofNat (off - 12288)
      else 0 }

theorem longFileFs_length :
    longFileFs.inodeLength 1 = 1500 := by
  decide

theorem longFileFs_bytes :
    longFileFs.bytesFrom 1 0 =
      (List.range 1500).map UInt8.ofNat := by
  have hBlock : longFileFs.inodeBlock 1 0 = 0 := by decide
  rw [FileSystem.bytesFrom, longFileFs_length,
    ← List.range_eq_range']
  apply List.map_congr_left
  intro k hk
  have hLow : k < 1500 := List.mem_range.mp hk
  have hOff : k < blockSize := by
    unfold blockSize
    omega
  have hPtr : longFileFs.dataBlkPtr 0 = 12288 := by decide
  have hByte := fileByte_block longFileFs 1 0 hOff
  rw [Nat.zero_mul, Nat.zero_add, hBlock, hPtr] at hByte
  rw [hByte]
  have hAddr :
      u32 ((12288 : Nat) + (k : Nat) : Int) = 12288 + k := by
    rw [← Int.natCast_add]
    exact u32_of_lt (by omega)
  simp only [FileSystem.memAt, longFileFs, hAddr]
  rw [if_neg (by omega), if_neg (by omega),
    if_pos (by omega), Nat.add_sub_cancel_left]

theorem longFileFs_catResult :
    longFileFs.catResult (text "log") =
      (0, (List.range 1500).map UInt8.ofNat) := by
  have hFile : longFileFs.lookup (text "log") =
      some (longFileFs.bootBlock.files 1) := by
    rfl
  have hKind : kindOfType
      (longFileFs.bootBlock.files 1).type = .regular := by
    rfl
  have hInode :
      (longFileFs.bootBlock.files 1).nrInode = 1 := by
    rfl
  rw [FileSystem.catResult, if_neg (by decide), hFile]
  simp only [FileSystem.catText, hKind, hInode,
    longFileFs_bytes]

theorem longFileFs_readable :
    longFileFs.Readable :=
  FileSystem.readable_of_one_block rfl rfl rfl rfl
    (by decide) (by decide) (by decide)

/-
  The names in a directory, one after the other, and the
  bytes of a file, of which the first read gets 1024.
-/
theorem cat_prints_file_samples :
    Exits (cat (sampleHost longNameFs ".") 258048
        (fun _ => 0) startWorld) startWorld 0
        (46 :: List.replicate 32 97) ∧
      Exits (cat (sampleHost longFileFs "log") 258048
        (fun _ => 0) startWorld) startWorld 0
        ((List.range 1500).map UInt8.ofNat) := by
  have hFree : startWorld.freeFd = some 2 := by decide
  have hFuel : maxFiles * blockSize ≤ 258048 := by decide
  have hNames : longNameFs.catResult (text ".") =
      (0, 46 :: List.replicate 32 97) := by
    decide
  have hDirectory : Exits _ startWorld
      (longNameFs.catResult (text ".")).1
      (longNameFs.catResult (text ".")).2 :=
    cat_prints_file (h := sampleHost longNameFs ".")
      (w := startWorld) longNameFs_readable
      ⟨by decide, by decide⟩ hFree
      (spells_literal (s := ".") (by decide)) (by decide)
      hFuel (fun _ => 0)
  have hLog : Exits _ startWorld
      (longFileFs.catResult (text "log")).1
      (longFileFs.catResult (text "log")).2 :=
    cat_prints_file (h := sampleHost longFileFs "log")
      (w := startWorld) longFileFs_readable
      ⟨by decide, by decide⟩ hFree
      (spells_literal (s := "log") (by decide)) (by decide)
      hFuel (fun _ => 0)
  rw [hNames] at hDirectory
  rw [longFileFs_catResult] at hLog
  dsimp only at hDirectory hLog
  exact ⟨hDirectory, hLog⟩

theorem ls_prints_names_longNameFs :
    Exits (ls (sampleHost longNameFs ".") 64
      (fun _ => 0) startWorld) startWorld 0
      (lsLine [46] ++ lsLine (List.replicate 32 97)) := by
  have hResult : longNameFs.lsResult =
      (0, lsLine [46] ++ lsLine (List.replicate 32 97)) := by
    decide
  have hDot : ∀ file,
      longNameFs.lookup (text ".") = some file →
        file.type = typeDir := by
    intro file hFile
    rw [show longNameFs.lookup (text ".") =
      some (longNameFs.bootBlock.files 0) by rfl] at hFile
    cases hFile
    rfl
  have hLs := ls_prints_names
    (h := sampleHost longNameFs ".") (w := startWorld)
    longNameFs_readable hDot ⟨by decide, by decide⟩
    (show startWorld.freeFd = some 2 by decide)
    (show maxFiles < 64 by decide) (fun _ => 0)
  exact (congrArg (fun r => Exits _ startWorld r.1 r.2)
    hResult).mp hLs

end MartianPendulum
