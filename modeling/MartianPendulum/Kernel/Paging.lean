import Mathlib.Data.BitVec
import Mathlib.Logic.Function.Basic

/-
  The page directory and the two page tables of `paging.c`,
  and the two-level walk that the processor makes over them.

  Key definitions include:
    * `PageDirEntry`
    * `PageTableEntry`
    * `PageTables`
    * `PageTables.walk`
    * `initPageDir`
    * `pagingInit`
    * `PageTables.setupPaging`
    * `PageTables.switchUsrmap`
-/

------------------------------------------------------------
-- Address Constants
------------------------------------------------------------

namespace MartianPendulum

/- `_4K`, `_8K`, `_4M`, `_8M` and `_128M` -/
def size4K : Nat := 4096
def size8K : Nat := size4K * 2
def size4M : Nat := size4K * 1024
def size8M : Nat := size4M * 2
def size128M : Nat := size8M * 16

/- The constants as literals, for arithmetic. -/
theorem size4K_eq : size4K = 4096 := by decide
theorem size4M_eq : size4M = 4194304 := by decide
theorem size8M_eq : size8M = 8388608 := by decide
theorem size128M_eq : size128M = 134217728 := by decide

/- `VIDEO_START` -/
def videoStart : Nat := 0xB8000

/- `FISH_MAP` -/
def fishMap : Nat := 0x84b8000

/- `VIDEO_START >> 12` -/
def videoPage : Nat := videoStart / size4K

theorem videoStart_eq : videoStart = 753664 := by decide
theorem fishMap_eq : fishMap = 139165696 := by decide
theorem videoPage_eq : videoPage = 184 := by decide

/- `NUM_PAGE_TABLE_DESC` and `NUM_PAGE_DESC` -/
def numPageTableDesc : Nat := 1024
def numPageDesc : Nat := 1024

theorem numPageDesc_eq : numPageDesc = 1024 := by decide

end MartianPendulum

------------------------------------------------------------
-- Entries
------------------------------------------------------------

namespace MartianPendulum

/- The page tables that a directory entry may point to. -/
inductive PageTableName where
| usrPageTable
| usrmapPageTable
deriving DecidableEq

/-
  `page_dir_entry_4MB_t`.  The page size bit tells the two
  views of the union apart, and each view fixes it.
-/
structure PageDirEntry4MB where
  present : BitVec 1
  rW : BitVec 1
  userSuper : BitVec 1
  writeThrough : BitVec 1
  cacheDisable : BitVec 1
  accessed : BitVec 1
  dirty : BitVec 1
  pageSize : BitVec 1
  global : BitVec 1
  avail : BitVec 3
  pgAttri : BitVec 1
  addr0 : BitVec 8
  reserved : BitVec 1
  pgAddr : BitVec 10
  pageSize_eq : pageSize = 1

/-
  `page_dir_entry_4KB_t`.  The table address is the name of
  the table.
-/
structure PageDirEntry4KB where
  present : BitVec 1
  rW : BitVec 1
  userSuper : BitVec 1
  writeThrough : BitVec 1
  cacheDisable : BitVec 1
  accessed : BitVec 1
  avail0 : BitVec 1
  pageSize : BitVec 1
  avail1 : BitVec 4
  pageTableBase : PageTableName
  pageSize_eq : pageSize = 0

/- `page_dir_entry_u` -/
inductive PageDirEntry where
| userPageTableDesc (e : PageDirEntry4KB)
| kernelPageDesc (e : PageDirEntry4MB)

/- `page_table_entry_t` -/
structure PageTableEntry where
  present : BitVec 1
  rW : BitVec 1
  usrSuper : BitVec 1
  writeThrough : BitVec 1
  cacheDisable : BitVec 1
  accessed : BitVec 1
  dirty : BitVec 1
  pgAttri : BitVec 1
  global : BitVec 1
  avail : BitVec 3
  pgAddr : BitVec 20

/- The three tables of `paging.h`. -/
structure PageTables where
  pageDirBase : Nat → PageDirEntry
  usrPageTableBase : Nat → PageTableEntry
  usrmapPageTableBase : Nat → PageTableEntry

end MartianPendulum

------------------------------------------------------------
-- The Page Walk
------------------------------------------------------------

namespace MartianPendulum

namespace PageTables

def table
    (pt : PageTables) :
    PageTableName → Nat → PageTableEntry
| .usrPageTable => pt.usrPageTableBase
| .usrmapPageTable => pt.usrmapPageTableBase

/-
  The physical address of a 32-bit virtual address: bits 31
  to 22 select the directory entry, bits 21 to 12 the table
  entry.
-/
def walk
    (pt : PageTables)
    (v : Nat) : Option Nat :=
  match pt.pageDirBase (v / size4M) with
  | .kernelPageDesc e =>
      if e.present = 1 then
        some (e.pgAddr.toNat * size4M + v % size4M)
      else none
  | .userPageTableDesc e =>
      if e.present = 1 then
        let pte :=
          pt.table e.pageTableBase
            (v / size4K % numPageDesc)
        if pte.present = 1 then
          some (pte.pgAddr.toNat * size4K + v % size4K)
        else none
      else none

end PageTables

end MartianPendulum

------------------------------------------------------------
-- Initialisation
------------------------------------------------------------

namespace MartianPendulum

/- A 4MB entry as `init_page_dir` and the loader build it. -/
def pageDirEntry4MB
    (present dirty : BitVec 1)
    (pgAddr : BitVec 10) : PageDirEntry :=
  .kernelPageDesc
    { present := present
      rW := 1
      userSuper := 1
      writeThrough := 0
      cacheDisable := 0
      accessed := 0
      dirty := dirty
      pageSize := 1
      global := 0
      avail := 0
      pgAttri := 0
      addr0 := 0
      reserved := 0
      pgAddr := pgAddr
      pageSize_eq := rfl }

/- A 4KB entry for one of the page tables. -/
def pageDirEntry4KB
    (base : PageTableName) : PageDirEntry :=
  .userPageTableDesc
    { present := 1
      rW := 1
      userSuper := 1
      writeThrough := 0
      cacheDisable := 0
      accessed := 0
      avail0 := 0
      pageSize := 0
      avail1 := 0
      pageTableBase := base
      pageSize_eq := rfl }

/- The loop over the other 1022 directory entries. -/
def initOtherPageDir
    (dir : Nat → PageDirEntry) :
    Nat → PageDirEntry :=
  (List.range' 2 (numPageTableDesc - 2)).foldl
    (fun dir i =>
      if i = 132 / 4 then dir
      else
        Function.update dir i
          (pageDirEntry4MB 0 0 (BitVec.ofNat 10 i)))
    dir

/- `init_page_dir` -/
def initPageDir
    (dir : Nat → PageDirEntry) :
    Nat → PageDirEntry :=
  let dir := Function.update dir 0
    (pageDirEntry4KB .usrPageTable)
  let dir := Function.update dir 1 (pageDirEntry4MB 1 1 1)
  let dir := Function.update dir (132 / 4)
    (pageDirEntry4KB .usrmapPageTable)
  initOtherPageDir dir

/- A table entry as the source builds it. -/
def pageTableEntry
    (present global : BitVec 1)
    (pgAddr : BitVec 20) : PageTableEntry :=
  { present := present
    rW := 1
    usrSuper := 1
    writeThrough := 0
    cacheDisable := 0
    accessed := 0
    dirty := 0
    pgAttri := 0
    global := global
    avail := 0
    pgAddr := pgAddr }

/- The first loop of `init_user_page_table`. -/
def initUsrPageTable
    (table : Nat → PageTableEntry) :
    Nat → PageTableEntry :=
  (List.range numPageDesc).foldl
    (fun table i =>
      Function.update table i
        (pageTableEntry
          (if i = videoPage ∨ i = videoPage + 1 ∨
              i = videoPage + 2 ∨ i = videoPage + 3 then 1
            else 0)
          0 (BitVec.ofNat 20 i)))
    table

/- The second loop of `init_user_page_table`. -/
def initUsrmapPageTable
    (table : Nat → PageTableEntry) :
    Nat → PageTableEntry :=
  (List.range numPageDesc).foldl
    (fun table i =>
      Function.update table i
        (pageTableEntry (if i = videoPage then 1 else 0)
          0 (BitVec.ofNat 20 i)))
    table

/- `paging_init`, on the tables as the loader left them. -/
def pagingInit
    (pt : PageTables) : PageTables :=
  { pageDirBase := initPageDir pt.pageDirBase
    usrPageTableBase := initUsrPageTable pt.usrPageTableBase
    usrmapPageTableBase :=
      initUsrmapPageTable pt.usrmapPageTableBase }

end MartianPendulum

------------------------------------------------------------
-- Updates
------------------------------------------------------------

namespace MartianPendulum

namespace PageTables

/-
  `setup_paging_and_flush_tlb`.  The walk reads the tables,
  so a flush has nothing to do.
-/
def setupPaging
    (pid : Int)
    (pt : PageTables) : PageTables :=
  { pt with
    pageDirBase :=
      Function.update pt.pageDirBase (128 / 4)
        (pageDirEntry4MB 1 0 (BitVec.ofInt 10 (pid + 2))) }

/- `switch_usrmap` -/
def switchUsrmap
    (index : Nat)
    (present : BitVec 1)
    (pt : PageTables) : PageTables :=
  { pt with
    usrmapPageTableBase :=
      Function.update pt.usrmapPageTableBase videoPage
        (pageTableEntry present present
          (BitVec.ofNat 20 index)) }

end PageTables

end MartianPendulum
