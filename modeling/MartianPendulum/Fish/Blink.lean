import MartianPendulum.Logic.LinkedList
import MartianPendulum.Logic.Run
import Mathlib.Order.Fin.Basic

/-
  The blinking characters of the fish program: the calls of
  `blink.S` and the allocator of `fish.c`.

  The nodes are the slots of `blink_array`, linked from
  `mp1_list_head`; a slot at location 0 counts as free.  A
  loop over the list has fuel for one visit of each slot; a
  call that needs more does not return, and its result is
  `none`.

  Key definitions include:
    * `BlinkNode`
    * `Blink`
    * `Blink.rtcTasklet`
    * `Blink.ioctlAdd`
    * `Blink.ioctlRemove`
    * `Blink.ioctlSync`
    * `Blink.call`
-/

------------------------------------------------------------
-- Nodes
------------------------------------------------------------

namespace MartianPendulum

/- The number of slots of `blink_array`, `80*25`. -/
def numSlots : Nat := 80 * 25

/- The slots of `blink_array`; a pointer may be `NULL`. -/
abbrev Slot := Fin numSlots

def firstSlot : Slot := ⟨0, by decide⟩
def secondSlot : Slot := ⟨1, by decide⟩

/- `struct mp1_blink_struct` -/
structure BlinkNode where
  location : UInt16
  onChar : UInt8
  offChar : UInt8
  onLength : UInt16
  offLength : UInt16
  countdown : UInt16
  status : UInt16
  next : Option Slot
deriving DecidableEq

/- The bytes of a slot that `ece391_memset` has cleared. -/
def BlinkNode.zero : BlinkNode :=
  { location := 0
    onChar := 0
    offChar := 0
    onLength := 0
    offLength := 0
    countdown := 0
    status := 0
    next := none }

/-
  The structure a caller of `add` passes: the fields that
  are not overwritten before they are used.
-/
structure BlinkArg where
  location : UInt16
  onChar : UInt8
  offChar : UInt8
  onLength : UInt16
  offLength : UInt16

/-
  `blink_array`, `mp1_list_head`, and the video memory by
  the offset from `vmem_base_addr`.
-/
structure Blink where
  slots : Slot → BlinkNode
  listHead : Option Slot
  vmem : Nat → UInt8

namespace Blink

/- The state at the start of `main`. -/
def init
    (vmem : Nat → UInt8) : Blink :=
  { slots := fun _ => BlinkNode.zero
    listHead := none
    vmem := vmem }

/- The links between the slots. -/
def next
    (s : Blink)
    (i : Slot) : Option Slot :=
  (s.slots i).next

/- A slot overwritten. -/
def setSlot
    (s : Blink)
    (i : Slot)
    (n : BlinkNode) : Blink :=
  { s with slots := Function.update s.slots i n }

/- `mp1_poke`; the offset is the location shifted by one. -/
def poke
    (s : Blink)
    (location : UInt16)
    (c : UInt8) : Blink :=
  { s with
    vmem := Function.update s.vmem (location.toNat <<< 1) c }

/- `mp1_malloc`: the first slot at location 0. -/
def malloc
    (s : Blink) : Option Slot :=
  Fin.find? (fun i => (s.slots i).location = 0)

/- `mp1_free` -/
def free
    (s : Blink)
    (i : Slot) : Blink :=
  s.setSlot i BlinkNode.zero

end Blink

end MartianPendulum

------------------------------------------------------------
-- Loops over the List
------------------------------------------------------------

namespace MartianPendulum

namespace Blink

/- A list that ends visits each slot once at most. -/
def listFuel : Nat := numSlots + 1

/- `loop` of `mp1_find_helper` -/
def findHelperLoop
    (s : Blink)
    (ax : UInt16) :
    Nat → Option Slot → Option (Option Slot)
| 0, _ => none
| _ + 1, none => some none
| fuel + 1, some i =>
    if (s.slots i).location = ax then some (some i)
    else s.findHelperLoop ax fuel (s.slots i).next

/- `mp1_find_helper`; the argument is cut to 16 bits. -/
def findHelper
    (s : Blink)
    (arg : UInt32) : Option (Option Slot) :=
  s.findHelperLoop arg.toUInt16 listFuel s.listHead

/-
  One node of `tasklet_loop`.  The test of the countdown is
  signed.
-/
def tick
    (s : Blink)
    (i : Slot) : Blink :=
  let countdown := (s.slots i).countdown - 1
  let n := { s.slots i with countdown := countdown }
  if 0 < countdown.toBitVec.toInt then s.setSlot i n
  else if n.status &&& 1 = 0 then
    (s.poke n.location n.onChar).setSlot i
      { n with
        countdown := n.onLength
        status := n.status ^^^ 1 }
  else
    (s.poke n.location n.offChar).setSlot i
      { n with
        countdown := n.offLength
        status := n.status ^^^ 1 }

/- `tasklet_loop` -/
def taskletLoop :
    Nat → Option Slot → Blink → Option Blink
| 0, _, _ => none
| _ + 1, none, s => some s
| fuel + 1, some i, s =>
    taskletLoop fuel ((s.tick i).slots i).next (s.tick i)

/- `mp1_rtc_tasklet` -/
def rtcTasklet
    (s : Blink) : Option Blink :=
  taskletLoop listFuel s.listHead s

/- The places that hold a pointer into the list. -/
inductive Link where
| head
| next (i : Slot)

/- The pointer that a link holds. -/
def load
    (s : Blink) :
    Link → Option Slot
| .head => s.listHead
| .next i => (s.slots i).next

def store
    (s : Blink)
    (q : Option Slot) :
    Link → Blink
| .head => { s with listHead := q }
| .next i => s.setSlot i { s.slots i with next := q }

/-
  `remove_find_prev`.  Past the end of the list the code
  would read through `NULL`.
-/
def removeFindPrev
    (s : Blink)
    (i : Slot) :
    Nat → Link → Option Link
| 0, _ => none
| fuel + 1, edx =>
    if s.load edx = some i then some edx
    else
      match s.load edx with
      | none => none
      | some j => s.removeFindPrev i fuel (.next j)

end Blink

end MartianPendulum

------------------------------------------------------------
-- Calls
------------------------------------------------------------

namespace MartianPendulum

/-
  The calls of `mp1_ioctl`, and of the tasklet.  The
  argument of `add` and `find` is a pointer.
-/
inductive BlinkCall where
| add (arg : BlinkArg)
| remove (arg : UInt32)
| find (location : UInt16)
| sync (arg : UInt32)
| tasklet

namespace Blink

/- The node of `mp1_ioctl_add`, on at first. -/
def addNode
    (s : Blink)
    (arg : BlinkArg) : BlinkNode :=
  { location := arg.location
    onChar := arg.onChar
    offChar := arg.offChar
    onLength := arg.onLength
    offLength := arg.offLength
    countdown := arg.onLength
    status := 1
    next := s.listHead }

/- The insertion and the display of `mp1_ioctl_add`. -/
def insertFront
    (s : Blink)
    (arg : BlinkArg)
    (i : Slot) : Blink :=
  let n := s.addNode arg
  let s := { s.setSlot i n with listHead := some i }
  s.poke n.location n.onChar

/-
  `mp1_ioctl_add`; `ece391_memcpy` returns 0 always, so that
  the copy is never seen to fail.
-/
def ioctlAdd
    (s : Blink)
    (arg : BlinkArg) : Int × Blink :=
  if arg.location.toNat ≥ 80 * 25 then (-1, s)
  else
    match s.malloc with
    | none => (-1, s)
    | some i => (0, s.insertFront arg i)

/- `mp1_ioctl_remove` -/
def ioctlRemove
    (s : Blink)
    (arg : UInt32) : Option (Int × Blink) :=
  match s.findHelper arg with
  | none => none
  | some none => some (-1, s)
  | some (some i) =>
      match s.removeFindPrev i listFuel .head with
      | none => none
      | some edx =>
          some (0, (s.store (s.slots i).next edx).free i)

/-
  The character that `sync` shows.  `testb` clears OF and
  sets SF to the top bit of the conjunction; `cmovl` moves
  if the two differ.
-/
def syncChar
    (n : BlinkNode) : UInt8 :=
  let sf := (n.status.toUInt8 &&& 1).toBitVec.msb
  let of := false
  if sf ≠ of then n.onChar else n.offChar

/- The fields that `mp1_ioctl_sync` copies. -/
def syncNode
    (s : Blink)
    (i j : Slot) : BlinkNode :=
  { s.slots j with
    onLength := (s.slots i).onLength
    offLength := (s.slots i).offLength
    countdown := (s.slots i).countdown
    status := (s.slots i).status }

/- The copy and the display of `mp1_ioctl_sync`. -/
def syncCopy
    (s : Blink)
    (i j : Slot) : Blink :=
  let n := s.syncNode i j
  (s.setSlot j n).poke n.location (syncChar n)

/- `mp1_ioctl_sync` -/
def ioctlSync
    (s : Blink)
    (arg : UInt32) : Option (Int × Blink) :=
  match s.findHelper (arg >>> 16) with
  | none => none
  | some none => some (-1, s)
  | some (some i) =>
      match s.findHelper (arg &&& 0xFFFF) with
      | none => none
      | some none => some (-1, s)
      | some (some j) => some (0, s.syncCopy i j)

/-
  `mp1_ioctl_find`: the value and the node that is copied to
  the caller.
-/
def ioctlFind
    (s : Blink)
    (location : UInt16) :
    Option (Int × Option BlinkNode) :=
  match s.findHelper location.toUInt32 with
  | none => none
  | some none => some (-1, none)
  | some (some i) => some (0, some (s.slots i))

/- `mp1_ioctl` and `mp1_rtc_tasklet` -/
def call
    (s : Blink) :
    BlinkCall → Option (Int × Blink)
| .add arg => some (s.ioctlAdd arg)
| .remove arg => s.ioctlRemove arg
| .find location =>
    (s.ioctlFind location).map (fun r => (r.1, s))
| .sync arg => s.ioctlSync arg
| .tasklet => s.rtcTasklet.map (fun s => (0, s))

/- A call after which the state is known if it returns. -/
def step
    (o : Option Blink)
    (e : BlinkCall) : Option Blink :=
  o.bind (fun s => (s.call e).map Prod.snd)

/- The state after a sequence of calls. -/
def after
    (vmem : Nat → UInt8)
    (es : List BlinkCall) : Option Blink :=
  Logic.run step (some (init vmem)) es

end Blink

end MartianPendulum
