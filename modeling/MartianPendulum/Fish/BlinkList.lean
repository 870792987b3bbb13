import MartianPendulum.Fish.Blink
import MartianPendulum.Logic.Loop
import Mathlib.Data.Fintype.Card

/-
  The list of blinking characters.

  A slot is free when its location is 0, and `add` accepts
  that location.  The list stays well formed as long as the
  allocator does not choose a listed slot, and a listed slot
  that it chooses closes a cycle.

  Key definitions include:
    * `Blink.IsList`
    * `Blink.KeepsList`
    * `Blink.AddsFresh`

  Key theorems include:
    * `Blink.findHelper_eq`
    * `Blink.rtcTasklet_eq`
    * `Blink.rtcTasklet_returns_iff`
    * `Blink.removeFindPrev_eq`
    * `Blink.keepsList_iff`
    * `blink_list_kept_iff`
-/

------------------------------------------------------------
-- Lists
------------------------------------------------------------

namespace MartianPendulum

namespace Blink

/- Following `next` from the head visits the slots of `l`. -/
def IsList
    (s : Blink)
    (l : List Slot) : Prop :=
  Logic.Linked s.next s.listHead l

/- The slot is reached from the head. -/
def Listed
    (s : Blink)
    (i : Slot) : Prop :=
  Logic.Reaches s.next s.listHead i

/- The same slots in the same order, at the same places. -/
structure SameList
    (s s' : Blink) : Prop where
  listHead : s'.listHead = s.listHead
  next : s'.next = s.next
  location :
    ∀ i, (s'.slots i).location = (s.slots i).location

@[simp] theorem setSlot_next
    (s : Blink)
    (i : Slot)
    (n : BlinkNode) :
    (s.setSlot i n).next =
      Function.update s.next i n.next := by
  funext j
  simp only [next, setSlot]
  by_cases hj : j = i
  · subst hj
    rw [Function.update_self, Function.update_self]
  · rw [Function.update_of_ne hj, Function.update_of_ne hj]
    rfl

theorem SameList.refl
    (s : Blink) :
    SameList s s :=
  ⟨rfl, rfl, fun _ => rfl⟩

theorem SameList.trans
    {s s' s'' : Blink}
    (hFirst : SameList s s')
    (hSecond : SameList s' s'') :
    SameList s s'' :=
  ⟨hSecond.listHead.trans hFirst.listHead,
    hSecond.next.trans hFirst.next,
    fun i => (hSecond.location i).trans (hFirst.location i)⟩

/- A slot overwritten with the same place and link. -/
theorem SameList.setSlot
    (s : Blink)
    {i : Slot}
    {n : BlinkNode}
    (hNext : n.next = (s.slots i).next)
    (hLocation : n.location = (s.slots i).location) :
    SameList s (s.setSlot i n) := by
  refine ⟨rfl, ?_, ?_⟩
  · rw [setSlot_next, hNext]
    exact Function.update_eq_self i s.next
  · intro j
    simp only [Blink.setSlot]
    by_cases hj : j = i
    · subst hj
      rw [Function.update_self, hLocation]
    · rw [Function.update_of_ne hj]

theorem SameList.poke
    (s : Blink)
    (location : UInt16)
    (c : UInt8) :
    SameList s (s.poke location c) :=
  ⟨rfl, rfl, fun _ => rfl⟩

theorem SameList.isList_iff
    {s s' : Blink}
    (hSame : SameList s s')
    (l : List Slot) :
    s'.IsList l ↔ s.IsList l := by
  unfold IsList
  rw [hSame.listHead, hSame.next]

namespace IsList

variable {s : Blink}
variable {l : List Slot}

theorem listed_iff
    (hList : s.IsList l)
    (i : Slot) :
    s.Listed i ↔ i ∈ l :=
  Logic.Linked.reaches_iff hList i

/- The fuel covers every list. -/
theorem length_lt
    (hList : s.IsList l) :
    l.length < listFuel := by
  have hCard := (Logic.Linked.nodup hList).length_le_card
  rw [Fintype.card_fin] at hCard
  exact Nat.lt_succ_of_le hCard

end IsList

end Blink

end MartianPendulum

------------------------------------------------------------
-- The Loops
------------------------------------------------------------

namespace MartianPendulum

namespace Blink

variable {s : Blink}
variable {l : List Slot}

/- The loop finds the first node at the location. -/
theorem findHelperLoop_eq
    {p : Option Slot}
    (hLinked : Logic.Linked s.next p l)
    (ax : UInt16)
    {fuel : Nat}
    (hFuel : l.length < fuel) :
    s.findHelperLoop ax fuel p =
      some (l.find?
        (fun i => (s.slots i).location = ax)) := by
  induction l generalizing p fuel with
  | nil =>
      rw [Logic.linked_nil] at hLinked
      subst hLinked
      cases fuel with
      | zero => simp at hFuel
      | succ fuel => rfl
  | cons i l ih =>
      rw [Logic.linked_cons] at hLinked
      rcases hLinked with ⟨rfl, hRest⟩
      cases fuel with
      | zero => simp at hFuel
      | succ fuel =>
          rw [List.length_cons] at hFuel
          rw [findHelperLoop, List.find?_cons]
          by_cases hHere : (s.slots i).location = ax
          · simp [hHere]
          · simp only [hHere, if_false, decide_false]
            exact ih hRest (by omega)

theorem findHelper_eq
    (hList : s.IsList l)
    (arg : UInt32) :
    s.findHelper arg =
      some (l.find? (fun i =>
        (s.slots i).location = arg.toUInt16)) :=
  findHelperLoop_eq hList _ hList.length_lt

/- A tick changes neither the places nor the links. -/
theorem tick_sameList
    (s : Blink)
    (i : Slot) :
    SameList s (s.tick i) := by
  simp only [tick]
  split
  · exact SameList.setSlot s rfl rfl
  · split
    · exact (SameList.poke s _ _).trans
        (SameList.setSlot _ rfl rfl)
    · exact (SameList.poke s _ _).trans
        (SameList.setSlot _ rfl rfl)

/- The tasklet ticks the nodes in the order of the list. -/
theorem taskletLoop_eq
    {p : Option Slot}
    (hLinked : Logic.Linked s.next p l)
    {fuel : Nat}
    (hFuel : l.length < fuel) :
    taskletLoop fuel p s = some (l.foldl tick s) := by
  induction l generalizing p fuel s with
  | nil =>
      rw [Logic.linked_nil] at hLinked
      subst hLinked
      cases fuel with
      | zero => simp at hFuel
      | succ fuel => rfl
  | cons i l ih =>
      rw [Logic.linked_cons] at hLinked
      rcases hLinked with ⟨rfl, hRest⟩
      cases fuel with
      | zero => simp at hFuel
      | succ fuel =>
          rw [List.length_cons] at hFuel
          have hNext := (tick_sameList s i).next
          rw [← hNext] at hRest
          exact ih hRest (by omega)

theorem rtcTasklet_eq
    (hList : s.IsList l) :
    s.rtcTasklet = some (l.foldl tick s) :=
  taskletLoop_eq hList hList.length_lt

/- A tasklet that ends, after any number of nodes, had a list. -/
theorem exists_linked_of_taskletLoop
    {fuel : Nat}
    {p : Option Slot}
    {s' : Blink}
    (hLoop : taskletLoop fuel p s = some s') :
    ∃ l, Logic.Linked s.next p l := by
  induction fuel generalizing p s with
  | zero => simp [taskletLoop] at hLoop
  | succ fuel ih =>
      cases p with
      | none => exact ⟨[], rfl⟩
      | some i =>
          rcases ih hLoop with ⟨l, hRest⟩
          have hSame := tick_sameList s i
          have hNext : ((s.tick i).slots i).next = s.next i :=
            congrFun hSame.next i
          rw [hSame.next, hNext] at hRest
          exact ⟨i :: l, Logic.linked_cons.mpr ⟨rfl, hRest⟩⟩

/-
  The fuel of the tasklet is enough: it returns if it would
  return after any number of nodes.
-/
theorem rtcTasklet_returns_iff
    (s : Blink) :
    (∃ s', s.rtcTasklet = some s') ↔
      ∃ fuel s', taskletLoop fuel s.listHead s = some s' := by
  constructor
  · rintro ⟨s', hReturn⟩
    exact ⟨listFuel, s', hReturn⟩
  · rintro ⟨fuel, s', hLoop⟩
    rcases exists_linked_of_taskletLoop hLoop with
      ⟨l, hLinked⟩
    have hList : s.IsList l := hLinked
    exact ⟨_, rtcTasklet_eq hList⟩

theorem foldl_tick_sameList
    (s : Blink)
    (l : List Slot) :
    SameList s (l.foldl tick s) :=
  (Logic.foldl_preserves (I := fun _ => True)
    SameList.refl (fun _ _ _ => SameList.trans)
    (fun s i _ _ => ⟨tick_sameList s i, trivial⟩)
    trivial).1

/- The link to the element after `l`. -/
def lastLink
    (edx : Link)
    (l : List Slot) : Link :=
  l.foldl (fun _ j => .next j) edx

/- The search stops at the link that holds the node. -/
theorem removeFindPrev_eq
    {i : Slot}
    {l₁ l₂ : List Slot}
    {edx : Link}
    (hLinked :
      Logic.Linked s.next (s.load edx) (l₁ ++ i :: l₂))
    {fuel : Nat}
    (hFuel : l₁.length < fuel) :
    s.removeFindPrev i fuel edx = some (lastLink edx l₁) := by
  induction l₁ generalizing edx fuel with
  | nil =>
      cases fuel with
      | zero => simp at hFuel
      | succ fuel =>
          rw [List.nil_append, Logic.linked_cons] at hLinked
          simp [removeFindPrev, hLinked.1, lastLink]
  | cons j l₁ ih =>
      cases fuel with
      | zero => simp at hFuel
      | succ fuel =>
          have hNodup := hLinked.nodup
          rw [List.cons_append, Logic.linked_cons] at hLinked
          have hNe : j ≠ i := by
            rintro rfl
            simp at hNodup
          rw [List.length_cons] at hFuel
          have hRest := @ih (.next j) hLinked.2 fuel
            (by omega)
          simp only [removeFindPrev, hLinked.1,
            Option.some.injEq, hNe, if_false]
          exact hRest

end Blink

end MartianPendulum

------------------------------------------------------------
-- The Calls
------------------------------------------------------------

namespace MartianPendulum

namespace Blink

variable {s : Blink}
variable {l : List Slot}

theorem malloc_eq_some_iff
    {i : Slot} :
    s.malloc = some i ↔
      (s.slots i).location = 0 ∧
        ∀ j, j < i → (s.slots j).location ≠ 0 := by
  unfold malloc
  rw [Fin.find?_eq_some_iff]
  simp

theorem malloc_eq_first
    (hZero : (s.slots firstSlot).location = 0) :
    s.malloc = some firstSlot := by
  rw [malloc_eq_some_iff]
  refine ⟨hZero, ?_⟩
  intro j hj
  exact absurd hj (Nat.not_lt_zero j.val)

theorem malloc_eq_none_iff :
    s.malloc = none ↔ ∀ i, (s.slots i).location ≠ 0 := by
  unfold malloc
  rw [Fin.find?_eq_none_iff]
  simp

theorem insertFront_next
    (s : Blink)
    (arg : BlinkArg)
    (i : Slot) :
    (s.insertFront arg i).next =
      Function.update s.next i s.listHead :=
  setSlot_next s i _

/- An `add` fails or inserts the slot that is allocated. -/
theorem ioctlAdd_cases
    (s : Blink)
    (arg : BlinkArg) :
    s.ioctlAdd arg = (-1, s) ∧
        (arg.location.toNat < 80 * 25 → s.malloc = none) ∨
      ∃ i, arg.location.toNat < 80 * 25 ∧
        s.malloc = some i ∧
        s.ioctlAdd arg = (0, s.insertFront arg i) := by
  unfold ioctlAdd
  split
  next hRange =>
    left
    exact ⟨rfl, fun hLt => absurd hLt (by omega)⟩
  next hRange =>
    cases hMalloc : s.malloc with
    | none =>
        left
        exact ⟨rfl, fun _ => rfl⟩
    | some i =>
        right
        exact ⟨i, by omega, rfl, rfl⟩

/- A fresh slot goes to the front. -/
theorem insertFront_isList
    (hList : s.IsList l)
    (arg : BlinkArg)
    {i : Slot}
    (hFresh : i ∉ l) :
    (s.insertFront arg i).IsList (i :: l) := by
  unfold IsList
  rw [insertFront_next]
  exact Logic.Linked.push hList hFresh

/- A listed slot closes a cycle. -/
theorem insertFront_cycle
    (hList : s.IsList l)
    (arg : BlinkArg)
    {i : Slot}
    (hMem : i ∈ l)
    (l' : List Slot) :
    ¬ (s.insertFront arg i).IsList l' := by
  unfold IsList
  rw [insertFront_next]
  exact Logic.Linked.push_cycle hList hMem l'

/- The node after `l₁` is unlinked and freed. -/
theorem store_free_isList
    {i : Slot}
    {l₁ l₂ : List Slot}
    (hList : s.IsList (l₁ ++ i :: l₂)) :
    ((s.store (s.slots i).next
      (lastLink .head l₁)).free i).IsList (l₁ ++ l₂) := by
  rcases List.eq_nil_or_concat l₁ with rfl | ⟨l₀, j, rfl⟩
  · have hHead : s.listHead = some i :=
      (Logic.linked_cons.mp hList).1
    have hLinked : Logic.Linked s.next (some i)
        (i :: l₂) := by
      rw [← hHead]
      exact hList
    unfold IsList free
    rw [setSlot_next]
    exact hLinked.unlink_head
  · rw [List.concat_eq_append] at hList ⊢
    rw [List.append_assoc, List.singleton_append] at hList
    have hLast : lastLink .head (l₀ ++ [j]) = .next j := by
      simp [lastLink]
    rw [hLast, List.append_assoc, List.singleton_append]
    unfold IsList free
    rw [store, setSlot_next, setSlot_next]
    exact Logic.Linked.unlink_next hList

/- A `remove` fails, or unlinks and frees the node found. -/
theorem ioctlRemove_cases
    (hList : s.IsList l)
    (arg : UInt32) :
    s.ioctlRemove arg = some (-1, s) ∨
      ∃ l₁ i l₂, l = l₁ ++ i :: l₂ ∧
        (s.slots i).location = arg.toUInt16 ∧
        s.ioctlRemove arg = some (0,
          (s.store (s.slots i).next
            (lastLink .head l₁)).free i) := by
  unfold ioctlRemove
  rw [findHelper_eq hList]
  cases hFind : l.find? (fun i =>
      (s.slots i).location = arg.toUInt16) with
  | none =>
      left
      rfl
  | some i =>
      right
      rcases List.append_of_mem
        (List.mem_of_find?_eq_some hFind) with ⟨l₁, l₂, rfl⟩
      have hLength := hList.length_lt
      rw [List.length_append] at hLength
      have hLinked : Logic.Linked s.next (s.load .head)
          (l₁ ++ i :: l₂) := hList
      have hPrev :=
        @removeFindPrev_eq s i l₁ l₂ .head hLinked listFuel
          (by omega)
      refine ⟨l₁, i, l₂, rfl, ?_, ?_⟩
      · simpa using List.find?_some hFind
      · simp only [hPrev]

theorem syncCopy_sameList
    (s : Blink)
    (i j : Slot) :
    SameList s (s.syncCopy i j) := by
  refine SameList.trans ?_ (SameList.poke _ _ _)
  exact SameList.setSlot s rfl rfl

/- A `sync` fails or copies between the nodes found. -/
theorem ioctlSync_cases
    (hList : s.IsList l)
    (arg : UInt32) :
    s.ioctlSync arg = some (-1, s) ∨
      ∃ i ∈ l, ∃ j ∈ l,
        (s.slots i).location = (arg >>> 16).toUInt16 ∧
        (s.slots j).location =
          (arg &&& 0xFFFF).toUInt16 ∧
        s.ioctlSync arg = some (0, s.syncCopy i j) := by
  unfold ioctlSync
  rw [findHelper_eq hList, findHelper_eq hList]
  cases hFirst : l.find? (fun i =>
      (s.slots i).location = (arg >>> 16).toUInt16) with
  | none =>
      left
      rfl
  | some i =>
      cases hSecond : l.find? (fun i =>
          (s.slots i).location =
            (arg &&& 0xFFFF).toUInt16) with
      | none =>
          left
          rfl
      | some j =>
          right
          exact ⟨i, List.mem_of_find?_eq_some hFirst,
            j, List.mem_of_find?_eq_some hSecond,
            by simpa using List.find?_some hFirst,
            by simpa using List.find?_some hSecond, rfl⟩

/- A `find` returns. -/
theorem ioctlFind_isSome
    (hList : s.IsList l)
    (location : UInt16) :
    ∃ r, s.ioctlFind location = some r := by
  unfold ioctlFind
  rw [findHelper_eq hList]
  cases l.find? (fun i => (s.slots i).location =
      location.toUInt32.toUInt16) with
  | none => exact ⟨_, rfl⟩
  | some i => exact ⟨_, rfl⟩

end Blink

end MartianPendulum

------------------------------------------------------------
-- The Invariant
------------------------------------------------------------

namespace MartianPendulum

namespace Blink

/-
  The list visits distinct slots and ends, so that the loops
  over it return.
-/
structure WellFormed
    (s : Blink) : Prop where
  list : ∃ l, s.IsList l ∧ l.Nodup
  find_returns : ∀ arg, ∃ r, s.findHelper arg = some r
  tasklet_returns : ∃ s', s.rtcTasklet = some s'

/-
  What a call that returns `r` does to the list: `add` puts
  the allocated slot, which was not listed, in front, and
  `remove` takes out one node.
-/
def ListChange
    (s : Blink)
    (r : Int)
    (l l' : List Slot) :
    BlinkCall → Prop
| .add _ =>
    r = -1 ∧ l' = l ∨
      r = 0 ∧ ∃ i, s.malloc = some i ∧ i ∉ l ∧ l' = i :: l
| .remove arg =>
    r = -1 ∧ l' = l ∨
      r = 0 ∧ ∃ l₁ i l₂,
        (s.slots i).location = arg.toUInt16 ∧
        l = l₁ ++ i :: l₂ ∧ l' = l₁ ++ l₂
| _ => l' = l

/- The call returns and leaves a well-formed list. -/
def KeepsList
    (s : Blink)
    (e : BlinkCall) : Prop :=
  s.WellFormed ∧
    ∃ r s', s.call e = some (r, s') ∧ s'.WellFormed ∧
      ∀ l l', s.IsList l → s'.IsList l' →
        s.ListChange r l l' e

/-
  Every listed node at location 0 stands after some slot of
  the array that is not listed, if a node is to be added.
-/
def AddsFresh
    (s : Blink) :
    BlinkCall → Prop
| .add arg =>
    arg.location.toNat < 80 * 25 →
      ∀ i, s.Listed i → (s.slots i).location = 0 →
        ∃ j, j < i ∧ ¬ s.Listed j
| _ => True

/- The slots that are not listed are free. -/
structure Holds
    (s : Blink)
    (l : List Slot) : Prop where
  isList : s.IsList l
  free : ∀ i, i ∉ l → (s.slots i).location = 0

variable {s : Blink}
variable {l : List Slot}

theorem IsList.wellFormed
    (hList : s.IsList l) :
    s.WellFormed :=
  ⟨⟨l, hList, Logic.Linked.nodup hList⟩,
    fun arg => ⟨_, findHelper_eq hList arg⟩,
    ⟨_, rtcTasklet_eq hList⟩⟩

theorem init_holds
    (vmem : Nat → UInt8) :
    (init vmem).Holds [] :=
  ⟨rfl, fun _ _ => rfl⟩

theorem SameList.holds
    {s' : Blink}
    (hSame : SameList s s')
    (hHolds : s.Holds l) :
    s'.Holds l := by
  refine ⟨(hSame.isList_iff l).mpr hHolds.isList, ?_⟩
  intro i hi
  rw [hSame.location i]
  exact hHolds.free i hi

/- The allocated slot is fresh exactly if `add` may go on. -/
theorem Holds.addsFresh_iff
    (hHolds : s.Holds l)
    {arg : BlinkArg}
    (hRange : arg.location.toNat < 80 * 25)
    {i : Slot}
    (hMalloc : s.malloc = some i) :
    s.AddsFresh (.add arg) ↔ i ∉ l := by
  rw [malloc_eq_some_iff] at hMalloc
  rcases hMalloc with ⟨hZero, hFirst⟩
  simp only [AddsFresh, hHolds.isList.listed_iff]
  constructor
  · intro hFresh hMem
    rcases hFresh hRange i hMem hZero with ⟨j, hLt, hj⟩
    exact hFirst j hLt (hHolds.free j hj)
  · intro hFresh _ k hk hkZero
    refine ⟨i, ?_, hFresh⟩
    rcases lt_trichotomy i k with hLt | rfl | hGt
    · exact hLt
    · exact absurd hk hFresh
    · exact absurd hkZero (hFirst k hGt)

theorem insertFront_holds
    (hHolds : s.Holds l)
    (arg : BlinkArg)
    {i : Slot}
    (hFresh : i ∉ l) :
    (s.insertFront arg i).Holds (i :: l) := by
  refine ⟨insertFront_isList hHolds.isList arg hFresh, ?_⟩
  intro j hj
  rw [List.mem_cons, not_or] at hj
  have hSlot : (s.insertFront arg i).slots j = s.slots j :=
    Function.update_of_ne hj.1 _ _
  rw [hSlot]
  exact hHolds.free j hj.2

theorem store_location
    (s : Blink)
    (q : Option Slot)
    (edx : Link)
    (i : Slot) :
    ((s.store q edx).slots i).location =
      (s.slots i).location := by
  cases edx with
  | head => rfl
  | next j =>
      simp only [store, setSlot]
      by_cases hi : i = j
      · subst hi
        rw [Function.update_self]
      · rw [Function.update_of_ne hi]

theorem store_free_holds
    {i : Slot}
    {l₁ l₂ : List Slot}
    (hHolds : s.Holds (l₁ ++ i :: l₂)) :
    ((s.store (s.slots i).next
      (lastLink .head l₁)).free i).Holds (l₁ ++ l₂) := by
  refine ⟨store_free_isList hHolds.isList, ?_⟩
  intro j hj
  simp only [Blink.free, setSlot]
  by_cases hji : j = i
  · subst hji
    rw [Function.update_self]
    rfl
  · rw [Function.update_of_ne hji, store_location]
    apply hHolds.free
    simp only [List.mem_append, List.mem_cons, not_or]
      at hj ⊢
    exact ⟨hj.1, hji, hj.2⟩

end Blink

end MartianPendulum

------------------------------------------------------------
-- Sequences of Calls
------------------------------------------------------------

namespace MartianPendulum

namespace Blink

variable {s : Blink}
variable {l : List Slot}

/- What a call that may go on does to the list. -/
theorem call_holds
    (hHolds : s.Holds l)
    {e : BlinkCall}
    (hFresh : s.AddsFresh e) :
    ∃ r s' l', s.call e = some (r, s') ∧ s'.Holds l' ∧
      s.ListChange r l l' e := by
  have hList := hHolds.isList
  cases e with
  | add arg =>
      rcases ioctlAdd_cases s arg with
        ⟨hAdd, _⟩ | ⟨i, hRange, hMalloc, hAdd⟩
      · refine ⟨-1, s, l, ?_, hHolds, Or.inl ⟨rfl, rfl⟩⟩
        rw [call, hAdd]
      · have hNew : i ∉ l :=
          (hHolds.addsFresh_iff hRange hMalloc).mp hFresh
        refine ⟨0, _, i :: l, ?_,
          insertFront_holds hHolds arg hNew,
          Or.inr ⟨rfl, i, hMalloc, hNew, rfl⟩⟩
        rw [call, hAdd]
  | remove arg =>
      rcases ioctlRemove_cases hList arg with
        hFail | ⟨l₁, i, l₂, rfl, hLocation, hRemove⟩
      · exact ⟨-1, s, l, hFail, hHolds, Or.inl ⟨rfl, rfl⟩⟩
      · exact ⟨0, _, l₁ ++ l₂, hRemove,
          store_free_holds hHolds,
          Or.inr ⟨rfl, l₁, i, l₂, hLocation, rfl, rfl⟩⟩
  | find location =>
      rcases ioctlFind_isSome hList location with ⟨r, hFind⟩
      refine ⟨r.1, s, l, ?_, hHolds, rfl⟩
      rw [call, hFind]
      rfl
  | sync arg =>
      rcases ioctlSync_cases hList arg with
        hFail | ⟨i, _, j, _, _, _, hSync⟩
      · exact ⟨-1, s, l, hFail, hHolds, rfl⟩
      · exact ⟨0, _, l, hSync,
          (syncCopy_sameList s i j).holds hHolds, rfl⟩
  | tasklet =>
      refine ⟨0, _, l, ?_,
        (foldl_tick_sameList s l).holds hHolds, rfl⟩
      rw [call, rtcTasklet_eq hList]
      rfl

/- An `add` that keeps the list was given a fresh slot. -/
theorem KeepsList.fresh
    (hList : s.IsList l)
    {arg : BlinkArg}
    (hKeeps : s.KeepsList (.add arg))
    (hRange : arg.location.toNat < 80 * 25)
    {i : Slot}
    (hMalloc : s.malloc = some i) :
    i ∉ l := by
  intro hMem
  rcases hKeeps with ⟨_, r, s', hCall, hAfter, _⟩
  rcases ioctlAdd_cases s arg with
    ⟨_, hNone⟩ | ⟨j, _, hMalloc', hAdd⟩
  · rw [hNone hRange] at hMalloc
    simp at hMalloc
  · obtain rfl : i = j :=
      Option.some.inj (hMalloc.symm.trans hMalloc')
    rw [call, hAdd] at hCall
    have hState : s.insertFront arg i = s' :=
      congrArg Prod.snd (Option.some.inj hCall)
    rcases hAfter.list with ⟨l', hList', _⟩
    rw [← hState] at hList'
    exact insertFront_cycle hList arg hMem l' hList'

/- A call keeps the list exactly if an `add` is fresh. -/
theorem keepsList_iff
    (hHolds : s.Holds l)
    (e : BlinkCall) :
    s.KeepsList e ↔ s.AddsFresh e := by
  constructor
  · intro hKeeps
    cases e with
    | add arg =>
        intro hRange i hi hZero
        cases hMalloc : s.malloc with
        | none =>
            exact absurd hZero
              (malloc_eq_none_iff.mp hMalloc i)
        | some m =>
            have hNew := hKeeps.fresh hHolds.isList hRange
              hMalloc
            exact (hHolds.addsFresh_iff hRange hMalloc).mpr
              hNew hRange i hi hZero
    | remove arg => trivial
    | find location => trivial
    | sync arg => trivial
    | tasklet => trivial
  · intro hFresh
    rcases call_holds hHolds hFresh with
      ⟨r, s', l', hCall, hHolds', hChange⟩
    refine ⟨hHolds.isList.wellFormed, r, s', hCall,
      hHolds'.isList.wellFormed, ?_⟩
    intro k k' hk hk'
    rw [Logic.Linked.unique hk hHolds.isList,
      Logic.Linked.unique hk' hHolds'.isList]
    exact hChange

theorem step_some
    {e : BlinkCall}
    {r : Int}
    {s' : Blink}
    (hCall : s.call e = some (r, s')) :
    step (some s) e = some s' := by
  rw [step, Option.bind_some, hCall]
  rfl

end Blink

/-
  Main theorem: along a sequence of calls every list is well
  formed and every call changes it as it should, exactly if
  each accepted `add` finds every listed node at location 0
  behind some slot that is not listed.
-/
theorem blink_list_kept_iff
    (vmem : Nat → UInt8)
    (es : List BlinkCall) :
    (∀ es₁ e es₂, es = es₁ ++ e :: es₂ →
      ∃ s, Blink.after vmem es₁ = some s ∧
        s.KeepsList e) ↔
    (∀ es₁ e es₂, es = es₁ ++ e :: es₂ →
      ∀ s, Blink.after vmem es₁ = some s →
        s.AddsFresh e) := by
  have hStart : ∃ s l, some (Blink.init vmem) = some s ∧
      s.Holds l :=
    ⟨_, _, rfl, Blink.init_holds vmem⟩
  have hSide : Logic.Along Blink.step (fun _ _ => True)
      (some (Blink.init vmem)) es := by
    rw [Logic.along_iff_forall_split]
    intros
    trivial
  have hSame : Logic.Along Blink.step
        (fun o e => ∃ s, o = some s ∧ s.KeepsList e)
        (some (Blink.init vmem)) es ↔
      Logic.Along Blink.step
        (fun o e => ∀ s, o = some s → s.AddsFresh e)
        (some (Blink.init vmem)) es := by
    refine Logic.along_iff_along
      (I := fun o => ∃ s l, o = some s ∧ s.Holds l)
      ?_ ?_ hStart hSide
    · rintro o e ⟨s, l, rfl, hHolds⟩ _ hFresh
      rcases Blink.call_holds hHolds (hFresh s rfl) with
        ⟨r, s', l', hCall, hHolds', _⟩
      exact ⟨s', l', Blink.step_some hCall, hHolds'⟩
    · rintro o e ⟨s, l, rfl, hHolds⟩ _
      simpa using Blink.keepsList_iff hHolds e
  rw [Logic.along_iff_forall_split,
    Logic.along_iff_forall_split] at hSame
  exact hSame

/-
  Two nodes at location 0: the second `add` is given the
  slot of the first one.
-/
theorem blink_list_lost :
    let arg : BlinkArg :=
      { location := 0
        onChar := 65
        offChar := 66
        onLength := 1
        offLength := 1 }
    ¬ ∀ es₁ e es₂,
      [BlinkCall.add arg, .add arg] = es₁ ++ e :: es₂ →
        ∃ s, Blink.after (fun _ => 0) es₁ = some s ∧
          s.KeepsList e := by
  intro arg hAll
  rcases hAll [.add arg] (.add arg) [] rfl with
    ⟨s, hAfter, hKeeps⟩
  have hFirst : (Blink.init (fun _ => 0)).malloc =
      some firstSlot :=
    Blink.malloc_eq_first rfl
  have hState : (Blink.init (fun _ => 0)).insertFront arg
      firstSlot = s := by
    have hCall : (Blink.init (fun _ => 0)).call (.add arg) =
        some (0, (Blink.init (fun _ => 0)).insertFront arg
          firstSlot) := by
      rw [Blink.call, Blink.ioctlAdd,
        if_neg (by decide), hFirst]
    rw [Blink.after, Logic.run_cons, Logic.run_nil,
      Blink.step_some hCall] at hAfter
    exact Option.some.inj hAfter
  have hSecond : s.malloc = some firstSlot := by
    apply Blink.malloc_eq_first
    rw [← hState]
    rfl
  have hList : s.IsList [firstSlot] := by
    rw [← hState]
    exact Blink.insertFront_isList
      (Blink.init_holds _).isList arg (by simp)
  exact hKeeps.fresh hList (by decide) hSecond (by simp)

end MartianPendulum
