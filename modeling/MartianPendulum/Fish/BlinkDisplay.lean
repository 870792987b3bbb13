import MartianPendulum.Fish.BlinkList
import Mathlib.Data.Nat.Bitwise

/-
  The cells of the blinking characters.

  `add` and the tasklet poke the character that goes with
  the status they set.  `sync` copies the status of another
  node, and its conditional move is never taken: it always
  pokes the character of the off status.

  Key definitions include:
    * `BlinkNode.shown`
    * `Blink.Shows`
    * `Blink.Separate`
    * `Blink.SyncsOff`

  Key theorems include:
    * `Blink.write_shows_iff`
    * `Blink.tick_shows`
    * `Blink.call_shows_iff`
    * `blink_display_follows_iff`
-/

------------------------------------------------------------
-- Cells
------------------------------------------------------------

namespace MartianPendulum

namespace BlinkNode

/- The character for the status bit. -/
def shown
    (n : BlinkNode) : UInt8 :=
  if n.status &&& 1 = 0 then n.offChar else n.onChar

/- What `sync` copies. -/
def timing
    (n : BlinkNode) : UInt16 × UInt16 × UInt16 × UInt16 :=
  (n.status, n.countdown, n.onLength, n.offLength)

end BlinkNode

namespace Blink

/- The cell of the slot holds the character. -/
def ShowsAt
    (s : Blink)
    (i : Slot) : Prop :=
  s.vmem ((s.slots i).location.toNat <<< 1) =
    (s.slots i).shown

/- The cell of every listed node follows its status. -/
def Shows
    (s : Blink) : Prop :=
  ∀ i, s.Listed i → s.ShowsAt i

/-
  The listed nodes are at locations 1 to 1999, and no two of
  them share one.
-/
def Separate
    (s : Blink) : Prop :=
  ∀ i, s.Listed i →
    1 ≤ (s.slots i).location.toNat ∧
    (s.slots i).location.toNat ≤ 1999 ∧
    ∀ j, s.Listed j →
      (s.slots j).location = (s.slots i).location → j = i

/- After `sync` the second node has the timing of the first. -/
def Syncs
    (s s' : Blink) :
    BlinkCall → Prop
| .sync arg =>
    ∀ i j, s.Listed i → s.Listed j →
      (s.slots i).location = (arg >>> 16).toUInt16 →
      (s.slots j).location = (arg &&& 0xFFFF).toUInt16 →
        (s'.slots j).timing = (s.slots i).timing ∧
          (s'.slots i).timing = (s.slots i).timing
| _ => True

/-
  The node that `sync` copies from is off, or the node that
  it copies to has the same character for both.
-/
def SyncsOff
    (s : Blink) :
    BlinkCall → Prop
| .sync arg =>
    ∀ i j, s.Listed i → s.Listed j →
      (s.slots i).location = (arg >>> 16).toUInt16 →
      (s.slots j).location = (arg &&& 0xFFFF).toUInt16 →
        (s.slots i).status &&& 1 = 0 ∨
          (s.slots j).onChar = (s.slots j).offChar
| _ => True

end Blink

end MartianPendulum

------------------------------------------------------------
-- One Cell Written
------------------------------------------------------------

namespace MartianPendulum

namespace Blink

variable {s : Blink}
variable {l : List Slot}

theorem offset_inj
    {a b : UInt16}
    (hEq : a.toNat <<< 1 = b.toNat <<< 1) :
    a = b := by
  rw [Nat.shiftLeft_eq, Nat.shiftLeft_eq] at hEq
  exact UInt16.toNat_inj.mp (by omega)

/- The conditional move of `sync` is never taken. -/
theorem syncChar_eq
    (n : BlinkNode) :
    syncChar n = n.offChar := by
  simp [syncChar]

/- The status bit flipped. -/
theorem xor_one_bit
    (status : UInt16) :
    (status ^^^ 1) &&& 1 = 0 ↔ ¬ status &&& 1 = 0 := by
  rw [← UInt16.toNat_inj, ← UInt16.toNat_inj]
  simp only [UInt16.toNat_and, UInt16.toNat_xor,
    UInt16.toNat_one, UInt16.toNat_zero,
    Nat.and_one_is_mod, Nat.xor_mod_two_eq]
  omega

/-
  One node and its cell written: every cell follows exactly
  if the written one does.
-/
theorem write_shows_iff
    {i : Slot}
    {n : BlinkNode}
    {c : UInt8}
    (hMem : i ∈ l)
    (hOthers : ∀ j ∈ l, j ≠ i → s.ShowsAt j)
    (hApart : ∀ j ∈ l, j ≠ i →
      (s.slots j).location ≠ n.location) :
    (∀ j ∈ l,
      ((s.poke n.location c).setSlot i n).ShowsAt j) ↔
      c = n.shown := by
  have hHere : ((s.poke n.location c).setSlot i n).ShowsAt
      i ↔ c = n.shown := by
    simp only [ShowsAt, setSlot, poke, Function.update_self]
  constructor
  · intro hAll
    exact hHere.mp (hAll i hMem)
  · intro hChar j hj
    by_cases hji : j = i
    · rw [hji]
      exact hHere.mpr hChar
    · have hCell :
          (s.slots j).location.toNat <<< 1 ≠
            n.location.toNat <<< 1 := by
        intro hEq
        exact hApart j hj hji (offset_inj hEq)
      simp only [ShowsAt, setSlot, poke,
        Function.update_of_ne hji]
      rw [Function.update_of_ne hCell]
      exact hOthers j hj hji

/- A tick keeps the cells in step. -/
theorem tick_shows
    {i : Slot}
    (hMem : i ∈ l)
    (hApart : ∀ j ∈ l, j ≠ i →
      (s.slots j).location ≠ (s.slots i).location)
    (hShows : ∀ j ∈ l, s.ShowsAt j) :
    ∀ j ∈ l, (s.tick i).ShowsAt j := by
  have hOthers : ∀ j ∈ l, j ≠ i → s.ShowsAt j :=
    fun j hj _ => hShows j hj
  simp only [tick]
  split
  · intro j hj
    by_cases hji : j = i
    · subst hji
      simp only [ShowsAt, setSlot, Function.update_self]
      exact hShows j hj
    · simp only [ShowsAt, setSlot,
        Function.update_of_ne hji]
      exact hShows j hj
  · split
    next hOff =>
      refine (write_shows_iff
        (n := { s.slots i with
          countdown := (s.slots i).onLength
          status := (s.slots i).status ^^^ 1 })
        hMem hOthers hApart).mpr ?_
      have hFlip := xor_one_bit (s.slots i).status
      simp only [BlinkNode.shown, hFlip, hOff, not_true,
        if_false]
    next hOn =>
      refine (write_shows_iff
        (n := { s.slots i with
          countdown := (s.slots i).offLength
          status := (s.slots i).status ^^^ 1 })
        hMem hOthers hApart).mpr ?_
      have hFlip := xor_one_bit (s.slots i).status
      simp only [BlinkNode.shown, hFlip, hOn, not_false_iff,
        if_true]

/- The ticks of a tasklet keep the cells in step. -/
theorem foldl_tick_shows
    {k : List Slot}
    (hSub : ∀ i ∈ k, i ∈ l)
    (hApart : ∀ i ∈ l, ∀ j ∈ l, j ≠ i →
      (s.slots j).location ≠ (s.slots i).location)
    (hShows : ∀ j ∈ l, s.ShowsAt j) :
    ∀ j ∈ l, (k.foldl tick s).ShowsAt j := by
  induction k generalizing s with
  | nil => exact hShows
  | cons i k ih =>
      have hSame := tick_sameList s i
      have hHere : i ∈ l := hSub i (by simp)
      apply ih
      · intro j hj
        exact hSub j (by simp [hj])
      · intro a ha b hb hNe
        rw [hSame.location, hSame.location]
        exact hApart a ha b hb hNe
      · exact tick_shows hHere (hApart i hHere) hShows

end Blink

end MartianPendulum

------------------------------------------------------------
-- The Calls
------------------------------------------------------------

namespace MartianPendulum

namespace Blink

variable {s s' : Blink}
variable {l : List Slot}

theorem IsList.shows_iff
    (hList : s.IsList l) :
    s.Shows ↔ ∀ i ∈ l, s.ShowsAt i := by
  simp only [Shows, hList.listed_iff]

/- Distinct nodes of the list are at distinct locations. -/
theorem Separate.apart
    (hSeparate : s.Separate)
    (hList : s.IsList l)
    {i j : Slot}
    (hi : i ∈ l)
    (hj : j ∈ l)
    (hNe : j ≠ i) :
    (s.slots j).location ≠ (s.slots i).location := by
  intro hEq
  exact hNe ((hSeparate i ((hList.listed_iff i).mpr hi)).2.2
    j ((hList.listed_iff j).mpr hj) hEq)

/- No listed node is at location 0. -/
theorem Separate.addsFresh
    (hSeparate : s.Separate)
    (e : BlinkCall) :
    s.AddsFresh e := by
  cases e with
  | add arg =>
      intro _ i hi hZero
      have hLow := (hSeparate i hi).1
      rw [hZero] at hLow
      simp at hLow
  | remove arg => trivial
  | find location => trivial
  | sync arg => trivial
  | tasklet => trivial

/- An added node is shown as on. -/
theorem insertFront_shows
    {arg : BlinkArg}
    {i : Slot}
    (hShows : ∀ j ∈ l, s.ShowsAt j)
    (hList' : (s.insertFront arg i).IsList (i :: l))
    (hSeparate' : (s.insertFront arg i).Separate) :
    (s.insertFront arg i).Shows := by
  rw [hList'.shows_iff]
  have hTail : ∀ j ∈ i :: l, j ≠ i → j ∈ l := by
    intro j hj hNe
    rw [List.mem_cons] at hj
    exact hj.resolve_left hNe
  have hNew : (s.insertFront arg i).slots i =
      s.addNode arg :=
    Function.update_self i _ s.slots
  refine (write_shows_iff (n := s.addNode arg) (by simp)
    (fun j hj hNe => hShows j (hTail j hj hNe)) ?_).mpr ?_
  · intro j hj hNe
    have hApart := hSeparate'.apart hList'
      List.mem_cons_self hj hNe
    have hOld : (s.insertFront arg i).slots j = s.slots j :=
      Function.update_of_ne hNe _ _
    rw [hNew, hOld] at hApart
    exact hApart
  · have hOn : ¬ (1 : UInt16) &&& 1 = 0 := by decide
    simp only [BlinkNode.shown, addNode, hOn, if_false]

theorem store_showsAt
    (s : Blink)
    (q : Option Slot)
    (edx : Link)
    (j : Slot) :
    (s.store q edx).ShowsAt j ↔ s.ShowsAt j := by
  cases edx with
  | head => exact Iff.rfl
  | next k =>
      simp only [ShowsAt, store, setSlot]
      by_cases hj : j = k
      · subst hj
        simp only [Function.update_self]
        exact Iff.rfl
      · rw [Function.update_of_ne hj]

/- The nodes that stay are shown as before. -/
theorem store_free_shows
    {i : Slot}
    {l₁ l₂ : List Slot}
    (hList : s.IsList (l₁ ++ i :: l₂))
    (hShows : ∀ j ∈ l₁ ++ i :: l₂, s.ShowsAt j) :
    ((s.store (s.slots i).next
      (lastLink .head l₁)).free i).Shows := by
  rw [(store_free_isList hList).shows_iff]
  intro j hj
  have hNodup := Logic.Linked.nodup hList
  rw [List.nodup_middle, List.nodup_cons] at hNodup
  have hNe : j ≠ i := by
    rintro rfl
    exact hNodup.1 hj
  have hOld : j ∈ l₁ ++ i :: l₂ := by
    simp only [List.mem_append, List.mem_cons] at hj ⊢
    tauto
  simp only [ShowsAt, free, setSlot,
    Function.update_of_ne hNe]
  exact (store_showsAt s _ _ j).mpr (hShows j hOld)

/- A copied status is shown if it is off, or looks so. -/
theorem syncCopy_shows_iff
    (hList : s.IsList l)
    (hSeparate : s.Separate)
    (hShows : ∀ j ∈ l, s.ShowsAt j)
    (i : Slot)
    {j : Slot}
    (hj : j ∈ l) :
    (s.syncCopy i j).Shows ↔
      (s.slots i).status &&& 1 = 0 ∨
        (s.slots j).onChar = (s.slots j).offChar := by
  have hList' :=
    ((syncCopy_sameList s i j).isList_iff l).mpr hList
  rw [hList'.shows_iff]
  refine (write_shows_iff (n := s.syncNode i j)
    hj (fun k hk _ => hShows k hk)
    (fun k hk hNe =>
      hSeparate.apart hList hj hk hNe)).trans ?_
  rw [syncChar_eq]
  simp only [BlinkNode.shown, syncNode]
  by_cases hOff : (s.slots i).status &&& 1 = 0
  · simp [hOff]
  · simp only [hOff, if_false, false_or]
    exact eq_comm

theorem syncCopy_timing
    (s : Blink)
    (i j : Slot) :
    ((s.syncCopy i j).slots j).timing =
        (s.slots i).timing ∧
      ((s.syncCopy i j).slots i).timing =
        (s.slots i).timing := by
  have hTarget : ((s.syncCopy i j).slots j).timing =
      (s.slots i).timing := by
    simp only [syncCopy, poke, setSlot,
      Function.update_self]
    rfl
  refine ⟨hTarget, ?_⟩
  by_cases hij : i = j
  · subst hij
    exact hTarget
  · simp only [syncCopy, poke, setSlot,
      Function.update_of_ne hij]

end Blink

end MartianPendulum

------------------------------------------------------------
-- Sequences of Calls
------------------------------------------------------------

namespace MartianPendulum

namespace Blink

variable {s s' : Blink}
variable {l : List Slot}

/- A call that fails is not one that succeeds. -/
theorem not_failed
    {e : BlinkCall}
    (hCall : s.call e = some (0, s')) :
    s.call e ≠ some (-1, s) := by
  intro hFail
  rw [hFail] at hCall
  exact absurd (Prod.mk.inj (Option.some.inj hCall)).1
    (by decide)

/- The state after a call that succeeds. -/
theorem call_state
    {e : BlinkCall}
    {s'' : Blink}
    (hCall : s.call e = some (0, s'))
    (hCall' : s.call e = some (0, s'')) :
    s' = s'' := by
  rw [hCall'] at hCall
  exact (Prod.mk.inj (Option.some.inj hCall)).2.symm

/-
  A `sync` keeps the cells in step exactly if the status it
  copies is off, or the characters are the same.
-/
theorem sync_shows_iff
    (hList : s.IsList l)
    (hSeparate : s.Separate)
    (hShows : s.Shows)
    {arg : UInt32}
    (hCall : s.call (.sync arg) = some (0, s')) :
    s'.Shows ∧ s.Syncs s' (.sync arg) ↔
      s.SyncsOff (.sync arg) := by
  rcases ioctlSync_cases hList arg with
    hFail | ⟨i, hi, j, hj, hFirst, hSecond, hSync⟩
  · exact absurd hFail (not_failed hCall)
  · rw [call_state hCall hSync]
    have hi' := (hList.listed_iff i).mpr hi
    have hj' := (hList.listed_iff j).mpr hj
    have hUnique : ∀ a b, s.Listed a → s.Listed b →
        (s.slots a).location = (arg >>> 16).toUInt16 →
        (s.slots b).location =
          (arg &&& 0xFFFF).toUInt16 →
        a = i ∧ b = j := by
      intro a b ha hb haLoc hbLoc
      exact ⟨(hSeparate i hi').2.2 a ha
          (haLoc.trans hFirst.symm),
        (hSeparate j hj').2.2 b hb
          (hbLoc.trans hSecond.symm)⟩
    rw [hList.shows_iff] at hShows
    rw [syncCopy_shows_iff hList hSeparate hShows i hj]
    constructor
    · rintro ⟨hOff, _⟩ a b ha hb haLoc hbLoc
      rcases hUnique a b ha hb haLoc hbLoc with ⟨rfl, rfl⟩
      exact hOff
    · intro hOff
      refine ⟨hOff i j hi' hj' hFirst hSecond, ?_⟩
      intro a b ha hb haLoc hbLoc
      rcases hUnique a b ha hb haLoc hbLoc with ⟨rfl, rfl⟩
      exact syncCopy_timing s a b

/- A successful call other than `sync` keeps the cells. -/
theorem call_shows
    (hHolds : s.Holds l)
    (hSeparate : s.Separate)
    (hShows : s.Shows)
    {e : BlinkCall}
    (hOther : ∀ arg, e ≠ .sync arg)
    (hCall : s.call e = some (0, s'))
    (hSeparate' : s'.Separate) :
    s'.Shows := by
  have hList := hHolds.isList
  have hOn := hList.shows_iff.mp hShows
  cases e with
  | add arg =>
      rcases ioctlAdd_cases s arg with
        ⟨hAdd, _⟩ | ⟨i, hRange, hMalloc, hAdd⟩
      · exact absurd (congrArg some hAdd)
          (not_failed hCall)
      · have hState := call_state hCall (congrArg some hAdd)
        rw [hState] at hSeparate' ⊢
        have hFresh : i ∉ l :=
          (hHolds.addsFresh_iff hRange hMalloc).mp
            (hSeparate.addsFresh _)
        exact insertFront_shows hOn
          (insertFront_isList hList arg hFresh) hSeparate'
  | remove arg =>
      rcases ioctlRemove_cases hList arg with
        hFail | ⟨l₁, i, l₂, rfl, _, hRemove⟩
      · exact absurd hFail (not_failed hCall)
      · rw [call_state hCall hRemove]
        exact store_free_shows hList hOn
  | find location =>
      rcases ioctlFind_isSome hList location with ⟨r, hFind⟩
      rw [call, hFind] at hCall
      have hState : s = s' :=
        (Prod.mk.inj (Option.some.inj hCall)).2
      rw [← hState]
      exact hShows
  | sync arg => exact absurd rfl (hOther arg)
  | tasklet =>
      have hTick : s.call .tasklet =
          some (0, l.foldl tick s) := by
        rw [call, rtcTasklet_eq hList]
        rfl
      rw [call_state hCall hTick]
      have hList' :=
        ((foldl_tick_sameList s l).isList_iff l).mpr hList
      rw [hList'.shows_iff]
      exact foldl_tick_shows (fun _ hi => hi)
        (fun i hi j hj hNe =>
          hSeparate.apart hList hi hj hNe) hOn

/-
  A successful call keeps the cells in step exactly if a
  `sync` copies an off status or between equal characters.
-/
theorem call_shows_iff
    (hHolds : s.Holds l)
    (hSeparate : s.Separate)
    (hShows : s.Shows)
    {e : BlinkCall}
    (hCall : s.call e = some (0, s'))
    (hSeparate' : s'.Separate) :
    s'.Shows ∧ s.Syncs s' e ↔ s.SyncsOff e := by
  cases e with
  | sync arg =>
      exact sync_shows_iff hHolds.isList hSeparate hShows
        hCall
  | add arg =>
      have hKept := call_shows hHolds hSeparate hShows
        (by simp) hCall hSeparate'
      exact iff_of_true ⟨hKept, trivial⟩ trivial
  | remove arg =>
      have hKept := call_shows hHolds hSeparate hShows
        (by simp) hCall hSeparate'
      exact iff_of_true ⟨hKept, trivial⟩ trivial
  | find location =>
      have hKept := call_shows hHolds hSeparate hShows
        (by simp) hCall hSeparate'
      exact iff_of_true ⟨hKept, trivial⟩ trivial
  | tasklet =>
      have hKept := call_shows hHolds hSeparate hShows
        (by simp) hCall hSeparate'
      exact iff_of_true ⟨hKept, trivial⟩ trivial

end Blink

/-
  The calls of the sequence succeed, and after each of them
  the nodes are at distinct locations from 1 to 1999.
-/
def Separated
    (vmem : Nat → UInt8)
    (es : List BlinkCall) : Prop :=
  ∀ es₁ e es₂, es = es₁ ++ e :: es₂ →
    ∃ s s', Blink.after vmem es₁ = some s ∧
      s.call e = some (0, s') ∧ s'.Separate

theorem separated_iff_along
    (vmem : Nat → UInt8)
    (es : List BlinkCall) :
    Separated vmem es ↔
      Logic.Along Blink.step
        (fun o e => ∃ s s', o = some s ∧
          s.call e = some (0, s') ∧ s'.Separate)
        (some (Blink.init vmem)) es := by
  rw [Logic.along_iff_forall_split]
  exact Iff.rfl

/-
  After each call the cells follow the status, and after a
  `sync` the timing is that of the first node.
-/
def FollowsStatus
    (vmem : Nat → UInt8)
    (es : List BlinkCall) : Prop :=
  ∀ es₁ e es₂, es = es₁ ++ e :: es₂ →
    ∃ s r s', Blink.after vmem es₁ = some s ∧
      s.call e = some (r, s') ∧ s'.Shows ∧ s.Syncs s' e

/-
  Main theorem: along a sequence of successful calls with
  separate nodes the cells follow the status exactly if
  every `sync` copies an off status, or to a node that has
  one character for both.
-/
theorem blink_display_follows_iff
    {vmem : Nat → UInt8}
    {es : List BlinkCall}
    (hSeparated : Separated vmem es) :
    FollowsStatus vmem es ↔
      ∀ es₁ e es₂, es = es₁ ++ e :: es₂ →
        ∀ s, Blink.after vmem es₁ = some s →
          s.SyncsOff e := by
  have hStart : ∃ s l, some (Blink.init vmem) = some s ∧
      s.Holds l ∧ s.Separate ∧ s.Shows := by
    have hHolds := Blink.init_holds vmem
    have hNone : ∀ i, ¬ (Blink.init vmem).Listed i := by
      intro i hi
      rw [hHolds.isList.listed_iff] at hi
      simp at hi
    exact ⟨_, _, rfl, hHolds,
      fun i hi => absurd hi (hNone i),
      fun i hi => absurd hi (hNone i)⟩
  have hSide := (separated_iff_along vmem es).mp hSeparated
  have hSame : Logic.Along Blink.step
        (fun o e => ∃ s r s', o = some s ∧
          s.call e = some (r, s') ∧ s'.Shows ∧
          s.Syncs s' e)
        (some (Blink.init vmem)) es ↔
      Logic.Along Blink.step
        (fun o e => ∀ s, o = some s → s.SyncsOff e)
        (some (Blink.init vmem)) es := by
    refine Logic.along_iff_along
      (I := fun o => ∃ s l, o = some s ∧ s.Holds l ∧
        s.Separate ∧ s.Shows) ?_ ?_ hStart hSide
    · rintro o e ⟨s, l, rfl, hHolds, hSeparate, hShows⟩
        ⟨_, s', hSome, hCall, hSeparate'⟩ hOff
      obtain rfl := Option.some.inj hSome
      rcases Blink.call_holds hHolds
        (hSeparate.addsFresh e) with
        ⟨r, s'', l', hCall', hHolds', _⟩
      have hState : s'' = s' := by
        rw [hCall] at hCall'
        exact (Prod.mk.inj (Option.some.inj hCall')).2.symm
      rw [hState] at hHolds'
      have hKept := (Blink.call_shows_iff hHolds hSeparate
        hShows hCall hSeparate').mpr (hOff s rfl)
      exact ⟨s', l', Blink.step_some hCall, hHolds',
        hSeparate', hKept.1⟩
    · rintro o e ⟨s, l, rfl, hHolds, hSeparate, hShows⟩
        ⟨_, s', hSome, hCall, hSeparate'⟩
      obtain rfl := Option.some.inj hSome
      have hIff := Blink.call_shows_iff hHolds hSeparate
        hShows hCall hSeparate'
      simpa [hCall] using hIff
  rw [Logic.along_iff_forall_split,
    Logic.along_iff_forall_split] at hSame
  exact hSame

/- Nodes at locations 1 and 2. -/
def nodeOne : BlinkArg :=
  { location := 1
    onChar := 65
    offChar := 66
    onLength := 7
    offLength := 6 }

def nodeTwo
    (c d : UInt8) : BlinkArg :=
  { location := 2
    onChar := c
    offChar := d
    onLength := 15
    offLength := 15 }

/- The second node takes the timing of the first. -/
def syncTwo : BlinkCall := .sync 0x10002

/- The state before the `sync`. -/
def twoNodes
    (c d : UInt8) : Blink :=
  ((Blink.init (fun _ => 0)).insertFront nodeOne
    firstSlot).insertFront (nodeTwo c d) secondSlot

theorem twoNodes_isList
    (c d : UInt8) :
    (twoNodes c d).IsList [secondSlot, firstSlot] :=
  Blink.insertFront_isList
    (Blink.insertFront_isList
      (Blink.init_holds _).isList nodeOne (by simp))
    (nodeTwo c d) (by decide)

theorem Blink.separate_of
    {s : Blink}
    {l : List Slot}
    (hList : s.IsList l)
    (hAll : ∀ i ∈ l,
      1 ≤ (s.slots i).location.toNat ∧
      (s.slots i).location.toNat ≤ 1999 ∧
      ∀ j ∈ l,
        (s.slots j).location = (s.slots i).location →
          j = i) :
    s.Separate := by
  intro i hi
  rw [hList.listed_iff] at hi
  simp only [hList.listed_iff]
  exact hAll i hi

theorem add_nodeOne :
    (Blink.init (fun _ => 0)).call (.add nodeOne) =
      some (0, (Blink.init (fun _ => 0)).insertFront nodeOne
        firstSlot) := by
  have hMalloc : (Blink.init (fun _ => 0)).malloc =
      some firstSlot :=
    Blink.malloc_eq_first rfl
  rw [Blink.call, Blink.ioctlAdd, if_neg (by decide),
    hMalloc]

theorem add_nodeTwo
    (c d : UInt8) :
    ((Blink.init (fun _ => 0)).insertFront nodeOne
        firstSlot).call (.add (nodeTwo c d)) =
      some (0, twoNodes c d) := by
  have hMalloc : ((Blink.init (fun _ => 0)).insertFront
      nodeOne firstSlot).malloc = some secondSlot := by
    rw [Blink.malloc_eq_some_iff]
    refine ⟨rfl, ?_⟩
    intro j hj
    have hFirst : j = firstSlot :=
      Fin.ext (Nat.lt_one_iff.mp hj)
    rw [hFirst]
    decide
  have hRange : ¬ (nodeTwo c d).location.toNat ≥ 80 * 25 := by
    simp [nodeTwo]
  rw [Blink.call, Blink.ioctlAdd, if_neg hRange, hMalloc]
  rfl

theorem sync_twoNodes
    (c d : UInt8) :
    (twoNodes c d).call syncTwo =
      some (0,
        (twoNodes c d).syncCopy firstSlot secondSlot) := by
  have hList := twoNodes_isList c d
  rw [syncTwo, Blink.call, Blink.ioctlSync,
    Blink.findHelper_eq hList, Blink.findHelper_eq hList]
  rfl

theorem twoNodes_separated
    (c d : UInt8) :
    Separated (fun _ => 0)
      [.add nodeOne, .add (nodeTwo c d), syncTwo] := by
  have hOne : ((Blink.init (fun _ => 0)).insertFront nodeOne
      firstSlot).IsList [firstSlot] :=
    Blink.insertFront_isList (Blink.init_holds _).isList
      nodeOne (by simp)
  have hTwo := twoNodes_isList c d
  have hThree := ((Blink.syncCopy_sameList (twoNodes c d)
    firstSlot secondSlot).isList_iff _).mpr hTwo
  have hPlaces : ∀ i ∈ [secondSlot, firstSlot],
      1 ≤ ((twoNodes c d).slots i).location.toNat ∧
      ((twoNodes c d).slots i).location.toNat ≤ 1999 ∧
      ∀ j ∈ [secondSlot, firstSlot],
        ((twoNodes c d).slots j).location =
          ((twoNodes c d).slots i).location → j = i := by
    have hFirst : ((twoNodes c d).slots firstSlot).location =
        1 := rfl
    have hSecond :
        ((twoNodes c d).slots secondSlot).location = 2 := rfl
    simp [hFirst, hSecond]
  rw [separated_iff_along]
  refine ⟨⟨_, _, rfl, add_nodeOne, ?_⟩, ?_⟩
  · apply Blink.separate_of hOne
    have hFirst : (((Blink.init (fun _ => 0)).insertFront
        nodeOne firstSlot).slots firstSlot).location = 1 :=
      rfl
    simp [hFirst]
  rw [Blink.step_some add_nodeOne]
  refine ⟨⟨_, _, rfl, add_nodeTwo c d, ?_⟩, ?_⟩
  · exact Blink.separate_of hTwo hPlaces
  rw [Blink.step_some (add_nodeTwo c d)]
  refine ⟨⟨_, _, rfl, sync_twoNodes c d, ?_⟩, trivial⟩
  apply Blink.separate_of hThree
  simp only [(Blink.syncCopy_sameList _ _ _).location]
  exact hPlaces

/-
  The second node has one character, and the cells follow
  the status.
-/
theorem blink_display_follows_oneChar :
    Separated (fun _ => 0)
        [.add nodeOne, .add (nodeTwo 67 67), syncTwo] ∧
      FollowsStatus (fun _ => 0)
        [.add nodeOne, .add (nodeTwo 67 67), syncTwo] := by
  have hSeparated := twoNodes_separated 67 67
  refine ⟨hSeparated, ?_⟩
  rw [blink_display_follows_iff hSeparated]
  have hAll : Logic.Along Blink.step
      (fun o e => ∀ s, o = some s → s.SyncsOff e)
      (some (Blink.init (fun _ => 0)))
      [.add nodeOne, .add (nodeTwo 67 67), syncTwo] := by
    refine ⟨fun _ _ => trivial, fun _ _ => trivial, ?_,
      trivial⟩
    rw [Blink.step_some add_nodeOne,
      Blink.step_some (add_nodeTwo 67 67)]
    intro s hSome i j _ hj _ hPlace
    right
    rw [← Option.some.inj hSome] at hj hPlace ⊢
    rw [(twoNodes_isList 67 67).listed_iff] at hj
    simp only [List.mem_cons, List.not_mem_nil, or_false]
      at hj
    rcases hj with rfl | rfl
    · rfl
    · exact absurd hPlace (by decide +kernel)
  rw [Logic.along_iff_forall_split] at hAll
  exact hAll

/-
  The second node is on after the `sync`, and its cell shows
  the character of the off status.
-/
theorem blink_display_lost :
    Separated (fun _ => 0)
        [.add nodeOne, .add (nodeTwo 67 68), syncTwo] ∧
      ¬ FollowsStatus (fun _ => 0)
        [.add nodeOne, .add (nodeTwo 67 68), syncTwo] := by
  refine ⟨twoNodes_separated 67 68, ?_⟩
  intro hFollows
  rcases hFollows [.add nodeOne, .add (nodeTwo 67 68)]
    syncTwo [] rfl with
    ⟨s, r, s', hAfter, hCall, hShows, _⟩
  have hState : twoNodes 67 68 = s := by
    rw [Blink.after, Logic.run_cons, Logic.run_cons,
      Logic.run_nil, Blink.step_some add_nodeOne,
      Blink.step_some (add_nodeTwo 67 68)] at hAfter
    exact Option.some.inj hAfter
  rw [← hState, sync_twoNodes] at hCall
  have hState' := (Prod.mk.inj (Option.some.inj hCall)).2
  rw [← hState'] at hShows
  have hList := ((Blink.syncCopy_sameList (twoNodes 67 68)
    firstSlot secondSlot).isList_iff _).mpr
    (twoNodes_isList 67 68)
  have hCell := hList.shows_iff.mp hShows secondSlot
    List.mem_cons_self
  unfold Blink.ShowsAt at hCell
  exact absurd hCell (by decide +kernel)

end MartianPendulum
