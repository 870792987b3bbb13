import MartianPendulum.Fish.BlinkDisplay

/-
  The characters of the fish program over time.

  From its `add` on, a node is on for its first length of
  ticks, then off for its second one, and so on.  After any
  number of ticks its cell shows the character of the phase
  it is in, and the rest of the video memory is as it was.
  A node that is removed leaves its character behind.

  Key definitions include:
    * `BlinkArg.shownAt`
    * `BlinkArg.Aged`
    * `Blink.Plays`

  Key theorems include:
    * `BlinkArg.Aged.tick`
    * `Blink.Plays.add`
    * `Blink.Plays.tasklet`
    * `Blink.Plays.sync`
    * `Blink.Plays.remove`
-/

------------------------------------------------------------
-- Phases
------------------------------------------------------------

namespace MartianPendulum

namespace BlinkArg

/- The ticks since the character last went on. -/
def phase
    (arg : BlinkArg)
    (k : Nat) : Nat :=
  k % (arg.onLength.toNat + arg.offLength.toNat)

def isOn
    (arg : BlinkArg)
    (k : Nat) : Bool :=
  arg.phase k < arg.onLength.toNat

/- The character after `k` ticks. -/
def shownAt
    (arg : BlinkArg)
    (k : Nat) : UInt8 :=
  if arg.isOn k then arg.onChar else arg.offChar

/- The ticks left until the character changes. -/
def remaining
    (arg : BlinkArg)
    (k : Nat) : Nat :=
  if arg.isOn k then arg.onLength.toNat - arg.phase k
  else arg.onLength.toNat + arg.offLength.toNat - arg.phase k

/-
  The location is on the screen and not the one of free
  slots; the lengths pass the signed test of the countdown.
-/
structure Valid
    (arg : BlinkArg) : Prop where
  low : 1 ≤ arg.location.toNat
  high : arg.location.toNat ≤ 1999
  onPos : 0 < arg.onLength.toNat
  onShort : arg.onLength.toNat < 2 ^ 15
  offPos : 0 < arg.offLength.toNat
  offShort : arg.offLength.toNat < 2 ^ 15

/- The node of the argument, `k` ticks after its `add`. -/
structure Aged
    (arg : BlinkArg)
    (k : Nat)
    (n : BlinkNode) : Prop where
  location : n.location = arg.location
  onChar : n.onChar = arg.onChar
  offChar : n.offChar = arg.offChar
  onLength : n.onLength = arg.onLength
  offLength : n.offLength = arg.offLength
  status : n.status &&& 1 = 0 ↔ arg.isOn k = false
  countdown : n.countdown.toNat = arg.remaining k

variable {arg : BlinkArg}
variable {k : Nat}

/- The phase moves on by one and starts again at the end. -/
theorem phase_succ
    (hValid : arg.Valid) :
    arg.phase (k + 1) =
      if arg.phase k + 1 =
          arg.onLength.toNat + arg.offLength.toNat then 0
      else arg.phase k + 1 := by
  have hPos : 0 < arg.onLength.toNat + arg.offLength.toNat :=
    Nat.add_pos_left hValid.onPos _
  have hLt := Nat.mod_lt k hPos
  unfold phase at *
  rw [Nat.add_mod_eq_ite]
  have hOne : 1 % (arg.onLength.toNat +
      arg.offLength.toNat) = 1 :=
    Nat.mod_eq_of_lt (by
      have := hValid.onPos
      have := hValid.offPos
      omega)
  rw [hOne]
  split <;> split <;> omega

theorem Aged.shown
    {n : BlinkNode}
    (hAged : arg.Aged k n) :
    n.shown = arg.shownAt k := by
  unfold BlinkNode.shown shownAt
  rw [hAged.onChar, hAged.offChar]
  by_cases hOn : arg.isOn k = true
  · have hStatus : ¬ n.status &&& 1 = 0 := by
      rw [hAged.status, hOn]
      decide
    rw [if_neg hStatus, if_pos hOn]
  · have hStatus : n.status &&& 1 = 0 := by
      rw [hAged.status]
      exact Bool.eq_false_iff.mpr hOn
    rw [if_pos hStatus, if_neg hOn]

end BlinkArg

end MartianPendulum

------------------------------------------------------------
-- One Tick
------------------------------------------------------------

namespace MartianPendulum

namespace BlinkNode

/- What a tick makes of a node. -/
def ticked
    (n : BlinkNode) : BlinkNode :=
  let countdown := n.countdown - 1
  if 0 < countdown.toBitVec.toInt then
    { n with countdown := countdown }
  else if n.status &&& 1 = 0 then
    { n with
      countdown := n.onLength
      status := n.status ^^^ 1 }
  else
    { n with
      countdown := n.offLength
      status := n.status ^^^ 1 }

theorem countdown_pos_iff
    {n : BlinkNode}
    (hPos : 0 < n.countdown.toNat)
    (hShort : n.countdown.toNat < 2 ^ 15) :
    (n.countdown - 1).toNat = n.countdown.toNat - 1 ∧
      (0 < (n.countdown - 1).toBitVec.toInt ↔
        1 < n.countdown.toNat) := by
  have hOne : (1 : UInt16) ≤ n.countdown := by
    rw [UInt16.le_iff_toNat_le]
    exact hPos
  have hNat : (n.countdown - 1).toNat =
      n.countdown.toNat - 1 :=
    UInt16.toNat_sub_of_le _ _ hOne
  have hBits : (n.countdown - 1).toBitVec.toNat =
      n.countdown.toNat - 1 := hNat
  refine ⟨hNat, ?_⟩
  rw [BitVec.toInt_eq_toNat_of_lt (by omega), hBits]
  omega

end BlinkNode

namespace BlinkArg

variable {arg : BlinkArg}
variable {k : Nat}
variable {n : BlinkNode}

theorem isOn_iff :
    arg.isOn k = true ↔ arg.phase k < arg.onLength.toNat :=
  decide_eq_true_iff

theorem isOn_eq_false_iff :
    arg.isOn k = false ↔ arg.onLength.toNat ≤ arg.phase k := by
  rw [isOn, decide_eq_false_iff_not, Nat.not_lt]

theorem phase_lt
    (hValid : arg.Valid) :
    arg.phase k <
      arg.onLength.toNat + arg.offLength.toNat :=
  Nat.mod_lt _ (Nat.add_pos_left hValid.onPos _)

theorem remaining_of_on
    (hOn : arg.isOn k = true) :
    arg.remaining k = arg.onLength.toNat - arg.phase k :=
  if_pos hOn

theorem remaining_of_off
    (hOff : arg.isOn k = false) :
    arg.remaining k =
      arg.onLength.toNat + arg.offLength.toNat -
        arg.phase k :=
  if_neg (Bool.eq_false_iff.mp hOff)

theorem remaining_bounds
    (hValid : arg.Valid) :
    0 < arg.remaining k ∧ arg.remaining k < 2 ^ 15 := by
  have hPhase := phase_lt (k := k) hValid
  have hOnShort := hValid.onShort
  have hOffShort := hValid.offShort
  cases hOn : arg.isOn k with
  | true =>
      rw [remaining_of_on hOn]
      rw [isOn_iff] at hOn
      omega
  | false =>
      rw [remaining_of_off hOn]
      rw [isOn_eq_false_iff] at hOn
      omega

/- Before the last tick of a phase only the count changes. -/
theorem stays
    (hValid : arg.Valid)
    (hMore : 1 < arg.remaining k) :
    arg.isOn (k + 1) = arg.isOn k ∧
      arg.remaining (k + 1) = arg.remaining k - 1 := by
  have hNext := phase_succ (k := k) hValid
  cases hOn : arg.isOn k with
  | true =>
      rw [remaining_of_on hOn] at hMore ⊢
      rw [if_neg (by omega)] at hNext
      have hStill : arg.isOn (k + 1) = true := by
        rw [isOn_iff]
        omega
      rw [remaining_of_on hStill]
      exact ⟨hStill, by omega⟩
  | false =>
      rw [remaining_of_off hOn] at hMore ⊢
      rw [if_neg (by omega)] at hNext
      rw [isOn_eq_false_iff] at hOn
      have hStill : arg.isOn (k + 1) = false := by
        rw [isOn_eq_false_iff]
        omega
      rw [remaining_of_off hStill]
      exact ⟨hStill, by omega⟩

/- The last tick of a phase starts the other one. -/
theorem turns
    (hValid : arg.Valid)
    (hLast : arg.remaining k = 1) :
    arg.isOn (k + 1) = !arg.isOn k ∧
      arg.remaining (k + 1) =
        if arg.isOn k then arg.offLength.toNat
        else arg.onLength.toNat := by
  have hNext := phase_succ (k := k) hValid
  have hOnPos := hValid.onPos
  have hOffPos := hValid.offPos
  cases hOn : arg.isOn k with
  | true =>
      rw [remaining_of_on hOn] at hLast
      rw [if_neg (by omega)] at hNext
      have hOff : arg.isOn (k + 1) = false := by
        rw [isOn_eq_false_iff]
        omega
      rw [remaining_of_off hOff, if_pos rfl]
      exact ⟨hOff, by omega⟩
  | false =>
      rw [remaining_of_off hOn] at hLast
      rw [if_pos (by omega)] at hNext
      have hAgain : arg.isOn (k + 1) = true := by
        rw [isOn_iff]
        omega
      rw [remaining_of_on hAgain,
        if_neg (by decide)]
      exact ⟨hAgain, by omega⟩

/- A node ages by a tick. -/
theorem Aged.tick
    (hValid : arg.Valid)
    (hAged : arg.Aged k n) :
    arg.Aged (k + 1) n.ticked := by
  have hBounds := remaining_bounds (k := k) hValid
  have hFlip := Blink.xor_one_bit n.status
  rw [← hAged.countdown] at hBounds
  rcases BlinkNode.countdown_pos_iff hBounds.1 hBounds.2 with
    ⟨hLess, hTest⟩
  rw [hAged.countdown] at hLess hTest
  unfold BlinkNode.ticked
  by_cases hMore : 1 < arg.remaining k
  · rcases stays hValid hMore with ⟨hOn, hLeft⟩
    simp only [hTest, hMore, if_true]
    refine ⟨hAged.location, hAged.onChar, hAged.offChar,
      hAged.onLength, hAged.offLength, ?_, ?_⟩
    · rw [hOn]
      exact hAged.status
    · rw [hLeft]
      exact hLess
  · have hLast : arg.remaining k = 1 := by
      have hPos := hBounds.1
      rw [hAged.countdown] at hPos
      omega
    rcases turns hValid hLast with ⟨hOn, hLeft⟩
    simp only [hTest, hMore, if_false]
    split
    next hOff =>
      have hWas := hAged.status.mp hOff
      rw [hWas] at hOn hLeft
      refine ⟨hAged.location, hAged.onChar, hAged.offChar,
        hAged.onLength, hAged.offLength, ?_, ?_⟩
      · simp only [hFlip, hOff, hOn]
        decide
      · rw [hLeft]
        exact congrArg UInt16.toNat hAged.onLength
    next hStatus =>
      have hWas : arg.isOn k = true := by
        rw [← Bool.not_eq_false]
        exact fun hOff => hStatus (hAged.status.mpr hOff)
      rw [hWas] at hOn hLeft
      refine ⟨hAged.location, hAged.onChar, hAged.offChar,
        hAged.onLength, hAged.offLength, ?_, ?_⟩
      · simp only [hFlip, hStatus, hOn]
        decide
      · rw [hLeft]
        exact congrArg UInt16.toNat hAged.offLength

end BlinkArg

namespace Blink

theorem tick_slots
    (s : Blink)
    (i : Slot) :
    (s.tick i).slots =
      Function.update s.slots i (s.slots i).ticked := by
  simp only [tick, BlinkNode.ticked]
  split
  · rfl
  · split
    · rfl
    · rfl

theorem tick_vmem_of_ne
    (s : Blink)
    (i : Slot)
    {a : Nat}
    (ha : a ≠ (s.slots i).location.toNat <<< 1) :
    (s.tick i).vmem a = s.vmem a := by
  simp only [tick]
  split
  · rfl
  · split
    · exact Function.update_of_ne ha _ _
    · exact Function.update_of_ne ha _ _

end Blink

end MartianPendulum

------------------------------------------------------------
-- The Whole List
------------------------------------------------------------

namespace MartianPendulum

namespace Blink

/- The cell of an argument in the video memory. -/
def cell
    (arg : BlinkArg) : Nat :=
  arg.location.toNat <<< 1

/- An argument of `add`, and the ticks since the call. -/
structure Actor where
  arg : BlinkArg
  age : Nat

/-
  The list holds a node for each actor, as old as it says
  and shown, and no other cell has changed.
-/
structure Plays
    (vmem : Nat → UInt8)
    (cast : List Actor)
    (l : List Slot)
    (s : Blink) : Prop where
  holds : s.Holds l
  aged : List.Forall₂
    (fun i p => p.arg.Aged p.age (s.slots i)) l cast
  valid : ∀ p ∈ cast, p.arg.Valid
  apart : (cast.map (fun p => p.arg.location)).Nodup
  shows : ∀ i ∈ l, s.ShowsAt i
  others : ∀ a, (∀ p ∈ cast, a ≠ cell p.arg) →
    s.vmem a = vmem a

variable {vmem : Nat → UInt8}
variable {cast : List Actor}
variable {l : List Slot}
variable {s : Blink}

theorem plays_init
    (vmem : Nat → UInt8) :
    (init vmem).Plays vmem [] [] := by
  refine ⟨init_holds vmem, .nil, ?_, List.nodup_nil, ?_, ?_⟩
  · intro p hp
    cases hp
  · intro i hi
    cases hi
  · intro a _
    rfl

/- Every node is the node of an actor. -/
theorem Plays.exists_actor
    (hPlays : s.Plays vmem cast l)
    {i : Slot}
    (hi : i ∈ l) :
    ∃ p ∈ cast, p.arg.Aged p.age (s.slots i) := by
  have hAged := hPlays.aged
  clear hPlays
  induction hAged with
  | nil => cases hi
  | cons hHead _ ih =>
      rcases List.mem_cons.mp hi with rfl | hTail
      · exact ⟨_, List.mem_cons_self, hHead⟩
      · rcases ih hTail with ⟨p, hp, hNode⟩
        exact ⟨p, List.mem_cons_of_mem _ hp, hNode⟩

/- Every actor has its node. -/
theorem Plays.exists_slot
    (hPlays : s.Plays vmem cast l)
    {p : Actor}
    (hp : p ∈ cast) :
    ∃ i ∈ l, p.arg.Aged p.age (s.slots i) := by
  have hAged := hPlays.aged
  clear hPlays
  induction hAged with
  | nil => cases hp
  | cons hHead _ ih =>
      rcases List.mem_cons.mp hp with rfl | hTail
      · exact ⟨_, List.mem_cons_self, hHead⟩
      · rcases ih hTail with ⟨i, hi, hNode⟩
        exact ⟨i, List.mem_cons_of_mem _ hi, hNode⟩

/- The cell of an actor shows its character. -/
theorem Plays.vmem_cell
    (hPlays : s.Plays vmem cast l)
    {p : Actor}
    (hp : p ∈ cast) :
    s.vmem (cell p.arg) = p.arg.shownAt p.age := by
  rcases hPlays.exists_slot hp with ⟨i, hi, hAged⟩
  have hShows := hPlays.shows i hi
  rw [ShowsAt, hAged.location, hAged.shown] at hShows
  exact hShows

theorem Plays.map_location
    (hPlays : s.Plays vmem cast l) :
    l.map (fun i => (s.slots i).location) =
      cast.map (fun p => p.arg.location) := by
  have hAged := hPlays.aged
  clear hPlays
  induction hAged with
  | nil => rfl
  | cons hHead _ ih =>
      rw [List.map_cons, List.map_cons, hHead.location, ih]

/- Two nodes of the list are at two locations. -/
theorem Plays.locations
    (hPlays : s.Plays vmem cast l) :
    ∀ i ∈ l, ∀ j ∈ l, j ≠ i →
      (s.slots j).location ≠ (s.slots i).location := by
  have hNodup := hPlays.apart
  rw [← hPlays.map_location] at hNodup
  intro i hi j hj hNe hEq
  exact hNe (List.inj_on_of_nodup_map hNodup hj hi hEq)

/- The locations 1 to 1999 leave a slot free. -/
theorem Plays.length_lt
    (hPlays : s.Plays vmem cast l) :
    cast.length < numSlots := by
  have hNodup : (cast.map (fun p =>
      p.arg.location.toNat)).Nodup := by
    have hApart := hPlays.apart.map
      (f := UInt16.toNat) (fun _ _ => UInt16.toNat_inj.mp)
    rw [List.map_map] at hApart
    exact hApart
  have hRange : cast.map (fun p => p.arg.location.toNat) ⊆
      List.range' 1 1999 := by
    intro n hn
    rcases List.mem_map.mp hn with ⟨p, hp, rfl⟩
    have hLow := (hPlays.valid p hp).low
    have hHigh := (hPlays.valid p hp).high
    rw [List.mem_range'_1]
    omega
  have hLength := (hNodup.subperm hRange).length_le
  rw [List.length_map, List.length_range'] at hLength
  unfold numSlots
  omega

/- There is a free slot, and it is not in the list. -/
theorem Plays.malloc_fresh
    (hPlays : s.Plays vmem cast l) :
    ∃ i, s.malloc = some i ∧ i ∉ l := by
  cases hMalloc : s.malloc with
  | none =>
      -- every slot is listed, and there are too few nodes
      rw [malloc_eq_none_iff] at hMalloc
      have hAll : ∀ i, i ∈ l := by
        intro i
        by_contra hi
        exact hMalloc i (hPlays.holds.free i hi)
      have hSub := (List.nodup_finRange numSlots).subperm
        (fun i _ => hAll i)
      have hLength := hSub.length_le
      rw [List.length_finRange, hPlays.aged.length_eq]
        at hLength
      exact absurd hPlays.length_lt (Nat.not_lt.mpr hLength)
  | some i =>
      refine ⟨i, rfl, ?_⟩
      intro hi
      rw [malloc_eq_some_iff] at hMalloc
      rcases hPlays.exists_actor hi with ⟨p, hp, hAged⟩
      have hLow := (hPlays.valid p hp).low
      rw [← hAged.location, hMalloc.1] at hLow
      exact absurd hLow (by decide)

theorem aged_addNode
    {arg : BlinkArg}
    (hValid : arg.Valid)
    (s : Blink) :
    arg.Aged 0 (s.addNode arg) := by
  have hPhase : arg.phase 0 = 0 := Nat.zero_mod _
  have hOn : arg.isOn 0 = true := by
    rw [BlinkArg.isOn_iff, hPhase]
    exact hValid.onPos
  have hStatus : (1 : UInt16) &&& 1 = 0 ↔ true = false := by
    decide
  refine ⟨rfl, rfl, rfl, rfl, rfl, ?_, ?_⟩
  · rw [hOn]
    exact hStatus
  · rw [BlinkArg.remaining_of_on hOn, hPhase]
    rfl

/- Slots that are unchanged hold the same nodes. -/
theorem aged_of_same
    {s' : Blink}
    (hSame : ∀ i ∈ l, s'.slots i = s.slots i)
    (hAged : List.Forall₂
      (fun i p => p.arg.Aged p.age (s.slots i)) l cast) :
    List.Forall₂
      (fun i p => p.arg.Aged p.age (s'.slots i)) l cast := by
  induction hAged with
  | nil => exact .nil
  | cons hHead _ ih =>
      refine .cons ?_ ?_
      · rw [hSame _ List.mem_cons_self]
        exact hHead
      · exact ih (fun i hi =>
          hSame i (List.mem_cons_of_mem _ hi))

/- A node added, at a location that is not taken. -/
theorem Plays.add
    (hPlays : s.Plays vmem cast l)
    {arg : BlinkArg}
    (hValid : arg.Valid)
    (hNew : arg.location ∉
      cast.map (fun p => p.arg.location)) :
    ∃ l', (s.ioctlAdd arg).2.Plays vmem (⟨arg, 0⟩ :: cast)
      l' := by
  rcases hPlays.malloc_fresh with ⟨i, hMalloc, hi⟩
  have hRange : ¬ arg.location.toNat ≥ 80 * 25 := by
    have hHigh := hValid.high
    omega
  have hAdd : s.ioctlAdd arg = (0, s.insertFront arg i) := by
    simp only [ioctlAdd, hRange, if_false, hMalloc]
  have hSelf : (s.insertFront arg i).slots i =
      s.addNode arg :=
    Function.update_self i _ s.slots
  have hOld : ∀ j ∈ l, (s.insertFront arg i).slots j =
      s.slots j := by
    intro j hj
    have hNe : j ≠ i := by
      rintro rfl
      exact hi hj
    exact Function.update_of_ne hNe _ _
  rw [hAdd]
  refine ⟨i :: l, insertFront_holds hPlays.holds arg hi,
    ?_, ?_, ?_, ?_, ?_⟩
  · refine .cons ?_ ?_
    · rw [hSelf]
      exact aged_addNode hValid s
    · exact aged_of_same hOld hPlays.aged
  · intro p hp
    rcases List.mem_cons.mp hp with rfl | hp
    · exact hValid
    · exact hPlays.valid p hp
  · rw [List.map_cons, List.nodup_cons]
    exact ⟨hNew, hPlays.apart⟩
  · have hTail : ∀ j ∈ i :: l, j ≠ i → j ∈ l := by
      intro j hj hNe
      exact (List.mem_cons.mp hj).resolve_left hNe
    refine (write_shows_iff (n := s.addNode arg)
      List.mem_cons_self
      (fun j hj hNe => hPlays.shows j (hTail j hj hNe))
      ?_).mpr ?_
    · intro j hj hNe hEq
      apply hNew
      rw [← hPlays.map_location, List.mem_map]
      exact ⟨j, hTail j hj hNe, hEq⟩
    · have hOn : ¬ (1 : UInt16) &&& 1 = 0 := by decide
      simp only [BlinkNode.shown, addNode, hOn, if_false]
  · intro a ha
    have hCell : a ≠ cell arg := ha _ List.mem_cons_self
    rw [← hPlays.others a (fun p hp =>
      ha p (List.mem_cons_of_mem _ hp))]
    exact Function.update_of_ne hCell _ _

/- Nodes added one after the other. -/
def addAll
    (args : List BlinkArg)
    (s : Blink) : Blink :=
  args.foldl (fun s arg => (s.ioctlAdd arg).2) s

/- Nodes added at different places. -/
theorem Plays.addAll
    (hPlays : s.Plays vmem cast l)
    {args : List BlinkArg}
    (hValid : ∀ arg ∈ args, arg.Valid)
    (hApart : (args.map BlinkArg.location).Nodup)
    (hNew : ∀ arg ∈ args, arg.location ∉
      cast.map (fun p => p.arg.location)) :
    ∃ l', (s.addAll args).Plays vmem
      ((args.map (fun arg => ⟨arg, 0⟩)).reverse ++ cast)
      l' := by
  induction args generalizing cast l s with
  | nil => exact ⟨l, hPlays⟩
  | cons arg args ih =>
      rw [List.map_cons, List.nodup_cons] at hApart
      rcases hPlays.add (hValid arg List.mem_cons_self)
          (hNew arg List.mem_cons_self) with ⟨l₁, hAdded⟩
      rcases ih hAdded
          (fun a ha => hValid a (List.mem_cons_of_mem _ ha))
          hApart.2 (by
            intro a ha hMem
            rcases List.mem_cons.mp hMem with hEq | hOld
            · exact hApart.1
                (List.mem_map.mpr ⟨a, ha, hEq⟩)
            · exact hNew a (List.mem_cons_of_mem _ ha) hOld)
        with ⟨l', hAll⟩
      refine ⟨l', ?_⟩
      rw [List.map_cons, List.reverse_cons,
        List.append_assoc]
      exact hAll

/- The ticks of a tasklet reach every slot of the list once. -/
theorem foldl_tick_slots
    (hNodup : l.Nodup)
    (s : Blink)
    (i : Slot) :
    (l.foldl tick s).slots i =
      if i ∈ l then (s.slots i).ticked else s.slots i := by
  induction l generalizing s with
  | nil => rfl
  | cons j l ih =>
      rw [List.nodup_cons] at hNodup
      rw [List.foldl_cons, ih hNodup.2, tick_slots]
      by_cases hij : i = j
      · subst hij
        rw [if_neg hNodup.1, if_pos List.mem_cons_self,
          Function.update_self]
      · rw [Function.update_of_ne hij]
        simp only [List.mem_cons, hij, false_or]

theorem foldl_tick_vmem
    (s : Blink)
    {a : Nat}
    (ha : ∀ i ∈ l, a ≠ (s.slots i).location.toNat <<< 1) :
    (l.foldl tick s).vmem a = s.vmem a := by
  induction l generalizing s with
  | nil => rfl
  | cons j l ih =>
      have hSame := tick_sameList s j
      rw [List.foldl_cons, ih, tick_vmem_of_ne]
      · exact ha j List.mem_cons_self
      · intro i hi
        rw [hSame.location]
        exact ha i (List.mem_cons_of_mem _ hi)

/- An actor some ticks later. -/
def Actor.older
    (n : Nat)
    (p : Actor) : Actor :=
  { p with age := p.age + n }

/- The tasklet returns, and every node is a tick older. -/
theorem Plays.tasklet
    (hPlays : s.Plays vmem cast l) :
    ∃ s', s.rtcTasklet = some s' ∧
      s'.Plays vmem (cast.map (Actor.older 1)) l := by
  have hList := hPlays.holds.isList
  have hNodup := Logic.Linked.nodup hList
  refine ⟨_, rtcTasklet_eq hList,
    (foldl_tick_sameList s l).holds hPlays.holds, ?_, ?_, ?_,
    foldl_tick_shows (fun _ hi => hi) hPlays.locations
      hPlays.shows, ?_⟩
  · have hTicked : ∀ i ∈ l, (l.foldl tick s).slots i =
        (s.slots i).ticked := by
      intro i hi
      rw [foldl_tick_slots hNodup, if_pos hi]
    have hAged := hPlays.aged
    have hValid := hPlays.valid
    rw [List.forall₂_map_right_iff]
    rw [List.forall₂_iff_get] at hAged ⊢
    refine ⟨hAged.1, ?_⟩
    intro n hi hp
    rw [hTicked _ (List.get_mem l ⟨n, hi⟩)]
    have hOlder := hValid _ (List.get_mem cast ⟨n, hp⟩)
    exact (hAged.2 n hi hp).tick hOlder
  · intro p hp
    rcases List.mem_map.mp hp with ⟨q, hq, rfl⟩
    exact hPlays.valid q hq
  · rw [List.map_map]
    exact hPlays.apart
  · intro a ha
    rw [foldl_tick_vmem]
    · apply hPlays.others
      intro p hp
      exact ha (p.older 1) (List.mem_map_of_mem hp)
    · intro i hi
      rcases hPlays.exists_actor hi with ⟨p, hp, hAged⟩
      rw [hAged.location]
      exact ha (p.older 1) (List.mem_map_of_mem hp)

/- The search finds the node of an actor. -/
theorem Plays.find
    (hPlays : s.Plays vmem cast l)
    {p : Actor}
    {i : Slot}
    (hi : i ∈ l)
    (hAged : p.arg.Aged p.age (s.slots i))
    {arg : UInt32}
    (hArg : arg.toUInt16 = p.arg.location) :
    s.findHelper arg = some (some i) := by
  rw [findHelper_eq hPlays.holds.isList, hArg]
  congr 1
  cases hFind : l.find? (fun j =>
      (s.slots j).location = p.arg.location) with
  | none =>
      rw [List.find?_eq_none] at hFind
      have hNot := hFind i hi
      rw [hAged.location] at hNot
      simp at hNot
  | some j =>
      have hj := List.mem_of_find?_eq_some hFind
      have hAt : (s.slots j).location = p.arg.location := by
        simpa using List.find?_some hFind
      rw [← hAged.location] at hAt
      by_contra hNe
      exact hPlays.locations i hi j hj
        (fun hEq => hNe (congrArg some hEq)) hAt

/- An actor with the timing of another one. -/
def Actor.synced
    (p q : Actor) : Actor :=
  { arg :=
      { q.arg with
        onLength := p.arg.onLength
        offLength := p.arg.offLength }
    age := p.age }

/-
  `sync` of the last node that was added with one that is
  off.
-/
theorem Plays.sync
    {p q : Actor}
    (hPlays : s.Plays vmem (q :: cast) l)
    (hp : p ∈ cast)
    (hOff : p.arg.isOn p.age = false)
    {arg : UInt32}
    (hFrom : (arg >>> 16).toUInt16 = p.arg.location)
    (hTo : (arg &&& 0xFFFF).toUInt16 = q.arg.location) :
    ∃ s', s.ioctlSync arg = some (0, s') ∧
      s'.Plays vmem (p.synced q :: cast) l := by
  have hMem : p ∈ q :: cast := List.mem_cons_of_mem _ hp
  rcases hPlays.exists_slot hMem with ⟨i, hi, hFirst⟩
  have hAged := hPlays.aged
  rcases List.forall₂_cons_right_iff.mp hAged with
    ⟨j, l', hSecond, hRest, rfl⟩
  have hNodup := Logic.Linked.nodup hPlays.holds.isList
  rw [List.nodup_cons] at hNodup
  have hFindFirst := hPlays.find hi hFirst hFrom
  have hFindSecond := hPlays.find List.mem_cons_self
    hSecond hTo
  have hValid := hPlays.valid p hMem
  have hTarget := hPlays.valid q List.mem_cons_self
  refine ⟨s.syncCopy i j, ?_,
    (syncCopy_sameList s i j).holds hPlays.holds,
    .cons ?_ ?_, ?_, hPlays.apart, ?_, ?_⟩
  · simp only [ioctlSync, hFindFirst, hFindSecond]
  · have hNode : (s.syncCopy i j).slots j = s.syncNode i j :=
      Function.update_self j _ s.slots
    rw [hNode]
    exact ⟨hSecond.location, hSecond.onChar, hSecond.offChar,
      hFirst.onLength, hFirst.offLength, hFirst.status,
      hFirst.countdown⟩
  · apply aged_of_same _ hRest
    intro m hm
    have hNe : m ≠ j := by
      rintro rfl
      exact hNodup.1 hm
    exact Function.update_of_ne hNe _ _
  · intro r hr
    rcases List.mem_cons.mp hr with rfl | hr
    · exact ⟨hTarget.low, hTarget.high, hValid.onPos,
        hValid.onShort, hValid.offPos, hValid.offShort⟩
    · exact hPlays.valid r (List.mem_cons_of_mem _ hr)
  · refine (write_shows_iff (n := s.syncNode i j)
      List.mem_cons_self (fun m hm _ => hPlays.shows m hm)
      (fun m hm hNe => hPlays.locations j
        List.mem_cons_self m hm hNe)).mpr ?_
    have hStatus : (s.slots i).status &&& 1 = 0 :=
      hFirst.status.mpr hOff
    rw [syncChar_eq]
    simp only [BlinkNode.shown, syncNode, hStatus, if_true]
  · intro a ha
    have hCell : a ≠ (s.slots j).location.toNat <<< 1 := by
      rw [hSecond.location]
      exact ha (p.synced q) List.mem_cons_self
    have hSame : (s.syncCopy i j).vmem a = s.vmem a :=
      Function.update_of_ne hCell _ _
    rw [hSame]
    apply hPlays.others
    intro r hr
    rcases List.mem_cons.mp hr with rfl | hr
    · exact ha (p.synced r) List.mem_cons_self
    · exact ha r (List.mem_cons_of_mem _ hr)

/-
  `remove` of the last node that was added: its character
  stays on the screen.
-/
theorem Plays.remove
    {q : Actor}
    (hPlays : s.Plays vmem (q :: cast) l)
    {arg : UInt32}
    (hArg : arg.toUInt16 = q.arg.location) :
    ∃ s' l', s.ioctlRemove arg = some (0, s') ∧
      s'.Plays (Function.update vmem (cell q.arg)
        (q.arg.shownAt q.age)) cast l' := by
  have hAged := hPlays.aged
  rcases List.forall₂_cons_right_iff.mp hAged with
    ⟨i, l', hNode, hRest, rfl⟩
  have hShown := hPlays.vmem_cell List.mem_cons_self
  have hNodup := Logic.Linked.nodup hPlays.holds.isList
  rw [List.nodup_cons] at hNodup
  have hFind := hPlays.find List.mem_cons_self
    hNode hArg
  have hLinked : Logic.Linked s.next (s.load .head)
      ([] ++ i :: l') := hPlays.holds.isList
  have hPrev := @removeFindPrev_eq s i [] l' .head hLinked
    listFuel (by decide)
  have hHolds := @store_free_holds s i [] l' hPlays.holds
  have hSlots : ∀ m ∈ l',
      ((s.store (s.slots i).next .head).free i).slots m =
        s.slots m := by
    intro m hm
    have hNe : m ≠ i := by
      rintro rfl
      exact hNodup.1 hm
    exact Function.update_of_ne hNe _ _
  refine ⟨_, l', ?_, hHolds, aged_of_same hSlots hRest,
    fun r hr => hPlays.valid r (List.mem_cons_of_mem _ hr),
    (List.nodup_cons.mp hPlays.apart).2, ?_, ?_⟩
  · simp only [ioctlRemove, hFind, hPrev]
  · intro m hm
    have hShows := hPlays.shows m (List.mem_cons_of_mem _ hm)
    rw [ShowsAt] at hShows ⊢
    rw [← hSlots m hm] at hShows
    exact hShows
  · intro a ha
    by_cases hCell : a = cell q.arg
    · subst hCell
      rw [Function.update_self]
      exact hShown
    · rw [Function.update_of_ne hCell]
      apply hPlays.others
      intro r hr
      rcases List.mem_cons.mp hr with rfl | hr
      · exact hCell
      · exact ha r hr

end Blink

end MartianPendulum
