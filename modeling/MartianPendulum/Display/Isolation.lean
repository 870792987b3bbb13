import MartianPendulum.Display.Drawing

/-
  Isolation of the terminals' screens.

  The logical screen of a terminal is video memory while it
  is viewed and its own buffer otherwise.  Output of the
  running process reaches the logical screen of its terminal
  only, the keyboard reaches that of the viewed terminal
  only, and a switch of the viewed terminal changes none.

  Key definitions include:
    * `Kernel.screen`
    * `Designates`
    * `ChangesOnly`
    * `SameScreens`
    * `CursorShown`

  Key theorems include:
    * `KeyEffect.isolated`
    * `Steady.step`
    * `screens_isolated_run`
-/

------------------------------------------------------------
-- Logical Screens
------------------------------------------------------------

namespace MartianPendulum

/- A byte of the logical screen of a terminal. -/
def Kernel.screen
    (t : Tid)
    (off : Nat)
    (k : Kernel) : UInt8 :=
  k.mem (k.logicalFrame t * size4K + off)

/-
  Video memory is mapped to the logical screen of the
  running terminal, and the cursor pointers point to its
  cursor.
-/
def Designates
    (g : Control) : Prop :=
  Aimed g g.runningTermPtr
    (g.logicalFrame g.runningTermPtr)

/-
  Nothing of memory and of the cursors changes but the
  logical screen and the cursor of one terminal.
-/
structure ChangesOnly
    (t : Tid)
    (k k' : Kernel) : Prop where
  viewing : k'.viewingTermPtr = k.viewingTermPtr
  mem : ∀ p, p / size4K ≠ k.logicalFrame t →
    k'.mem p = k.mem p
  screen : ∀ u, u ≠ t → ∀ off < size4K,
    k'.screen u off = k.screen u off
  cursor : ∀ u, u ≠ t → k'.cursor u = k.cursor u

/- No logical screen and no cursor changes. -/
structure SameScreens
    (k k' : Kernel) : Prop where
  screen : ∀ t, ∀ off < size4K,
    k'.screen t off = k.screen t off
  cursor : k'.cursor = k.cursor

/- The hardware cursor is where the viewed terminal's is. -/
def CursorShown
    (k : Kernel) : Prop :=
  (k.cursorPos : Int) =
    (k.cursor k.viewingTermPtr).cursorY * 80 +
      (k.cursor k.viewingTermPtr).cursorX

/- Two terminals never share a frame. -/
theorem logicalFrame_injective
    (g : Control) :
    Function.Injective (fun t => g.logicalFrame t) := by
  intro t u hEq
  have hFrames : ∀ view t u : Tid,
      (if t = view then videoPage
        else vidMemBuffer t / size4K) =
      (if u = view then videoPage
        else vidMemBuffer u / size4K) →
      t = u := by
    decide
  exact hFrames g.viewingTermPtr t u hEq

theorem Draws.changesOnly
    {t : Tid}
    {k k' : Kernel}
    (hDraw : Draws t (k.logicalFrame t)
      k.toDisplay k'.toDisplay)
    (hView : k'.viewingTermPtr = k.viewingTermPtr) :
    ChangesOnly t k k' := by
  refine ⟨hView, hDraw.mem, ?_, hDraw.cursor⟩
  intro u hu off hOff
  have hFrame : k'.logicalFrame u = k.logicalFrame u := by
    unfold Control.logicalFrame
    rw [hView]
  have hPage :
      (k.logicalFrame u * size4K + off) / size4K =
        k.logicalFrame u := by
    rw [size4K_eq] at hOff ⊢
    omega
  unfold Kernel.screen
  rw [hFrame]
  apply hDraw.mem
  rw [hPage]
  exact fun hEq => hu (logicalFrame_injective _ hEq)

end MartianPendulum

------------------------------------------------------------
-- Targets of the Remappings
------------------------------------------------------------

namespace MartianPendulum

namespace Layout

variable {g : Control}
variable {frame : Nat}
variable {mapped : Bool}

/- The walk through the page of video memory. -/
theorem walk_video
    (hLayout : Layout g.toPageTables frame mapped)
    (hFrame : frame < 2 ^ 8)
    {off : Nat}
    (hOff : off < size4K) :
    g.walk (videoStart + off) =
      some (frame * size4K + off) := by
  rw [size4K_eq] at hOff
  rw [hLayout.walk_low (by omega) (by
    rw [videoStart_eq, size4M_eq]
    omega), if_pos, Nat.add_sub_cancel_left]
  rw [size4K_eq]
  omega

/- The buffers of the terminals are mapped to themselves. -/
theorem walk_vidMemBuffer
    (hLayout : Layout g.toPageTables frame mapped)
    (hFrame : frame < 2 ^ 8)
    (t : Tid)
    {off : Nat}
    (hOff : off < size4K) :
    g.walk (vidMemBuffer t + off) =
      some (vidMemBuffer t + off) := by
  have hTid := t.isLt
  rw [size4K_eq] at hOff
  unfold vidMemBuffer
  rw [videoStart_eq, size4K_eq]
  rw [hLayout.walk_low (by omega) (by
    rw [size4M_eq]
    omega)]
  rw [videoStart_eq, size4K_eq, if_neg (by omega),
    if_pos (by omega)]

end Layout

theorem Layout.aimed
    {g : Control}
    {t : Tid}
    {frame : Nat}
    {mapped : Bool}
    (hLayout : Layout g.toPageTables frame mapped)
    (hFrame : frame < 2 ^ 8)
    (hX : g.screenXPtr = t)
    (hY : g.screenYPtr = t) :
    Aimed g t frame :=
  ⟨hX, hY, fun _ hOff => hLayout.walk_video hFrame hOff⟩

/- `change_vidmem_mapping` aims at its argument. -/
theorem Layout.aimed_changeVidmemMapping
    {g : Control}
    {frame : Nat}
    {mapped : Bool}
    (hLayout : Layout g.toPageTables frame mapped)
    (t : Tid) :
    Aimed (g.changeVidmemMapping t) t
      (g.logicalFrame t) := by
  have hSet := hLayout.setVideoFrame (g.logicalFrame t)
    (g.termArr t).vidmapFlag
  rw [← g.changeVidmemMapping_tables] at hSet
  exact hSet.aimed (logicalFrame_lt t g) rfl rfl

end MartianPendulum

------------------------------------------------------------
-- The Switch
------------------------------------------------------------

namespace MartianPendulum

/- The memory after both copies of `switch_terminal`. -/
def switchedMem
    (old target : Tid)
    (mem : Ptr) : Ptr :=
  let saved := Logic.blit mem (vidMemBuffer old) size4K
    (fun i => mem (videoStart + i))
  Logic.blit saved videoStart size4K
    (fun i => saved (vidMemBuffer target + i))

/- Both copies go through the mapping of the old terminal. -/
theorem switchTerminal_toDisplay
    {k : Kernel}
    {frame : Nat}
    {mapped : Bool}
    (hLayout : Layout k.toPageTables frame mapped)
    {target : Tid}
    (hNe : target ≠ k.viewingTermPtr) :
    (k.switchTerminal target).toDisplay =
      { k.toDisplay.calibCursor (k.setScreenPtr target) with
        mem := switchedMem k.viewingTermPtr target k.mem
      } := by
  obtain ⟨g, hg⟩ : ∃ g, g = (k.setScreenPtr
    target).changeVidmemMapping k.viewingTermPtr := ⟨_, rfl⟩
  have hCopies : (k.switchTerminal target).toDisplay =
      ((k.toDisplay.calibCursor
        (k.setScreenPtr target)).memcpy g
          (vidMemBuffer k.viewingTermPtr) videoStart
          size4K).memcpy g videoStart
            (vidMemBuffer target) size4K := by
    unfold Kernel.switchTerminal
    rw [if_neg hNe, hg]
    simp only [Kernel.setControl_toControl,
      Kernel.setControl_toDisplay,
      Kernel.setDisplay_toControl,
      Kernel.setDisplay_toDisplay,
      Kernel.setKeyboard_toControl,
      Kernel.setKeyboard_toDisplay]
  have hTables : Layout g.toPageTables videoPage
      (g.termArr k.viewingTermPtr).vidmapFlag := by
    have hSet := hLayout.setVideoFrame
      ((k.setScreenPtr target).logicalFrame
        k.viewingTermPtr)
      (g.termArr k.viewingTermPtr).vidmapFlag
    have hVideo : (k.setScreenPtr target).logicalFrame
        k.viewingTermPtr = videoPage := if_pos rfl
    rw [hVideo] at hSet
    rw [hg, Control.changeVidmemMapping_tables, hVideo]
    rw [hg] at hSet
    exact hSet
  have hVideo : ∀ i < size4K,
      g.walk (videoStart + i) = some (videoStart + i) :=
    fun _ hi => hTables.walk_video (by decide) hi
  have hBuffer : ∀ t : Tid, ∀ i < size4K,
      g.walk (vidMemBuffer t + i) =
        some (vidMemBuffer t + i) :=
    fun t _ hi => hTables.walk_vidMemBuffer (by decide) t hi
  have hApart : ∀ t : Tid,
      videoStart + size4K ≤ vidMemBuffer t := by
    decide
  have hSmall : ∀ t : Tid,
      vidMemBuffer t + size4K ≤ 2 ^ 32 := by
    decide
  rw [hCopies,
    memcpy_eq (hBuffer k.viewingTermPtr) hVideo
      (Or.inr (hApart _)) (hSmall _) (by decide),
    memcpy_eq hVideo (hBuffer target)
      (Or.inl (hApart _)) (by decide) (hSmall _)]
  rfl

/- The copies move each screen to its new frame. -/
theorem switchTerminal_sameScreens
    {k : Kernel}
    {frame : Nat}
    {mapped : Bool}
    (hLayout : Layout k.toPageTables frame mapped)
    {target : Tid}
    (hNe : target ≠ k.viewingTermPtr) :
    SameScreens k (k.switchTerminal target) := by
  have hDisplay := switchTerminal_toDisplay hLayout hNe
  have hMem : (k.switchTerminal target).mem =
      switchedMem k.viewingTermPtr target k.mem :=
    congrArg Display.mem hDisplay
  have hView :
      (k.switchTerminal target).viewingTermPtr = target := by
    rw [Kernel.switchTerminal_toControl, if_neg hNe]
    rfl
  have hCursor : (k.switchTerminal target).cursor =
      k.cursor := by
    rw [hDisplay]
    rfl
  refine ⟨?_, hCursor⟩
  intro t off hOff
  have hFrame : ∀ u : Tid, vidMemBuffer u / size4K * size4K =
      vidMemBuffer u := by
    decide
  have hVideo : videoPage * size4K = videoStart := by decide
  have hBuffer : ∀ u : Tid, vidMemBuffer u =
      753664 + (u.val + 1) * 4096 := by
    intro u
    unfold vidMemBuffer
    rw [videoStart_eq, size4K_eq]
  unfold Kernel.screen Control.logicalFrame switchedMem at *
  rw [hMem, hView]
  rw [size4K_eq] at hOff
  have hFar : k.viewingTermPtr.val ≠ target.val :=
    fun hEq => hNe (Fin.ext hEq).symm
  by_cases hTarget : t = target
  · -- read from the buffer of the target, which is not the
    -- one just saved to
    subst hTarget
    rw [if_pos rfl, if_neg hNe, hVideo, hFrame]
    rw [Logic.blit_apply_of_inside _ _
      (by rw [size4K_eq]; omega), Nat.add_sub_cancel_left]
    apply Logic.blit_apply_of_outside
    rw [hBuffer, hBuffer, size4K_eq]
    omega
  · rw [if_neg hTarget, hFrame]
    rw [Logic.blit_apply_of_outside _ _ (by
      rw [hBuffer, videoStart_eq, size4K_eq]
      omega)]
    by_cases hOld : t = k.viewingTermPtr
    · rw [if_pos hOld, hVideo, hOld]
      rw [Logic.blit_apply_of_inside _ _
        (by rw [size4K_eq]; omega), Nat.add_sub_cancel_left]
    · have hOther : t.val ≠ k.viewingTermPtr.val :=
        fun hEq => hOld (Fin.ext hEq)
      rw [if_neg hOld, hFrame]
      apply Logic.blit_apply_of_outside
      rw [hBuffer, hBuffer, size4K_eq]
      omega

end MartianPendulum

------------------------------------------------------------
-- Keys
------------------------------------------------------------

namespace MartianPendulum

/- Every cursor is on the screen. -/
def AllOnScreen
    (d : Display) : Prop :=
  ∀ t, (d.cursor t).OnScreen

theorem Draws.allOnScreen
    {t : Tid}
    {frame : Nat}
    {d d' : Display}
    (hDraw : Draws t frame d d')
    (hHere : (d'.cursor t).OnScreen)
    (hOn : AllOnScreen d) :
    AllOnScreen d' := by
  intro u
  by_cases hu : u = t
  · rw [hu]
    exact hHere
  · rw [hDraw.cursor u hu]
    exact hOn u

/-
  What a key may change: a key that switches the viewed
  terminal no screen, the others that of the viewed one.
-/
def Stroke.Isolated
    (k k' : Kernel) :
    Stroke → Prop
| .view _ => SameScreens k k'
| _ => ChangesOnly k.viewingTermPtr k k'

structure KeyIsolated
    (k : Kernel)
    (a : Stroke)
    (k' : Kernel) : Prop where
  isolated : a.Isolated k k'
  onScreen : AllOnScreen k'.toDisplay
  cursor : CursorShown k → CursorShown k'

theorem ChangesOnly.refl
    (t : Tid)
    (k : Kernel) :
    ChangesOnly t k k :=
  (Draws.refl t _ k.toDisplay).changesOnly rfl

/- An echo or a clear reaches the viewed terminal only. -/
theorem Shows.keyIsolated
    {k k' : Kernel}
    {a : Stroke}
    (hShow : Shows k.viewingTermPtr
      (k.logicalFrame k.viewingTermPtr)
      k.toDisplay k'.toDisplay)
    (hView : k'.viewingTermPtr = k.viewingTermPtr)
    (hOn : AllOnScreen k.toDisplay)
    (hStroke : ∀ t, a ≠ .view t) :
    KeyIsolated k a k' := by
  have hOnly := hShow.draws.changesOnly hView
  refine ⟨?_, hShow.draws.allOnScreen hShow.onScreen hOn,
    ?_⟩
  · cases a with
    | view t => exact absurd rfl (hStroke t)
    | flags => exact hOnly
    | erase => exact hOnly
    | clear => exact hOnly
    | type c => exact hOnly
  · intro _
    unfold CursorShown
    rw [hView]
    exact hShow.cursorPos

namespace Kernel

theorem echo_shows
    {k : Kernel}
    {frame : Nat}
    {mapped : Bool}
    (hLayout : Layout k.toPageTables frame mapped)
    (hOn : AllOnScreen k.toDisplay)
    (c : UInt8) :
    Shows k.viewingTermPtr
      (k.logicalFrame k.viewingTermPtr)
      k.toDisplay (k.echo c).toDisplay :=
  (hLayout.aimed_changeVidmemMapping
    k.viewingTermPtr).echo c k.toDisplay (hOn _)

theorem clear_shows
    {k : Kernel}
    {frame : Nat}
    {mapped : Bool}
    (hLayout : Layout k.toPageTables frame mapped) :
    Shows k.viewingTermPtr
      (k.logicalFrame k.viewingTermPtr)
      k.toDisplay k.clear.toDisplay :=
  (hLayout.aimed_changeVidmemMapping
    k.viewingTermPtr).clear k.toDisplay

end Kernel

theorem KeyEffect.isolated
    {k k' : Kernel}
    {a : Stroke}
    (hEffect : KeyEffect k a k')
    {frame : Nat}
    {mapped : Bool}
    (hLayout : Layout k.toPageTables frame mapped)
    (hOn : AllOnScreen k.toDisplay) :
    KeyIsolated k a k' := by
  cases hEffect with
  | flags b hLines =>
      have hDraw : Draws k.viewingTermPtr
          (k.logicalFrame k.viewingTermPtr)
          k.toDisplay { k with toKeyboard := b }.toDisplay :=
        .refl _ _ _
      exact ⟨hDraw.changesOnly rfl, hOn, id⟩
  | eraseNone hPos => exact ⟨.refl _ k, hOn, id⟩
  | erase hPos =>
      have hShow := Kernel.echo_shows hLayout hOn
        Display.backspace
      exact Shows.keyIsolated hShow rfl hOn (by simp)
  | stay => exact ⟨⟨fun _ _ _ => rfl, rfl⟩, hOn, id⟩
  | view t hNe =>
      have hSame := switchTerminal_sameScreens hLayout hNe
      have hView :
          (k.switchTerminal t).viewingTermPtr = t := by
        rw [Kernel.switchTerminal_toControl, if_neg hNe]
        rfl
      refine ⟨hSame, ?_, ?_⟩
      · intro u
        rw [hSame.cursor]
        exact hOn u
      · intro _
        have hPos := congrArg Display.cursorPos
          (switchTerminal_toDisplay hLayout hNe)
        unfold CursorShown
        rw [hView, hSame.cursor, hPos]
        exact calibCursor_pos (g := k.setScreenPtr t)
          rfl rfl (hOn t)
  | clear =>
      have hShow := Kernel.clear_shows hLayout
      exact Shows.keyIsolated hShow rfl hOn (by simp)
  | type c hChar =>
      have hShow := Kernel.echo_shows hLayout hOn c
      exact Shows.keyIsolated hShow rfl hOn (by simp)

end MartianPendulum

------------------------------------------------------------
-- System Calls
------------------------------------------------------------

namespace MartianPendulum

/-
  The cursors stay on the screen, and the hardware cursor
  stays on the cursor of one terminal.
-/
structure Keeps
    (view : Tid)
    (d d' : Display) : Prop where
  onScreen : AllOnScreen d → AllOnScreen d'
  cursor : AllOnScreen d →
    (d.cursorPos : Int) = (d.cursor view).pos →
      (d'.cursorPos : Int) = (d'.cursor view).pos

namespace Keeps

variable {view : Tid}

theorem refl
    (d : Display) :
    Keeps view d d :=
  ⟨id, fun _ => id⟩

theorem trans
    {d₁ d₂ d₃ : Display}
    (h₁ : Keeps view d₁ d₂)
    (h₂ : Keeps view d₂ d₃) :
    Keeps view d₁ d₃ :=
  ⟨fun hOn => h₂.onScreen (h₁.onScreen hOn),
    fun hOn hPos =>
      h₂.cursor (h₁.onScreen hOn) (h₁.cursor hOn hPos)⟩

/- A change of memory alone. -/
theorem of_mem
    {d : Display}
    (mem : Ptr) :
    Keeps view d { d with mem := mem } :=
  ⟨id, fun _ => id⟩

theorem store
    (g : Control)
    (v : Int)
    (b : UInt8)
    (d : Display) :
    Keeps view d (d.store g v b) := by
  unfold Display.store
  split
  · exact .of_mem _
  · exact .refl d

theorem loadProgram
    (fs : FileSystem)
    (inode : Nat)
    (g : Control)
    (d : Display) :
    Keeps view d (d.loadProgram fs inode g) := by
  unfold Display.loadProgram
  split
  · exact .of_mem _
  · exact .refl d

/- Output of the running terminal. -/
theorem putBytes
    {g : Control}
    (hAim : Designates g)
    (bytes : List UInt8)
    (d : Display) :
    Keeps g.viewingTermPtr d (d.putBytes g bytes) := by
  constructor
  · intro hOn
    have hWrite := hAim.putBytes bytes d (hOn _)
    exact hWrite.draws.allOnScreen hWrite.onScreen hOn
  · intro hOn hPos
    have hWrite := hAim.putBytes bytes d (hOn _)
    by_cases hView : g.viewingTermPtr = g.runningTermPtr
    · rw [hView] at hPos ⊢
      exact hWrite.viewed hView hPos
    · rw [hWrite.hidden hView, hWrite.draws.cursor _ hView]
      exact hPos

end Keeps

namespace Kernel

variable {k : Kernel}

theorem createProcess_keeps
    (hAim : Designates k.toControl)
    (fs : FileSystem)
    (inode : Nat)
    (args : Ptr)
    (regs : Regs) :
    Keeps k.viewingTermPtr k.toDisplay
      (k.createProcess fs inode args regs).2.toDisplay := by
  unfold createProcess
  dsimp only
  split
  · exact .putBytes hAim _ k.toDisplay
  · simp only [setControl_toDisplay, setDisplay_toDisplay]
    exact .loadProgram fs inode _ k.toDisplay

theorem syscallExecute_keeps
    (hAim : Designates k.toControl)
    (fs : FileSystem)
    (frame : CallFrame)
    (userInput : Option Ptr) :
    Keeps k.viewingTermPtr k.toDisplay
      (k.syscallExecute fs frame userInput).2.toDisplay := by
  cases userInput with
  | none => exact .refl k.toDisplay
  | some input =>
      simp only [syscallExecute]
      split
      · exact .putBytes hAim _ k.toDisplay
      · split
        · exact createProcess_keeps hAim fs _ _ _
        · exact .putBytes hAim _ k.toDisplay

/- A message under an unchanged control state. -/
theorem printf_keeps
    (hAim : Designates k.toControl)
    {k₁ : Kernel}
    (hControl : k₁.toControl = k.toControl)
    (s : String) :
    Keeps k.viewingTermPtr k₁.toDisplay
      (k₁.printf s).toDisplay := by
  rw [← hControl] at hAim ⊢
  exact .putBytes hAim (text s) k₁.toDisplay

/- A failed attempt to start a base shell goes on to print. -/
theorem ifReturned_keeps
    (hAim : Designates k.toControl)
    (fs : FileSystem)
    (frame : CallFrame)
    (userInput : Option Ptr)
    {next : Kernel → Outcome × Kernel}
    (hNext : ∀ k₁ : Kernel,
      k₁.toControl = k.toControl →
        Keeps k.viewingTermPtr k₁.toDisplay
          (next k₁).2.toDisplay) :
    Keeps k.viewingTermPtr k.toDisplay
      (ifReturned next
        (k.syscallExecute fs frame
          userInput)).2.toDisplay := by
  have hKeep := syscallExecute_keeps hAim fs frame userInput
  rcases k.syscallExecute_cases fs frame userInput with
    ⟨v, d, hExec⟩ | ⟨n, args, eip, d, hFree, hExec⟩
  · rw [hExec] at hKeep ⊢
    exact hKeep.trans (hNext { k with toDisplay := d } rfl)
  · rw [hExec] at hKeep ⊢
    exact hKeep

theorem syscallHalt_keeps
    (hAim : Designates k.toControl)
    (fs : FileSystem)
    (frame : CallFrame)
    (status : UInt8) :
    Keeps k.viewingTermPtr k.toDisplay
      (k.syscallHalt fs frame status).2.toDisplay := by
  have hOrphan : Designates k.orphaned := by
    unfold Control.orphaned
    rw [k.released_eq]
    exact ⟨hAim.screenX, hAim.screenY, hAim.video⟩
  have hView : k.orphaned.viewingTermPtr =
      k.viewingTermPtr := by
    unfold Control.orphaned
    rw [k.released_eq]
  unfold syscallHalt
  split
  · rw [← hView]
    refine ifReturned_keeps
      (k := k.setControl Control.orphaned)
      hOrphan fs frame (some shellLiteral.ptr) ?_
    intro k₁ hControl
    exact printf_keeps hOrphan hControl _
  · exact .refl k.toDisplay

/- A tick prints on the terminal it selects. -/
theorem designates_turn
    {frame : Nat}
    {mapped : Bool}
    (hLayout : Layout k.toPageTables frame mapped)
    (regs : Regs) :
    Designates (k.turn regs) := by
  refine (layout_turn hLayout regs).aimed
    (logicalFrame_lt _ _) ?_ ?_
  · rw [Control.turn_eq]
  · rw [Control.turn_eq]

theorem pitIntHandler_keeps
    {frame : Nat}
    {mapped : Bool}
    (hLayout : Layout k.toPageTables frame mapped)
    (fs : FileSystem)
    (regs : Regs)
    (callFrame : CallFrame) :
    Keeps k.viewingTermPtr k.toDisplay
      (k.pitIntHandler fs regs callFrame).2.toDisplay := by
  have hAim := designates_turn hLayout regs
  have hView := Control.viewing_turn regs k.toControl
  obtain ⟨k₁, hk₁⟩ :
    ∃ k₁, k₁ = k.setControl (Control.turn regs) := ⟨_, rfl⟩
  have hTick : k.pitIntHandler fs regs callFrame =
      k₁.enterNext fs callFrame := by
    rw [hk₁]
    rfl
  have hControl : k₁.toControl = k.turn regs := by
    rw [hk₁]
    rfl
  have hDisplay : k₁.toDisplay = k.toDisplay := by
    rw [hk₁]
    rfl
  rw [← hControl] at hAim hView
  rw [hTick, ← hDisplay, ← hView]
  unfold enterNext
  dsimp only
  split
  · unfold launchBaseShell
    have hBar := printf_keeps hAim rfl
      (terminalBar k₁.runningTermPtr)
    have hSame := printf_toControl
      (terminalBar k₁.runningTermPtr) k₁
    generalize k₁.printf (terminalBar k₁.runningTermPtr) =
      k₂ at hBar hSame ⊢
    apply hBar.trans
    rw [← hSame] at hAim ⊢
    apply ifReturned_keeps hAim fs callFrame
    intro k₃ hControl₃
    exact printf_keeps hAim hControl₃ _
  · exact .refl k₁.toDisplay

theorem syscallVidmap_keeps
    (hAim : Designates k.toControl)
    (screenStart : UInt32) :
    Keeps k.viewingTermPtr k.toDisplay
      (k.syscallVidmap screenStart).2.toDisplay := by
  unfold syscallVidmap
  dsimp only
  split
  · exact .refl k.toDisplay
  · split
    · exact .putBytes hAim _ k.toDisplay
    · exact (Keeps.store _ _ _ _).trans
        ((Keeps.store _ _ _ _).trans
          ((Keeps.store _ _ _ _).trans
            (Keeps.store _ _ _ _)))

end Kernel

end MartianPendulum

------------------------------------------------------------
-- The Invariant
------------------------------------------------------------

namespace MartianPendulum

/- The cursor pointers follow the running terminal. -/
structure Pointed
    (g : Control) : Prop where
  screenX : g.screenXPtr = g.runningTermPtr
  screenY : g.screenYPtr = g.runningTermPtr

theorem pointed_turn
    (regs : Regs)
    (g : Control) :
    Pointed (g.turn regs) := by
  rw [Control.turn_eq]
  exact ⟨rfl, rfl⟩

/- A tick moves the pointers, wherever they were. -/
theorem pointed_of_tick
    {fs : FileSystem}
    {g g' : Control}
    {regs : Regs}
    {frame : CallFrame}
    {o : Outcome}
    (hStep : Transition fs g (.tick regs frame) o g') :
    Pointed g' := by
  have hTurn := pointed_turn regs g
  cases hStep with
  | idle _ _ hIdle => cases hIdle
  | resume =>
      rw [Control.resume_eq]
      exact ⟨hTurn.screenX, hTurn.screenY⟩
  | launch =>
      rw [Control.spawn_eq]
      exact ⟨hTurn.screenX, hTurn.screenY⟩
  | fallThrough =>
      rw [Control.resume_eq]
      exact ⟨hTurn.screenX, hTurn.screenY⟩

theorem Pointed.transition
    {fs : FileSystem}
    {g g' : Control}
    {e : Event}
    {o : Outcome}
    (hPointed : Pointed g)
    (hStep : Transition fs g e o g') :
    Pointed g' := by
  rcases hPointed with ⟨hX, hY⟩
  have hTick := hStep
  cases hStep with
  | idle => exact ⟨hX, hY⟩
  | view => exact ⟨rfl, rfl⟩
  | vidmap => exact ⟨hX, hY⟩
  | spawn =>
      rw [Control.spawn_eq]
      exact ⟨hX, hY⟩
  | ret _ _ hParent =>
      rw [Control.haltToParent_eq hParent, g.released_eq]
      exact ⟨hX, hY⟩
  | restart =>
      rw [Control.spawn_eq]
      unfold Control.orphaned
      rw [g.released_eq]
      exact ⟨hX, hY⟩
  | stuck _ _ hParent =>
      rw [Control.haltToParent_orphaned hParent]
      unfold Control.orphaned
      rw [g.released_eq]
      exact ⟨hX, hY⟩
  | resume => exact pointed_of_tick hTick
  | launch => exact pointed_of_tick hTick
  | fallThrough => exact pointed_of_tick hTick

end MartianPendulum

------------------------------------------------------------
-- Steps
------------------------------------------------------------

namespace MartianPendulum

/-
  What holds from the first tick on.
-/
structure Steady
    (k : Kernel) : Prop where
  located : Located k.toControl
  pointed : Pointed k.toControl
  onScreen : AllOnScreen k.toDisplay

theorem Steady.designates
    {k : Kernel}
    (hSteady : Steady k) :
    Designates k.toControl :=
  hSteady.located.layout.aimed (logicalFrame_lt _ _)
    hSteady.pointed.screenX hSteady.pointed.screenY

/-
  What an event may change.  A function key switches the
  viewed terminal or does nothing; the other keys echo,
  clear or set flags.
-/
def StepIsolated
    (k k' : Kernel) :
    Event → Prop
| .write _ => ChangesOnly k.runningTermPtr k k'
| .store _ _ => ChangesOnly k.runningTermPtr k k'
| .key inputCode => (k.stroke inputCode).Isolated k k'
| _ => True

end MartianPendulum

------------------------------------------------------------
-- Runs
------------------------------------------------------------

namespace MartianPendulum

namespace Steady

variable {k : Kernel}

/- The display after an event that is not a key. -/
theorem keeps
    (hSteady : Steady k)
    (fs : FileSystem)
    {e : Event}
    (hKey : ∀ inputCode, e ≠ .key inputCode) :
    Keeps k.viewingTermPtr k.toDisplay
      (k.step fs e).toDisplay := by
  have hAim := hSteady.designates
  cases e with
  | tick regs frame =>
      exact Kernel.pitIntHandler_keeps
        hSteady.located.layout fs regs frame
  | execute frame userInput =>
      exact Kernel.syscallExecute_keeps hAim fs frame
        userInput
  | halt frame status =>
      exact Kernel.syscallHalt_keeps hAim fs frame status
  | vidmap screenStart =>
      exact Kernel.syscallVidmap_keeps hAim screenStart
  | write bytes => exact .putBytes hAim bytes k.toDisplay
  | store off b => exact .store _ _ b k.toDisplay
  | key inputCode => exact absurd rfl (hKey inputCode)

theorem keyIsolated
    (hSteady : Steady k)
    (inputCode : UInt8) :
    KeyIsolated k (k.stroke inputCode)
      (k.keyboardIntHandler inputCode) :=
  (k.keyboardIntHandler_effect inputCode).isolated
    hSteady.located.layout hSteady.onScreen

/- A store through the user page, if it is open. -/
theorem vidmapStore_draws
    (hSteady : Steady k)
    (off : Fin size4K)
    (b : UInt8) :
    Draws k.runningTermPtr
      (k.logicalFrame k.runningTermPtr)
      k.toDisplay (k.vidmapStore off b).toDisplay := by
  have hOff := off.isLt
  unfold Kernel.vidmapStore
  rw [Kernel.setDisplay_toDisplay]
  generalize off.val = n at hOff ⊢
  rw [size4K_eq] at hOff
  have hAddr : u32 ((fishMap : Int) + (n : Int)) =
      fishMap + n := by
    rw [fishMap_eq]
    unfold u32
    omega
  have hIdx : (fishMap + n) / size4M = 132 / 4 := by
    rw [fishMap_eq, size4M_eq]
    omega
  have hSmall : k.logicalFrame k.runningTermPtr < 2 ^ 20 :=
    Nat.lt_trans (logicalFrame_lt _ _) (by decide)
  have hWalk := hSteady.located.layout.walk_fish hSmall hIdx
  unfold Display.store
  rw [hAddr, hWalk]
  by_cases hOpen :
      (k.termArr k.runningTermPtr).vidmapFlag = true
  · rw [if_pos ⟨hOpen, by rw [size4K_eq]; omega⟩,
      Nat.add_sub_cancel_left]
    refine ⟨?_, fun _ _ => rfl⟩
    intro p hp
    apply Function.update_of_ne
    intro hEq
    apply hp
    rw [hEq, size4K_eq]
    omega
  · rw [if_neg (fun h => hOpen h.1)]
    exact .refl _ _ _

theorem stepIsolated
    (hSteady : Steady k)
    (fs : FileSystem)
    (e : Event) :
    StepIsolated k (k.step fs e) e := by
  cases e with
  | write bytes =>
      have hWrite := hSteady.designates.putBytes bytes
        k.toDisplay (hSteady.onScreen _)
      exact Draws.changesOnly hWrite.draws rfl
  | store off b =>
      exact (hSteady.vidmapStore_draws off b).changesOnly rfl
  | key inputCode =>
      exact (hSteady.keyIsolated inputCode).isolated
  | tick => trivial
  | execute => trivial
  | halt => trivial
  | vidmap => trivial

/- One step keeps the invariant and the shown cursor. -/
theorem step
    (hSteady : Steady k)
    (fs : FileSystem)
    (e : Event) :
    Steady (k.step fs e) ∧
      (CursorShown k → CursorShown (k.step fs e)) := by
  have hStep := k.step_transition fs e
  have hLoc := hSteady.located.transition hStep
  have hPointed := hSteady.pointed.transition hStep
  by_cases hKey : ∀ inputCode, e ≠ .key inputCode
  · have hKeep := hSteady.keeps fs hKey
    refine ⟨⟨hLoc, hPointed,
      hKeep.onScreen hSteady.onScreen⟩, ?_⟩
    intro hShown
    unfold CursorShown
    rw [hStep.viewing hKey]
    exact hKeep.cursor hSteady.onScreen hShown
  · rw [not_forall] at hKey
    rcases hKey with ⟨inputCode, hKey⟩
    rw [not_not] at hKey
    subst hKey
    have hIso := hSteady.keyIsolated inputCode
    exact ⟨⟨hLoc, hPointed, hIso.onScreen⟩, hIso.cursor⟩

end Steady

/- Keys before the first tick keep the cursors on screen. -/
theorem allOnScreen_run_keys
    (fs : FileSystem)
    (k : Kernel)
    (keys : List UInt8) :
    AllOnScreen
      (Logic.run (Kernel.step fs) k.boot
        (keys.map .key)).toDisplay := by
  induction keys using List.reverseRecOn with
  | nil =>
      have hHome : (Cursor.mk 0 0).OnScreen :=
        ⟨by decide, by decide, by decide, by decide⟩
      exact fun _ => hHome
  | append_singleton keys inputCode ih =>
      rcases layout_run_keys fs k keys with
        ⟨frame, mapped, hLayout⟩
      rw [List.map_append, Logic.run_append]
      generalize Logic.run (Kernel.step fs) k.boot
        (keys.map .key) = k₁ at ih hLayout ⊢
      rw [List.map_singleton, Logic.run_cons, Logic.run_nil]
      exact ((k₁.keyboardIntHandler_effect
        inputCode).isolated hLayout ih).onScreen

/- The first tick establishes the invariant. -/
theorem steady_run
    (fs : FileSystem)
    (k : Kernel)
    (keys : List UInt8)
    (regs : Regs)
    (callFrame : CallFrame)
    (es : List Event) :
    Steady
      (Logic.run (Kernel.step fs) k.boot
        (keys.map .key ++
          .tick regs callFrame :: es)) := by
  rcases layout_run_keys fs k keys with
    ⟨frame, mapped, hLayout⟩
  have hOn := allOnScreen_run_keys fs k keys
  rw [Logic.run_append, Logic.run_cons]
  generalize Logic.run (Kernel.step fs) k.boot
    (keys.map .key) = k₁ at hLayout hOn ⊢
  apply Logic.invariant_run
    (fun k e hSteady => (hSteady.step fs e).1)
  have hLoc := located_tick fs k₁ hLayout regs callFrame
  refine ⟨hLoc, ?_, ?_⟩
  · have hStep :=
      k₁.step_transition fs (.tick regs callFrame)
    exact pointed_of_tick hStep
  · exact (Kernel.pitIntHandler_keeps hLayout fs regs
      callFrame).onScreen hOn

/-
  From the first tick on, the mapping and the cursor
  pointers designate the running terminal, every event stays
  within its own screen, and the hardware cursor stays on
  the cursor of the viewed terminal once it is there.
-/
theorem screens_isolated_run
    (fs : FileSystem)
    (k : Kernel)
    (keys : List UInt8)
    (regs : Regs)
    (callFrame : CallFrame)
    (es : List Event) :
    let k₁ := Logic.run (Kernel.step fs) k.boot
      (keys.map .key ++ .tick regs callFrame :: es)
    Designates k₁.toControl ∧
      (∀ e, StepIsolated k₁ (k₁.step fs e) e) ∧
      (CursorShown k₁ → ∀ es',
        CursorShown (Logic.run (Kernel.step fs) k₁ es')) := by
  intro k₁
  have hSteady : Steady k₁ :=
    steady_run fs k keys regs callFrame es
  refine ⟨hSteady.designates, hSteady.stepIsolated fs, ?_⟩
  intro hShown es'
  have hRun := Logic.invariant_run
    (I := fun k : Kernel => Steady k ∧ CursorShown k)
    (fun k e hInv =>
      ⟨(hInv.1.step fs e).1, (hInv.1.step fs e).2 hInv.2⟩)
    ⟨hSteady, hShown⟩ es'
  exact hRun.2

end MartianPendulum
