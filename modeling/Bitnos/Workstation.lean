/-
# From the keyboard to the screen

The key loop hands the character of each key to the shell before it looks at the next key,
while interrupts go on filling the queue. However they interleave, the terminal is in the
state it would be in had the characters of the keys decoded so far been typed into it one
after another, and the lines run are the lines they spell.
-/

import Bitnos.KeyProgress
import Bitnos.Math.Driven
import Bitnos.Shell.Submitted

namespace Bitnos

open Graphics DebugConsole PartialRun TextCursor

/-- `auto_cmd` -/
def autoCmd : List (BitVec 8) := [
  0x6c, 0x73, 0x70, 0x63, 0x69, 0x0a,
  0x6c, 0x73, 0x70, 0x63, 0x69, 0x20, 0x30, 0x30, 0x3a, 0x30, 0x34, 0x2e, 0x30, 0x30, 0x0a,
  0x78, 0x68, 0x63, 0x69, 0x0a]

/-- What a step of the key loop hands to `shell.PutChar`. -/
def handed (s : KeySystem) : KeyAction → List (BitVec 8)
  | .main => if s.pc = .process then (decodeKey s.shifted s.key).2.toList else []
  | .interrupt _ => []

section

variable {ε : Type*} (font : Font) (respond : Executor ε)

/-- The key loop of `MyMain` with the terminal it works on. -/
def stationStep : KeySystem × Terminal ε → KeyAction → Option (KeySystem × Terminal ε) :=
  drive keyStep handed (Terminal.putChar font respond)

/-- The terminal when `MyMain` enters the key loop, if the commands of `auto_cmd` return. -/
def Terminal.atKeyLoop (size : RectSize) (garbage : Vector (BitVec 8) kLineLength) (env : ε) :
    Option (Terminal ε) :=
  run (Terminal.putChar font respond) (Terminal.boot font size garbage env) autoCmd

end

/-- What the shell is handed is what is recorded as typed. -/
theorem typed_of_keyStep (s : KeySystem) (a : KeyAction) (t : KeySystem)
    (hstep : keyStep s a = some t) : t.typed = s.typed ++ handed s a := by
  cases a with
  | interrupt dat =>
    obtain ⟨result, -, rfl⟩ := Option.map_eq_some_iff.mp hstep
    exact (List.append_nil _).symm
  | main =>
    change mainStep s = some t at hstep
    cases hpc : s.pc with
    | halted => simp [mainStep, hpc] at hstep
    | frontData pos =>
      simp only [mainStep, hpc] at hstep
      obtain ⟨key, -, rfl⟩ := Option.map_eq_some_iff.mp hstep
      simp [handed, hpc]
    | _ =>
      simp only [mainStep, hpc, Option.some.injEq] at hstep
      subst hstep
      simp [handed, hpc]

/-- No key stands for a zero byte. -/
theorem nul_not_mem_decodeKeys (codes : List (BitVec 8)) : Ascii.nul ∉ (decodeKeys codes).2 := by
  induction codes using List.reverseRecOn with
  | nil => exact List.not_mem_nil
  | append_singleton codes code ih =>
    rw [decodeKeys_snoc, List.mem_append, not_or]
    refine ⟨ih, ?_⟩
    unfold decodeKey
    split_ifs with hpress hshift <;> simp

variable {ε : Type*} {font : Font} {respond : Executor ε} {size : RectSize}

/-- The terminal has been typed the characters of a first part of the accepted keys, which is all of
them when the loop has halted on an empty queue. -/
theorem exists_decoded {t₀ : Terminal ε} {actions : List KeyAction} {s : KeySystem × Terminal ε}
    (hrun : run (stationStep font respond) (KeySystem.start, t₀) actions = some s) :
    ∃ codes, codes ++ (if s.1.pc.undecoded then [s.1.key] else []) ++ s.1.keydat.backlog =
        s.1.accepted ∧
      run (Terminal.putChar font respond) t₀ (decodeKeys codes).2 = some s.2 ∧
      (s.1.pc = .halted → s.1.keydat.count = 0 → codes = s.1.accepted) := by
  have hkeys : run keyStep KeySystem.start actions = some s.1 := run_of_run_drive hrun
  obtain ⟨typed, htyped, hfed⟩ := exists_run_of_run_drive typed_of_keyStep hrun
  obtain ⟨hinv, codes, htaken, hstate⟩ :=
    invariant_run Decoded.step ⟨KeyInv.start, [], rfl, rfl⟩ hkeys
  -- the shell's log and the decoder's agree on what was typed
  obtain rfl : typed = (decodeKeys codes).2 := htyped.symm.trans (Prod.mk.inj hstate).2
  have hstream := hinv.stream
  rw [htaken] at hstream
  refine ⟨codes, hstream, hfed, fun hhalted hcount => ?_⟩
  have hbacklog : s.1.keydat.backlog = [] := by
    rw [← List.length_eq_zero_iff, ArrayQueue.length_backlog _ (by omega), hcount]
  have hdecoded : s.1.pc.undecoded = false := by rw [hhalted]; rfl
  rwa [hbacklog, List.append_nil, hdecoded, if_neg Bool.false_ne_true, List.append_nil] at hstream

/-- When the key loop begins the line is empty, and the lines of `auto_cmd` have been run. -/
theorem Terminal.atKeyLoop_spec {garbage : Vector (BitVec 8) kLineLength} {env : ε} {t₀ : Terminal ε}
    (hboot : Terminal.atKeyLoop font respond size garbage env = some t₀) :
    t₀.Sound font size ∧ InStep ⟨t₀.shell, []⟩ ∧
      t₀.executed.map execLine = (submitted [] autoCmd).map some := by
  have hstart := @Terminal.Sound.boot _ font size garbage env
  obtain ⟨hin, hauto⟩ := Terminal.executed_run hstart.cur_le (Terminal.inStep_boot size garbage env)
    (by decide) hboot
  exact ⟨invariant_run Terminal.Sound.step hstart hboot, hin, hauto⟩

/-- **From the keyboard to the shell.** In every state of the whole system, reached by any
interleaving of interrupts with the key loop, the terminal is as if the characters of a first part
of the accepted keys had been typed into it one after another. The rest of those keys is the key in
hand, if it is still to be decoded, and the queue. Unless some line gets too long, the lines `Exec`
was called with are those of `auto_cmd` and then those the keys spell; and once the loop halts on an
empty queue all accepted keys are among them. -/
theorem station_types {garbage : Vector (BitVec 8) kLineLength} {env : ε} {t₀ : Terminal ε}
    (hboot : Terminal.atKeyLoop font respond size garbage env = some t₀) {actions : List KeyAction}
    {s : KeySystem × Terminal ε}
    (hrun : run (stationStep font respond) (KeySystem.start, t₀) actions = some s) :
    ∃ codes, codes ++ (if s.1.pc.undecoded then [s.1.key] else []) ++ s.1.keydat.backlog =
        s.1.accepted ∧
      run (Terminal.putChar font respond) t₀ (decodeKeys codes).2 = some s.2 ∧
      (Roomy [] (decodeKeys codes).2 → s.2.executed.map execLine =
        (submitted [] autoCmd ++ submitted [] (decodeKeys codes).2).map some) ∧
      (s.1.pc = .halted → s.1.keydat.count = 0 → codes = s.1.accepted) := by
  obtain ⟨codes, haccepted, hfed, hall⟩ := exists_decoded hrun
  refine ⟨codes, haccepted, hfed, fun hroom => ?_, hall⟩
  obtain ⟨hsound, hin, hauto⟩ := Terminal.atKeyLoop_spec hboot
  obtain ⟨-, hlines⟩ := Terminal.executed_run hsound.cur_le hin hroom hfed
  rw [hlines, hauto, List.map_append]

/-- The commands answer nothing, and an `a` and a newline are typed. -/
theorem station_types_a :
    let respond : Executor Unit := fun _ env => some ([], env)
    ∃ t₀ s, Terminal.atKeyLoop (fun _ => 0) respond ⟨80, 25⟩ (Vector.replicate kLineLength 0) () =
      some t₀ ∧
      run (stationStep (fun _ => 0) respond) (KeySystem.start, t₀)
        (typeCodes [0x1e, 0x1c] ++ List.replicate 4 .main) = some s ∧
      s.2.executed.map execLine = (submitted [] autoCmd ++ [[0x61]]).map some := by
  intro respond
  have hend :
      ((Terminal.atKeyLoop (fun _ => 0) respond ⟨80, 25⟩ (Vector.replicate kLineLength 0) ()).bind
      fun t₀ => run (stationStep (fun _ => 0) respond) (KeySystem.start, t₀)
        (typeCodes [0x1e, 0x1c] ++ List.replicate 4 .main)).map
      (fun s => (s.1.pc, s.1.keydat.count, s.1.accepted)) = some (.halted, 0, [0x1e, 0x1c]) := by
    decide +kernel
  obtain ⟨s, hboth, hs⟩ := Option.map_eq_some_iff.mp hend
  obtain ⟨t₀, hboot, hrun⟩ := Option.bind_eq_some_iff.mp hboth
  obtain ⟨hpc, hcount, haccepted⟩ : s.1.pc = _ ∧ s.1.keydat.count = _ ∧ s.1.accepted = _ := by
    simpa only [Prod.mk.injEq] using hs
  obtain ⟨codes, -, -, hlines, hall⟩ := station_types hboot hrun
  obtain rfl := hall hpc hcount
  rw [haccepted] at hlines
  exact ⟨t₀, s, hboot, hrun, hlines (by decide)⟩

/-! ### Up to the frame buffer -/

/-- A line typed from the start is the one the screen shows, as long as it has room. -/
theorem Terminal.Sound.line_shown {mode : GraphicMode} {t u : Terminal ε} {typed : List (BitVec 8)}
    (h : t.Sound font size) (hfits : Fits size mode) (hin : InStep ⟨t.shell, []⟩)
    (hplain : Ascii.newline ∉ typed) (hroomy : Roomy [] typed)
    (hroom : ∀ done, done <+: typed → index size.width.toNat t.cons.cell +
      (done.foldl editText []).length < size.width.toNat * size.height.toNat)
    (hrun : run (Terminal.putChar font respond) t typed = some u) :
    TextScreen.ShowsLine size.width.toNat size.height.toNat (index size.width.toNat t.cons.cell)
      t.screen.grid (typed.foldl editText []) u.screen := by
  have hon := (h.valid hfits).onScreen
  rw [h.size_eq, ← h.cursor_screen hfits] at hon
  have hstart := TextScreen.ShowsLine.start hon h.caret_shown
  rw [h.cursor_screen hfits, ← show t.shell.line = [] from hin.line_eq] at hstart
  let room (line : List (BitVec 8)) : Prop :=
    index size.width.toNat t.cons.cell + line.length < size.width.toNat * size.height.toNat
  have halong : Along (Terminal.putChar font respond) (fun u => room u.shell.line) t typed :=
    Terminal.along_line h.cur_le hin hroomy hroom
  obtain ⟨v, hv, -, -, hshown⟩ := h.showsLine_run hstart hplain halong
  obtain rfl : v = u := Option.some.inj (hv.symm.trans hrun)
  obtain ⟨hline, -⟩ := Terminal.executed_run h.cur_le hin hroomy hrun
  rwa [show v.shell.line = typed.foldl editText [] from hline.line_eq] at hshown

/-- The frame buffer shows the screen of the terminal, whatever it held before the screen was
cleared. -/
theorem Terminal.Sound.pixel {mode : GraphicMode} {w : PixelWriter} {t : Terminal ε} {p : Point}
    (h : t.Sound font size) (hfits : Fits size mode) (hwriter : mode.writer = some w)
    (hmode : mode.Usable) (mem : Graphics.Memory)
    (hp : OnScreen size.width.toNat size.height.toNat (cellOf p)) :
    w.pixel (w.draw mem (clearScreen mode ++ t.drawn)) p =
      shade font (t.screen.grid (cellOf p)) (p.x.toNat % 8) (p.y.toNat % 16) := by
  obtain ⟨order, rfl⟩ := GraphicMode.exists_order hwriter
  have hdrawn : ∀ pw ∈ t.drawn, mode.OnScreen pw.position := by
    intro pw hpw
    -- the console drew it while printing what is recorded
    have hconsole : pw ∈ ((construct size).putChars font t.printed).1 := by
      rw [h.console]
      exact hpw
    exact hfits.putChars_onScreen hfits.construct_valid hconsole
  rw [hmode.pixel_draw_clear order mem (fun _ => white) hdrawn (hfits.onScreen_of_cell hp),
    h.shows hfits (fun _ => white) p hp, visible_shade]

/-- **From the keyboard to the frame buffer.** However the keyboard interrupts interleave with the
key loop, once it halts on an empty queue the frame buffer shows what the accepted keys have typed:
the line edited since the last newline stands behind its prompt, each character as the font has it,
with the cursor behind it, and the pixels in front of it are those that stood there when the prompt
was printed. -/
theorem station_shows {mode : GraphicMode} {w : PixelWriter} (hwriter : mode.writer = some w)
    (hmode : mode.Usable) (hwidth : 8 ≤ mode.horizontalResolution)
    (hheight : 16 ≤ mode.verticalResolution) (mem : Graphics.Memory)
    {garbage : Vector (BitVec 8) kLineLength} {env : ε} {t₀ : Terminal ε}
    (hboot : Terminal.atKeyLoop font respond (screenSize mode) garbage env = some t₀)
    {actions : List KeyAction} {s : KeySystem × Terminal ε}
    (hrun : run (stationStep font respond) (KeySystem.start, t₀) actions = some s)
    (hhalted : s.1.pc = .halted) (hcount : s.1.keydat.count = 0) {before typed : List (BitVec 8)}
    (hkeys : (decodeKeys s.1.accepted).2 = before ++ typed)
    (hbefore : ∀ ch ∈ before.getLast?, ch = Ascii.newline) (hplain : Ascii.newline ∉ typed)
    (hroomy : Roomy [] (before ++ typed)) :
    let width := (screenSize mode).width.toNat
    let height := (screenSize mode).height.toNat
    let edited := typed.foldl editText []
    let shown (t : Terminal ε) := w.pixel (w.draw mem (clearScreen mode ++ t.drawn))
    let glyph (ch : BitVec 8) (p : Point) := shade font (some ch) (p.x.toNat % 8) (p.y.toNat % 16)
    ∃ t, run (Terminal.putChar font respond) t₀ before = some t ∧
      let base := index width t.cons.cell
      ((∀ done, done <+: typed → base + (done.foldl editText []).length < width * height) →
        ∀ p, OnScreen width height (cellOf p) →
          (∀ k ch, edited[k]? = some ch → index width (cellOf p) = base + k →
            shown s.2 p = glyph ch p) ∧
          (index width (cellOf p) = base + edited.length → shown s.2 p = glyph Ascii.underscore p) ∧
          (index width (cellOf p) < base → shown s.2 p = shown t p)) := by
  intro width height edited shown glyph
  have hfits := Fits.screenSize hwidth hheight
  obtain ⟨hsound, hin, -⟩ := Terminal.atKeyLoop_spec hboot
  obtain ⟨codes, -, hfed, hall⟩ := exists_decoded hrun
  obtain rfl := hall hhalted hcount
  rw [hkeys, run_append] at hfed
  obtain ⟨t, hprompt, hfed⟩ := Option.bind_eq_some_iff.mp hfed
  -- the line is empty where the last newline, or the boot, has left it
  obtain ⟨hfirst, hroomy⟩ := roomy_append.mp hroomy
  obtain ⟨hin, -⟩ := Terminal.executed_run hsound.cur_le hin hfirst hprompt
  rw [foldl_editText_of_getLast hbefore] at hin hroomy
  have ht := invariant_run Terminal.Sound.step hsound hprompt
  have hs := invariant_run Terminal.Sound.step ht hfed
  refine ⟨t, hprompt, ?_⟩
  intro base hroom p hp
  have hline := ht.line_shown hfits hin hplain hroomy hroom hfed
  have hpixel : shown s.2 p =
      shade font (s.2.screen.grid (cellOf p)) (p.x.toNat % 8) (p.y.toNat % 16) :=
    hs.pixel hfits hwriter hmode mem hp
  refine ⟨?_, ?_, ?_⟩
  · intro k ch hch hk
    rw [hpixel, hline.text (cellOf p) hp k ch hch hk]
  · intro hk
    have hcell : cellOf p = s.2.screen.cursor :=
      hp.index_injective hline.onScreen (hk.trans hline.cursor_eq.symm)
    rw [hpixel, hcell, hline.caret]
  · intro hlt
    rw [hpixel, hline.before (cellOf p) hp hlt]
    exact (ht.pixel hfits hwriter hmode mem hp).symm

/-- An `a` behind the fourth prompt, in a font of full boxes. -/
theorem station_shows_a :
    let mode : GraphicMode := ⟨0x80000000, 1024000, 640, 400, .blueGreenRedReserved8BitPerColor, 640⟩
    let w := PixelWriter.ofMode .blueGreenRed mode
    let respond : Executor Unit := fun _ env => some ([], env)
    ∃ t₀ s, Terminal.atKeyLoop (fun _ => 0xff) respond (screenSize mode)
        (Vector.replicate kLineLength 0) () = some t₀ ∧
      run (stationStep (fun _ => 0xff) respond) (KeySystem.start, t₀)
        (typeCodes [0x1e] ++ List.replicate 4 .main) = some s ∧
      ∀ mem, w.pixel (w.draw mem (clearScreen mode ++ s.2.drawn)) ⟨16, 48⟩ = black := by
  intro mode w respond
  have hend : ((Terminal.atKeyLoop (fun _ => 0xff) respond (screenSize mode)
      (Vector.replicate kLineLength 0) ()).bind fun t₀ =>
        (run (stationStep (fun _ => 0xff) respond) (KeySystem.start, t₀)
          (typeCodes [0x1e] ++ List.replicate 4 .main)).map fun s =>
            ((t₀, s), t₀.cons.cell, s.1.pc, s.1.keydat.count, s.1.accepted)).map Prod.snd =
      some (⟨2, 3⟩, .halted, 0, [0x1e]) := by
    decide +kernel
  obtain ⟨end', hboth, hs⟩ := Option.map_eq_some_iff.mp hend
  obtain ⟨t₀, hboot, hmap⟩ := Option.bind_eq_some_iff.mp hboth
  obtain ⟨s, hrun, rfl⟩ := Option.map_eq_some_iff.mp hmap
  obtain ⟨hcell, hpc, hcount, haccepted⟩ :
      t₀.cons.cell = _ ∧ s.1.pc = _ ∧ s.1.keydat.count = _ ∧ s.1.accepted = _ := by
    simpa only [Prod.mk.injEq] using hs
  refine ⟨t₀, s, hboot, hrun, fun mem => ?_⟩
  have hkeys : (decodeKeys s.1.accepted).2 = [] ++ [0x61] := by
    rw [haccepted]
    decide
  obtain ⟨t, hstart, hshown⟩ :=
    station_shows (w := w) rfl ⟨by decide, by decide⟩ (by decide) (by decide)
    mem hboot hrun hpc hcount hkeys (by decide) (by decide) (by decide)
  obtain rfl : t₀ = t := Option.some.inj hstart
  rw [hcell] at hshown
  refine (hshown ?_ ⟨16, 48⟩ ⟨by decide, by decide⟩).1 0 0x61 rfl rfl
  intro done hdone
  -- one character in a screen of two thousand
  rcases List.prefix_cons_iff.mp hdone with rfl | ⟨rest, rfl, hrest⟩
  · decide
  · rw [List.prefix_nil.mp hrest]
    decide

end Bitnos
