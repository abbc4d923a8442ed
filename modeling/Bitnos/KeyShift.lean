/-
# Shift and the held keys

The key loop keeps one flag for two shift keys: a press of either sets it, a release of
either clears it. Which keys are held is a matter of all scancodes so far. The two agree
except when a shift key is held and the last scancode of a shift key was a release,
which takes both of them.
-/

import Bitnos.Math.BitMask
import Bitnos.KeyInvariant

namespace Bitnos

open PartialRun

/-! ### Sequences of scancodes -/

/-- What the loop makes of scancodes one after another: the flag, and the characters handed to
`shell.PutChar`. -/
def decodeKeys (codes : List (BitVec 8)) : Bool × List (BitVec 8) :=
  codes.foldl
    (fun state key => ((decodeKey state.1 key).1, state.2 ++ (decodeKey state.1 key).2.toList))
    (false, [])

/-- A key has been pressed and not yet released. -/
def keyHeld (key : BitVec 8) (codes : List (BitVec 8)) : Bool :=
  codes.foldl (fun held code => if code &&& 0x7f = key then decide (code.toNat < 0x80) else held)
    false

/-- At least one of the two shift keys is held. -/
def shiftHeld (codes : List (BitVec 8)) : Bool := keyHeld 0x2a codes || keyHeld 0x36 codes

/-- The last scancode that came from a shift key. -/
def lastShiftCode (codes : List (BitVec 8)) : Option (BitVec 8) :=
  codes.foldl (fun last code => if isShiftKey (code &&& 0x7f) then some code else last) none

/-- The characters of scancodes that follow others, when shift is taken to be as given after each
beginning. -/
def typedWith (shiftAfter : List (BitVec 8) → Bool) :
    List (BitVec 8) → List (BitVec 8) → List (BitVec 8)
  | _, [] => []
  | before, key :: rest =>
    (decodeKey (shiftAfter before) key).2.toList ++ typedWith shiftAfter (before ++ [key]) rest

/-- The characters of scancodes by the keys held. -/
def heldTyped (codes : List (BitVec 8)) : List (BitVec 8) := typedWith shiftHeld [] codes

/-- Somewhere a key with two characters is pressed while a shift key is held and the last scancode
of a shift key was a release. -/
def ShiftMasked (codes : List (BitVec 8)) : Prop :=
  ∃ before key after, codes = before ++ key :: after ∧
    (decodeKey true key).2 ≠ (decodeKey false key).2 ∧ shiftHeld before = true ∧
      ∃ release, lastShiftCode before = some release ∧ 0x80 ≤ release.toNat

section Snoc

variable (codes : List (BitVec 8)) (code key : BitVec 8)

theorem decodeKeys_snoc : decodeKeys (codes ++ [code]) =
    ((decodeKey (decodeKeys codes).1 code).1,
      (decodeKeys codes).2 ++ (decodeKey (decodeKeys codes).1 code).2.toList) := by
  rw [decodeKeys, List.foldl_append]
  rfl

theorem keyHeld_snoc : keyHeld key (codes ++ [code]) =
    if code &&& 0x7f = key then decide (code.toNat < 0x80) else keyHeld key codes := by
  rw [keyHeld, List.foldl_append]
  rfl

theorem lastShiftCode_snoc : lastShiftCode (codes ++ [code]) =
    if isShiftKey (code &&& 0x7f) then some code else lastShiftCode codes := by
  rw [lastShiftCode, List.foldl_append]
  rfl

end Snoc

/-! ### The flag -/

/-- A scancode below 0x80 is its key. -/
theorem and_mask_of_lt {code : BitVec 8} (hpress : code.toNat < 0x80) : code &&& 0x7f = code :=
  BitMask.and_low_of_lt (k := 7) hpress

/-- A scancode changes the flag only if it comes from a shift key. -/
theorem fst_decodeKey (shifted : Bool) (code : BitVec 8) :
    (decodeKey shifted code).1 =
      if isShiftKey (code &&& 0x7f) then decide (code.toNat < 0x80) else shifted := by
  unfold decodeKey
  by_cases hpress : code.toNat < 0x80
  · rw [dif_pos hpress, and_mask_of_lt hpress, decide_eq_true hpress]
    split_ifs <;> rfl
  · rw [dif_neg hpress, decide_eq_false hpress]
    split_ifs <;> rfl

/-- The flag says whether the last scancode of a shift key was a press. -/
theorem fst_decodeKeys (codes : List (BitVec 8)) :
    (decodeKeys codes).1 = (lastShiftCode codes).any fun code => decide (code.toNat < 0x80) := by
  induction codes using List.reverseRecOn with
  | nil => rfl
  | append_singleton codes code ih =>
    rw [decodeKeys_snoc, lastShiftCode_snoc, fst_decodeKey, ih]
    split_ifs <;> rfl

theorem isShiftKey_iff {key : BitVec 8} : isShiftKey key = true ↔ key = 0x2a ∨ key = 0x36 := by
  simp [isShiftKey]

theorem shiftHeld_snoc_of_press {codes : List (BitVec 8)} {code : BitVec 8}
    (hshift : isShiftKey (code &&& 0x7f) = true) (hpress : code.toNat < 0x80) :
    shiftHeld (codes ++ [code]) = true := by
  rw [shiftHeld, keyHeld_snoc, keyHeld_snoc, decide_eq_true hpress]
  obtain hkey | hkey := isShiftKey_iff.mp hshift
  · rw [if_pos hkey, Bool.true_or]
  · rw [if_pos (c := _ = (0x36 : BitVec 8)) hkey, Bool.or_true]

theorem shiftHeld_snoc_of_other {codes : List (BitVec 8)} {code : BitVec 8}
    (hother : ¬ isShiftKey (code &&& 0x7f) = true) :
    shiftHeld (codes ++ [code]) = shiftHeld codes := by
  rw [isShiftKey_iff, not_or] at hother
  rw [shiftHeld, keyHeld_snoc, keyHeld_snoc, if_neg hother.1, if_neg hother.2, shiftHeld]

/-- Without any scancode of a shift key none is held. -/
theorem shiftHeld_of_none {codes : List (BitVec 8)} (hnone : lastShiftCode codes = none) :
    shiftHeld codes = false := by
  induction codes using List.reverseRecOn with
  | nil => rfl
  | append_singleton codes code ih =>
    rw [lastShiftCode_snoc] at hnone
    split_ifs at hnone with hshift
    rw [shiftHeld_snoc_of_other hshift, ih hnone]

/-- When the last scancode of a shift key is a press, that key is held. -/
theorem shiftHeld_of_press {codes : List (BitVec 8)} {code : BitVec 8}
    (hlast : lastShiftCode codes = some code) (hpress : code.toNat < 0x80) :
    shiftHeld codes = true := by
  induction codes using List.reverseRecOn with
  | nil => cases hlast
  | append_singleton codes last ih =>
    rw [lastShiftCode_snoc] at hlast
    split_ifs at hlast with hshift
    · obtain rfl := Option.some.inj hlast
      exact shiftHeld_snoc_of_press hshift hpress
    · rw [shiftHeld_snoc_of_other hshift, ih hlast]

/-- **The flag and the keys.** They disagree exactly when a shift key is held and the last scancode
of a shift key was a release. -/
theorem flag_ne_shiftHeld_iff (codes : List (BitVec 8)) :
    (decodeKeys codes).1 ≠ shiftHeld codes ↔
      shiftHeld codes = true ∧ ∃ release, lastShiftCode codes = some release ∧
        0x80 ≤ release.toNat := by
  rw [fst_decodeKeys]
  cases hlast : lastShiftCode codes with
  | none => simp [shiftHeld_of_none hlast]
  | some code =>
    by_cases hpress : code.toNat < 0x80
    · simp [shiftHeld_of_press hlast hpress, hpress]
    · have hrelease : 0x80 ≤ code.toNat := Nat.le_of_not_lt hpress
      cases shiftHeld codes <;> simp [hpress, hrelease]

/-! ### Characters -/

/-- The characters handed over are those for the flag. -/
theorem snd_decodeKeys_append (before codes : List (BitVec 8)) :
    (decodeKeys (before ++ codes)).2 =
      (decodeKeys before).2 ++ typedWith (fun before => (decodeKeys before).1) before codes := by
  induction codes generalizing before with
  | nil => rw [List.append_nil, typedWith, List.append_nil]
  | cons key rest ih =>
    have hsplit : before ++ key :: rest = (before ++ [key]) ++ rest := by
      rw [List.append_assoc, List.singleton_append]
    rw [hsplit, ih, decodeKeys_snoc, typedWith, List.append_assoc]

theorem snd_decodeKeys (codes : List (BitVec 8)) :
    (decodeKeys codes).2 = typedWith (fun before => (decodeKeys before).1) [] codes :=
  snd_decodeKeys_append [] codes

/-- Whether a scancode gives a character does not depend on shift. -/
theorem isSome_decodeKey (shifted shifted' : Bool) (key : BitVec 8) :
    (decodeKey shifted key).2.isSome = (decodeKey shifted' key).2.isSome := by
  have hall : ∀ key : BitVec 8,
      (decodeKey true key).2.isSome = (decodeKey false key).2.isSome := by decide +kernel
  cases shifted <;> cases shifted' <;> simp only [hall]

/-- No release code gives a character. -/
theorem decodeKey_of_release {key : BitVec 8} (hrelease : 0x80 ≤ key.toNat) (shifted : Bool) :
    (decodeKey shifted key).2 = none := by
  rw [decodeKey, dif_neg (Nat.not_lt_of_le hrelease)]
  split_ifs <;> rfl

theorem toList_append_inj {α : Type*} {o o' : Option α} {as bs : List α}
    (hsome : o.isSome = o'.isSome) :
    o.toList ++ as = o'.toList ++ bs ↔ o = o' ∧ as = bs := by
  cases o <;> cases o' <;> simp_all

/-- Two ways of taking shift give the same characters exactly when they do so for each scancode. -/
theorem typedWith_eq_iff {f g : List (BitVec 8) → Bool} {before codes : List (BitVec 8)} :
    typedWith f before codes = typedWith g before codes ↔
      ∀ mid key after, codes = mid ++ key :: after →
        (decodeKey (f (before ++ mid)) key).2 = (decodeKey (g (before ++ mid)) key).2 := by
  induction codes generalizing before with
  | nil => simp [typedWith]
  | cons key rest ih =>
    rw [typedWith, typedWith, toList_append_inj (isSome_decodeKey _ _ key), ih]
    constructor
    · rintro ⟨hhere, hlater⟩ mid key' after hsplit
      cases mid with
      | nil =>
        obtain ⟨rfl, -⟩ := List.cons.inj hsplit
        rwa [List.append_nil]
      | cons first mid =>
        obtain ⟨rfl, hrest⟩ := List.cons.inj hsplit
        simpa using hlater mid key' after hrest
    · intro hall
      refine ⟨by simpa using hall [] key rest rfl, fun mid key' after hsplit => ?_⟩
      simpa using hall (key :: mid) key' after (by rw [hsplit, List.cons_append])

/-- The characters handed over are those of the keys held exactly when no key with two characters
meets a flag that disagrees with the held keys. -/
theorem snd_decodeKeys_eq_iff (codes : List (BitVec 8)) :
    (decodeKeys codes).2 = heldTyped codes ↔ ¬ ShiftMasked codes := by
  rw [snd_decodeKeys, heldTyped, typedWith_eq_iff]
  simp only [List.nil_append]
  have hpoint : ∀ (before : List (BitVec 8)) (key : BitVec 8),
      (decodeKey (decodeKeys before).1 key).2 ≠ (decodeKey (shiftHeld before) key).2 ↔
        (decodeKey true key).2 ≠ (decodeKey false key).2 ∧
          (decodeKeys before).1 ≠ shiftHeld before := by
    intro before key
    cases (decodeKeys before).1 <;> cases shiftHeld before <;> simp [eq_comm]
  constructor
  · rintro hall ⟨before, key, after, hsplit, htwo, hflag⟩
    exact (hpoint before key).mpr ⟨htwo, (flag_ne_shiftHeld_iff before).mpr hflag⟩
      (hall before key after hsplit)
  · intro hmasked before key after hsplit
    by_contra hne
    obtain ⟨htwo, hflag⟩ := (hpoint before key).mp hne
    exact hmasked ⟨before, key, after, hsplit, htwo, (flag_ne_shiftHeld_iff before).mp hflag⟩

/-! ### The key loop -/

/-- The points at which the key just taken has still to be decoded. -/
def Pc.undecoded : Pc → Bool
  | .popPosLoad | .popPosStore _ | .popPosTest | .popPosWrap | .unlockKey | .process => true
  | _ => false

/-- The flag and the characters handed over come from the scancodes taken, except for one that has
still to be decoded. -/
def Decoded (s : KeySystem) : Prop :=
  ∃ codes, s.taken = codes ++ (if s.pc.undecoded then [s.key] else []) ∧
    (s.shifted, s.typed) = decodeKeys codes

namespace Decoded

variable {s t : KeySystem}

/-- A step that neither takes nor decodes a key. -/
theorem goto (h : Decoded s) (htaken : t.taken = s.taken) (hshifted : t.shifted = s.shifted)
    (htyped : t.typed = s.typed) (hpc : t.pc.undecoded = s.pc.undecoded)
    (hkey : s.pc.undecoded = true → t.key = s.key) : Decoded t := by
  obtain ⟨codes, hcodes, hstate⟩ := h
  refine ⟨codes, ?_, by rw [hshifted, htyped, hstate]⟩
  rw [htaken, hcodes, hpc]
  split_ifs with hund
  · rw [hkey hund]
  · rfl

theorem process (h : Decoded s) (hpc : s.pc = .process) (hstep : mainStep s = some t) :
    Decoded t := by
  obtain ⟨codes, hcodes, hstate⟩ := h
  simp only [mainStep, hpc, Option.some.injEq] at hstep
  subst hstep
  rw [hpc] at hcodes
  refine ⟨codes ++ [s.key], ?_, ?_⟩
  · exact hcodes.trans (List.append_nil _).symm
  · rw [decodeKeys_snoc, ← hstate]

/-- Every step of the main loop keeps the account. -/
theorem main (hinv : KeyInv s) (h : Decoded s) (hstep : mainStep s = some t) : Decoded t := by
  cases hpc : s.pc with
  | process => exact h.process hpc hstep
  | halted => simp [mainStep, hpc] at hstep
  | frontData pos =>
    simp only [mainStep, hpc] at hstep
    obtain ⟨key, -, rfl⟩ := Option.map_eq_some_iff.mp hstep
    exact h.goto rfl rfl rfl (by rw [hpc]; rfl) (by rw [hpc]; exact fun h => by cases h)
  | popTest =>
    -- under the lock the queue is not empty any more, so a key is taken
    have hat := hinv.at_point
    rw [hpc] at hat
    simp only [mainStep, hpc, if_neg hat.2.1.ne', Option.some.injEq] at hstep
    subst hstep
    exact h.goto rfl rfl rfl (by rw [hpc]; rfl) (fun _ => rfl)
  | popCountStore count =>
    obtain ⟨codes, hcodes, hstate⟩ := h
    simp only [mainStep, hpc, Option.some.injEq] at hstep
    subst hstep
    rw [hpc] at hcodes
    refine ⟨codes, ?_, hstate⟩
    change s.taken ++ [s.key] = codes ++ [s.key]
    rw [hcodes]
    exact congrArg (· ++ [s.key]) (List.append_nil codes)
  | _ =>
    simp only [mainStep, hpc, Option.some.injEq] at hstep
    subst hstep
    refine h.goto rfl rfl rfl ?_ (fun _ => rfl)
    rw [hpc]
    first
      | rfl
      | dsimp only
        split_ifs <;> rfl

theorem interrupt (h : Decoded s) {dat : BitVec 8} (hstep : interruptStep dat s = some t) :
    Decoded t := by
  obtain ⟨result, -, rfl⟩ := Option.map_eq_some_iff.mp hstep
  refine h.goto rfl rfl rfl ?_ (fun _ => rfl)
  change s.pc.wake.undecoded = s.pc.undecoded
  cases s.pc <;> rfl

theorem step (s : KeySystem) (a : KeyAction) (t : KeySystem) (h : KeyInv s ∧ Decoded s)
    (hstep : keyStep s a = some t) : KeyInv t ∧ Decoded t := by
  refine ⟨h.1.step s a t hstep, ?_⟩
  cases a with
  | main => exact h.2.main h.1 hstep
  | interrupt dat => exact h.2.interrupt hstep

end Decoded

/-- **Shift.** Whenever the loop has decoded what it has taken, the shell has got the characters of
the keys held, and none for a release, exactly when no key with two characters was pressed while a
shift key was held and the last scancode of a shift key was a release. -/
theorem typed_eq_heldTyped_iff {actions : List KeyAction} {s : KeySystem}
    (hrun : run keyStep KeySystem.start actions = some s) (hpc : s.pc.undecoded = false) :
    (s.typed = heldTyped s.taken ∧
        ∀ key ∈ s.taken, 0x80 ≤ key.toNat → ∀ shifted, (decodeKey shifted key).2 = none) ↔
      ¬ ShiftMasked s.taken := by
  obtain ⟨-, codes, hcodes, hstate⟩ :=
    invariant_run Decoded.step ⟨KeyInv.start, [], rfl, rfl⟩ hrun
  rw [hpc] at hcodes
  obtain rfl : s.taken = codes := hcodes.trans (List.append_nil codes)
  rw [← snd_decodeKeys_eq_iff, ← hstate]
  exact and_iff_left fun key _ hrelease shifted => decodeKey_of_release hrelease shifted

/-- Each scancode arrives when the one before has been decoded. -/
def typeCodes (codes : List (BitVec 8)) : List KeyAction :=
  codes.flatMap fun code => .interrupt code :: List.replicate 12 .main

/-- Shift is pressed and released around one of two presses of the same key. -/
theorem typed_eq_heldTyped_oneShift :
    ¬ ShiftMasked [0x2a, 0x1e, 0x9e, 0xaa, 0x1e, 0x9e] := by
  have hend : (run keyStep KeySystem.start (typeCodes [0x2a, 0x1e, 0x9e, 0xaa, 0x1e, 0x9e])).map
      (fun s => (s.pc.undecoded, s.taken, s.typed)) =
        some (false, [0x2a, 0x1e, 0x9e, 0xaa, 0x1e, 0x9e], [0x41, 0x61]) := by decide +kernel
  obtain ⟨s, hrun, hs⟩ := Option.map_eq_some_iff.mp hend
  obtain ⟨hpc, htaken, htyped⟩ : s.pc.undecoded = false ∧ s.taken = _ ∧ s.typed = _ := by
    simpa only [Prod.mk.injEq] using hs
  rw [← htaken]
  refine (typed_eq_heldTyped_iff hrun hpc).mp ⟨?_, ?_⟩
  · rw [htyped, htaken]
    decide +kernel
  · exact fun key _ hrelease shifted => decodeKey_of_release hrelease shifted

/-- The scancodes of each key alternate, a press first. -/
def keysAlternate : List (BitVec 8) → List (BitVec 8) → Bool
  | _, [] => true
  | before, code :: rest =>
    decide (code.toNat < 0x80) != keyHeld (code &&& 0x7f) before &&
      keysAlternate (before ++ [code]) rest

/-- Both shift keys are pressed and one is released. The letter typed then is a small one, though
a shift key is held. -/
theorem typed_bothShifts :
    (run keyStep KeySystem.start (typeCodes [0x2a, 0x36, 0xb6, 0x1e])).map
        (fun s => (s.pc, s.taken, s.typed)) =
      some (.lock, [0x2a, 0x36, 0xb6, 0x1e], [0x61]) ∧
    keysAlternate [] [0x2a, 0x36, 0xb6, 0x1e] = true ∧
    shiftHeld [0x2a, 0x36, 0xb6] = true ∧ heldTyped [0x2a, 0x36, 0xb6, 0x1e] = [0x41] := by
  decide +kernel

end Bitnos
