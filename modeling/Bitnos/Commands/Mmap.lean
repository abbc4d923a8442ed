/-
# The command `mmap`

`Mmap` goes through the memory map the loader has left, from descriptor to descriptor by
the size the firmware gave for one, and prints a line for each. It trusts both sizes: where
the number of bytes is no multiple of that of a descriptor the last line is read across the
end, and there are sizes for which the loop does not end.
-/

import Bitnos.Commands.Execute
import Bitnos.Math.Stride

namespace Bitnos

open Graphics DebugConsole PartialRun Splitter

/-- What `Mmap` reads of an `EFI_MEMORY_DESCRIPTOR`. -/
structure MemoryDescriptor where
  physicalStart : BitVec 64
  numberOfPages : BitVec 64

/-- The part of `BootParam` that describes the memory map. -/
structure BootParam where
  memoryMap : BitVec 64
  memoryMapSize : BitVec 64
  memoryDescriptorSize : BitVec 64

/-- `%08llx: %05llx pages` -/
def mmapLine (desc : MemoryDescriptor) : List (BitVec 8) :=
  hexText 8 desc.physicalStart.toNat ++ ascii ": " ++ hexText 5 desc.numberOfPages.toNat ++
    ascii " pages" ++ [Ascii.newline]

section

variable (descriptor : BitVec 64 → MemoryDescriptor) (kernelBootParam : BootParam)

/-- The loop of `Mmap`, from a value of `it` on. -/
def mmapLoop : ℕ → BitVec 64 → Option (List (BitVec 8))
  | 0, _ => none
  | fuel + 1, it =>
    if it < kernelBootParam.memoryMapSize then
      let desc := descriptor (kernelBootParam.memoryMap + it)
      (mmapLoop fuel (it + kernelBootParam.memoryDescriptorSize)).map (mmapLine desc ++ ·)
    else some []

/-- `Mmap`, for memory with the given descriptors. The loop need not end. -/
def mmap (fuel : ℕ) : Option (List (BitVec 8)) := mmapLoop descriptor kernelBootParam fuel 0#64

/-- The commands with `mmap` among them. -/
def withMmap {ε : Type*} (fuel : ℕ) (others : Commands ε) : Commands ε
  | .mmap, _, env => (mmap descriptor kernelBootParam fuel).map fun text => (text, env)
  | cmd, argv, env => others cmd argv env

/-- The lines of the descriptors at these offsets. -/
def mmapText (its : List (BitVec 64)) : List (BitVec 8) :=
  its.flatMap fun it => mmapLine (descriptor (kernelBootParam.memoryMap + it))

variable {descriptor kernelBootParam}

theorem mmapLoop_eq (fuel : ℕ) (it : BitVec 64) : mmapLoop descriptor kernelBootParam fuel it =
    (Stride.visits kernelBootParam.memoryMapSize kernelBootParam.memoryDescriptorSize fuel it).map
      (mmapText descriptor kernelBootParam) := by
  induction fuel generalizing it with
  | zero => rfl
  | succ fuel ih =>
    rw [mmapLoop, Stride.visits, ih]
    split_ifs
    · rw [Option.map_map, Option.map_map]
      rfl
    · rfl

theorem answerTo_mmap {ε : Type*} (fuel : ℕ) (others : Commands ε) (env : ε) :
    answerTo (withMmap descriptor kernelBootParam fuel others) env [Command.mmap.name] =
      (mmap descriptor kernelBootParam fuel).map fun text => (text, env) := rfl

end

/-- **The memory map.** Typed into an empty line, `mmap` ends exactly when the size of the map is not
beyond the last multiple of that of a descriptor that `size_t` holds. Where that leaves room for one
more descriptor, it prints a line for each one that begins inside the map, in order, and leaves
everything else alone. -/
theorem Terminal.typed_mmap {ε : Type*} {descriptor : BitVec 64 → MemoryDescriptor}
    {kernelBootParam : BootParam} {others : Commands ε} {garbage : ℕ → BitVec 8} {font : Font}
    {size : RectSize} {t : Terminal ε} (hsound : t.Sound font size) (hempty : t.shell.cur = 0) :
    let typed (fuel : ℕ) := run (Terminal.putChar font
      (execute (withMmap descriptor kernelBootParam fuel others) garbage)) t
      (ascii "mmap" ++ [Ascii.newline])
    let mapSize := kernelBootParam.memoryMapSize.toNat
    let descSize := kernelBootParam.memoryDescriptorSize.toNat
    ((∃ fuel u, typed fuel = some u) ↔ mapSize ≤ 2 ^ 64 - Nat.gcd descSize (2 ^ 64)) ∧
      (mapSize + descSize ≤ 2 ^ 64 → ∀ n, mapSize ≤ n * descSize → (∀ k < n, k * descSize < mapSize) →
        ∀ fuel > n, ∃ u, typed fuel = some u ∧
          u.printed = t.printed ++ ascii "mmap" ++ Ascii.newline ::
            ((List.range n).flatMap fun k => mmapLine (descriptor (kernelBootParam.memoryMap +
              BitVec.ofNat 64 (k * descSize)))) ++ kDefaultPrompt ∧
          u.shell.line = [] ∧ u.env = t.env) := by
  intro typed mapSize descSize
  constructor
  · rw [← Stride.exists_visits_iff]
    -- the next prompt is printed if the loop ends
    refine exists_congr fun fuel =>
      (Terminal.exists_run_name_iff garbage font hsound.prompt hempty .mmap).trans ?_
    rw [answerTo_mmap, mmap, mmapLoop_eq, ← Option.isSome_iff_exists, Option.isSome_map,
      Option.isSome_map, Option.isSome_iff_exists]
  · intro hroom n hlast hbefore fuel hfuel
    -- with room for one more descriptor the offsets are the multiples
    have hvisits := Stride.visits_of_room hroom hlast hbefore hfuel
    have hmmap : mmap descriptor kernelBootParam fuel = some ((List.range n).flatMap fun k =>
        mmapLine (descriptor (kernelBootParam.memoryMap + BitVec.ofNat 64 (k * descSize)))) := by
      rw [mmap, mmapLoop_eq]
      refine (congrArg (Option.map _) hvisits).trans ?_
      rw [Option.map_some, mmapText, List.flatMap_map]
    have hanswer := @answerTo_mmap descriptor kernelBootParam _ fuel others t.env
    rw [hmmap] at hanswer
    exact Terminal.run_name garbage font hsound.prompt hempty hanswer

/-- A map of 100 bytes with descriptors of 48: the third line is read across the end. -/
theorem Terminal.typed_mmap_hundredBytes :
    let descriptor : BitVec 64 → MemoryDescriptor := fun p => ⟨p, 1#64⟩
    let respond :=
      execute (withMmap descriptor ⟨0x1000#64, 100#64, 48#64⟩ 4 fun _ _ (_ : Unit) => none)
      fun _ => 0
    let t := boot (fun _ => 0) ⟨80, 25⟩ (Vector.replicate kLineLength 0) ()
    ∃ u, run (Terminal.putChar (fun _ => 0) respond) t (ascii "mmap" ++ [Ascii.newline]) = some u ∧
      u.printed = t.printed ++ ascii "mmap" ++ Ascii.newline ::
        ((List.range 3).flatMap fun k =>
          mmapLine (descriptor (0x1000#64 + BitVec.ofNat 64 (k * 48)))) ++
          kDefaultPrompt := by
  intro descriptor respond t
  have hsound : t.Sound (fun _ => 0) ⟨80, 25⟩ := Sound.boot _ _ _
  obtain ⟨u, hrun, hprinted, -, -⟩ := (@Terminal.typed_mmap _ descriptor ⟨0x1000#64, 100#64, 48#64⟩
    (fun _ _ (_ : Unit) => none) (fun _ => 0) _ _ _ hsound rfl).2 (by decide) 3
      (by decide) (by decide)
    4 (by decide)
  exact ⟨u, hrun, hprinted⟩

end Bitnos
