import Treeos.Pmm.Accesses

/-!
# `pmm_init` on the array of the bitmap

`page_bitmap_bits` has `BITMAP_ARRAY_SIZE` words and the region functions check no index. Here
`pmm_init` is run on just this array: the first access behind it ends the run.
-/
namespace Treeos

open ByteMemory

/-- An access to `page_bitmap_bits` -/
def BitAccess.onArray (bm : Bitmap) (a : BitAccess) : Except Panic Bitmap :=
  if a.word < bitmapArraySize then .ok (a.apply bm) else .error .outside

def pagingInitRegionOnArray (bm : Bitmap) (base size : BitVec 32) : Except Panic Bitmap :=
  (pagingInitRegionAccesses base size).foldlM BitAccess.onArray bm

def pagingDeinitRegionOnArray (bm : Bitmap) (base size : BitVec 32) : Except Panic Bitmap :=
  (pagingDeinitRegionAccesses base size).foldlM BitAccess.onArray bm

/-- `parse_memory_map` from the entry at `mmap` on; the loop may take `fuel` rounds. -/
def parseMemoryMapOnArray (m : Memory) (mbi : MultibootInfo) :
    Nat → BitVec 32 → Bitmap → Except Panic Bitmap
  | fuel, mmap, bm =>
    if mmap < mbi.mmapAddr + mbi.mmapLength then
      match fuel with
      | 0 => .error .fuel
      | fuel + 1 => do
        let addr32 := (load64 m (mmap + 4) &&& 0xFFFFFFFF).setWidth 32
        let len32 := (load64 m (mmap + 4) &&& 0xFFFFFFFF).setWidth 32
        let bm ← (if load32 m (mmap + 20) = multibootMemoryAvailable
          then pagingInitRegionOnArray bm addr32 len32 else .ok bm)
        parseMemoryMapOnArray m mbi fuel (mmap + load32 m mmap + 4) bm
    else .ok bm

/-- The loop of `preserve_modules`, with `count` modules to go. -/
def preserveFromOnArray (m : Memory) : Nat → BitVec 32 → Bitmap → Except Panic Bitmap
  | 0, _, bm => .ok bm
  | count + 1, mod, bm => do
    kassert (mod ≠ 0) "mod"
    let modStart := load32 m mod
    let modEnd := load32 m (mod + 4)
    let bm ← pagingDeinitRegionOnArray bm modStart (modEnd - modStart - 1)
    preserveFromOnArray m count (mod + 16) bm

/-- `preserve_modules` -/
def preserveModulesOnArray (m : Memory) (mbi : MultibootInfo) (bm : Bitmap) :
    Except Panic Bitmap := do
  panicIf (mbi.modsCount ≠ 0 ∧ mbi.flags &&& multibootInfoMods = 0)
    "Multiboot header does not include module information"
  preserveFromOnArray m mbi.modsCount.toNat mbi.modsAddr bm

/-- `pmm_init`, up to its registration of the page fault handler. -/
def pmmInitOnArray (fuel : Nat) (image : KernelImage) (m : Memory) (mbi : MultibootInfo)
    (bits : Nat → BitVec 32) : Except Panic PmmState := do
  panicIf (mbi.flags &&& multibootInfoMemory = 0)
    "Multiboot header does not include memory size information"
  panicIf (mbi.flags &&& multibootInfoMemMap = 0)
    "Multiboot header does not include memory map information"
  let (_, frames) ← pagingInitBitmap bits ((mbi.memLower + mbi.memUpper) * 1024)
  let bm ← parseMemoryMapOnArray m mbi fuel mbi.mmapAddr frames.bitmap
  let bm ← pagingDeinitRegionOnArray bm image.realKernelStart
    (image.realKernelEnd - image.realKernelStart)
  let bm ← preserveModulesOnArray m mbi bm
  .ok ⟨{ frames with bitmap := bm }, pagingAllocatorInit image⟩

/-! ### The run that stays inside of the array

Each function on the array does what the one on a bitmap without end does, as long as the
accesses are inside; and it returns only if they are. -/

theorem onArray_eq {accesses : List BitAccess} (inside : InArray accesses) (bm : Bitmap) :
    accesses.foldlM BitAccess.onArray bm = .ok (applyAll bm accesses) := by
  induction accesses generalizing bm with
  | nil => rfl
  | cons a rest ih =>
    obtain ⟨here, later⟩ := List.forall_mem_cons.mp inside
    rw [List.foldlM_cons, BitAccess.onArray, if_pos here, ok_bind]
    exact ih later _

theorem inArray_of_onArray {accesses : List BitAccess} {bm bm' : Bitmap}
    (returned : accesses.foldlM BitAccess.onArray bm = .ok bm') : InArray accesses := by
  induction accesses generalizing bm with
  | nil => exact inArray_nil
  | cons a rest ih =>
    rw [List.foldlM_cons] at returned
    obtain ⟨next, first, returned⟩ := bind_ok_iff.mp returned
    refine List.forall_mem_cons.mpr ⟨?_, ih returned⟩
    by_contra behind
    rw [BitAccess.onArray, if_neg behind] at first
    cases first

theorem onArray_fuel (accesses : List BitAccess) (bm : Bitmap) :
    accesses.foldlM BitAccess.onArray bm ≠ .error .fuel := by
  induction accesses generalizing bm with
  | nil => exact fun stopped => by cases stopped
  | cons a rest ih =>
    intro stopped
    rw [List.foldlM_cons] at stopped
    rcases bind_error_iff.mp stopped with here | ⟨next, -, later⟩
    · unfold BitAccess.onArray at here
      split at here <;> cases here
    · exact ih next later

theorem pagingInitRegionOnArray_eq {base size : BitVec 32}
    (inside : InArray (pagingInitRegionAccesses base size)) (bm : Bitmap) :
    pagingInitRegionOnArray bm base size = .ok (pagingInitRegion bm base size) := by
  rw [pagingInitRegion_accesses]
  exact onArray_eq inside bm

theorem pagingDeinitRegionOnArray_eq {base size : BitVec 32}
    (inside : InArray (pagingDeinitRegionAccesses base size)) (bm : Bitmap) :
    pagingDeinitRegionOnArray bm base size = .ok (pagingDeinitRegion bm base size) := by
  rw [pagingDeinitRegion_accesses]
  exact onArray_eq inside bm

section MemoryMap

variable {m : Memory} {mbi : MultibootInfo} {fuel : Nat} {mmap : BitVec 32} {bm bm' : Bitmap}

theorem parseMemoryMapOnArray_eq (inside : InArray (parseMemoryMapAccesses m mbi fuel mmap)) :
    parseMemoryMapOnArray m mbi fuel mmap bm = parseMemoryMap m mbi fuel mmap bm := by
  induction fuel generalizing mmap bm with
  | zero =>
    unfold parseMemoryMapOnArray parseMemoryMap
    rfl
  | succ fuel ih =>
    unfold parseMemoryMapOnArray parseMemoryMap
    unfold parseMemoryMapAccesses at inside
    split
    next more =>
      rw [if_pos more] at inside
      obtain ⟨here, later⟩ := inArray_append.mp inside
      dsimp only
      split
      next available =>
        rw [if_pos available] at here
        rw [pagingInitRegionOnArray_eq here, ok_bind]
        exact ih later
      next => exact ih later
    next => rfl

theorem inArray_of_parseMemoryMap (returned : parseMemoryMapOnArray m mbi fuel mmap bm = .ok bm') :
    InArray (parseMemoryMapAccesses m mbi fuel mmap) := by
  induction fuel generalizing mmap bm with
  | zero => exact inArray_nil
  | succ fuel ih =>
    unfold parseMemoryMapOnArray at returned
    unfold parseMemoryMapAccesses
    split at returned
    next more =>
      rw [if_pos more]
      obtain ⟨next, first, returned⟩ := bind_ok_iff.mp returned
      refine inArray_append.mpr ⟨?_, ih returned⟩
      split at first
      next available =>
        rw [if_pos available]
        exact inArray_of_onArray first
      next other =>
        rw [if_neg other]
        exact inArray_nil
    next done =>
      rw [if_neg done]
      exact inArray_nil

/-- With a round for each entry the loop is not what runs out. -/
theorem parseMemoryMapOnArray_fuel {entries : List MmapEntry}
    (holds : MmapHolds m (mbi.mmapAddr + mbi.mmapLength) mmap entries)
    (enough : entries.length ≤ fuel) : parseMemoryMapOnArray m mbi fuel mmap bm ≠ .error .fuel := by
  induction entries generalizing fuel mmap bm with
  | nil =>
    obtain rfl : mmap = mbi.mmapAddr + mbi.mmapLength := holds
    unfold parseMemoryMapOnArray
    rw [if_neg (BitVec.lt_irrefl _)]
    exact fun stopped => by cases stopped
  | cons e entries ih =>
    obtain ⟨⟨size, -⟩, -, rest⟩ := holds
    obtain ⟨fuel, rfl⟩ : ∃ n, fuel = n + 1 := ⟨fuel - 1, by rw [List.length_cons] at enough; omega⟩
    intro stopped
    unfold parseMemoryMapOnArray at stopped
    split at stopped
    · rcases bind_error_iff.mp stopped with here | ⟨next, -, later⟩
      · split at here
        · exact onArray_fuel _ _ here
        · cases here
      · rw [size] at later
        exact ih rest (Nat.le_of_succ_le_succ enough) later
    · cases stopped

theorem preserveFromOnArray_eq {count : Nat} {mod : BitVec 32}
    (inside : InArray (preserveFromAccesses m count mod)) :
    preserveFromOnArray m count mod bm = preserveFrom m count mod bm := by
  induction count generalizing mod bm with
  | zero => rfl
  | succ count ih =>
    obtain ⟨here, later⟩ := inArray_append.mp inside
    unfold preserveFromOnArray preserveFrom
    dsimp only
    rw [pagingDeinitRegionOnArray_eq here, ok_bind, ih later]

theorem inArray_of_preserveFrom {count : Nat} {mod : BitVec 32}
    (returned : preserveFromOnArray m count mod bm = .ok bm') :
    InArray (preserveFromAccesses m count mod) := by
  induction count generalizing mod bm with
  | zero => exact inArray_nil
  | succ count ih =>
    obtain ⟨_, -, returned⟩ := bind_ok_iff.mp returned
    obtain ⟨next, first, returned⟩ := bind_ok_iff.mp returned
    exact inArray_append.mpr ⟨inArray_of_onArray first, ih returned⟩

theorem preserveFromOnArray_fuel (count : Nat) (mod : BitVec 32) (bm : Bitmap) :
    preserveFromOnArray m count mod bm ≠ .error .fuel := by
  induction count generalizing mod bm with
  | zero => exact fun stopped => by cases stopped
  | succ count ih =>
    intro stopped
    rcases bind_error_iff.mp stopped with null | ⟨_, -, stopped⟩
    · exact kassert_fuel _ _ null
    rcases bind_error_iff.mp stopped with here | ⟨next, -, later⟩
    · exact onArray_fuel _ _ here
    · exact ih _ next later

end MemoryMap

section PmmInit

variable {fuel : Nat} {image : KernelImage} {m : Memory} {mbi : MultibootInfo}
  {bits : Nat → BitVec 32} {s : PmmState}

/-- Inside of the array, `pmm_init` runs as on a bitmap without end. -/
theorem pmmInitOnArray_eq (inside : InArray (pmmInitAccesses fuel image m mbi)) :
    pmmInitOnArray fuel image m mbi bits = pmmInit fuel image m mbi bits := by
  obtain ⟨map, rest⟩ := inArray_append.mp inside
  obtain ⟨kernel, modules⟩ := inArray_append.mp rest
  unfold pmmInitOnArray pmmInit preserveModulesOnArray preserveModules
  simp only [parseMemoryMapOnArray_eq map, pagingDeinitRegionOnArray_eq kernel, ok_bind,
    preserveFromOnArray_eq modules]

/-- It returns only if it has stayed inside. -/
theorem inArray_of_pmmInit (returned : pmmInitOnArray fuel image m mbi bits = .ok s) :
    InArray (pmmInitAccesses fuel image m mbi) := by
  obtain ⟨_, -, returned⟩ := bind_ok_iff.mp returned
  obtain ⟨_, -, returned⟩ := bind_ok_iff.mp returned
  obtain ⟨⟨bytes, frames⟩, -, returned⟩ := bind_ok_iff.mp returned
  obtain ⟨mapped, parsed, returned⟩ := bind_ok_iff.mp returned
  obtain ⟨kept, reserved, returned⟩ := bind_ok_iff.mp returned
  obtain ⟨bm', preserved, -⟩ := bind_ok_iff.mp returned
  obtain ⟨_, -, modules⟩ := bind_ok_iff.mp preserved
  exact inArray_append.mpr ⟨inArray_of_parseMemoryMap parsed,
    inArray_append.mpr ⟨inArray_of_onArray reserved, inArray_of_preserveFrom modules⟩⟩

/-- So all that is known about `pmm_init` holds of the run on the array. -/
theorem pmmInit_of_onArray (returned : pmmInitOnArray fuel image m mbi bits = .ok s) :
    pmmInit fuel image m mbi bits = .ok s := by
  rw [← returned]
  exact (pmmInitOnArray_eq (inArray_of_pmmInit returned)).symm

variable {entries : List MmapEntry}

theorem pmmInitOnArray_fuel
    (holds : MmapHolds m (mbi.mmapAddr + mbi.mmapLength) mbi.mmapAddr entries)
    (enough : entries.length ≤ fuel) : pmmInitOnArray fuel image m mbi bits ≠ .error .fuel := by
  intro stopped
  rcases bind_error_iff.mp stopped with first | ⟨_, -, stopped⟩
  · exact panicIf_fuel _ _ first
  rcases bind_error_iff.mp stopped with second | ⟨_, -, stopped⟩
  · exact panicIf_fuel _ _ second
  rcases bind_error_iff.mp stopped with unfilled | ⟨_, -, stopped⟩
  · rcases bind_error_iff.mp unfilled with large | ⟨_, -, done⟩
    · exact kassert_fuel _ _ large
    · cases done
  rcases bind_error_iff.mp stopped with unparsed | ⟨_, -, stopped⟩
  · exact parseMemoryMapOnArray_fuel holds enough unparsed
  rcases bind_error_iff.mp stopped with unreserved | ⟨_, -, stopped⟩
  · exact onArray_fuel _ _ unreserved
  rcases bind_error_iff.mp stopped with unpreserved | ⟨_, -, done⟩
  · rcases bind_error_iff.mp unpreserved with missing | ⟨_, -, looped⟩
    · exact panicIf_fuel _ _ missing
    · exact preserveFromOnArray_fuel _ _ _ looped
  · cases done

/-! ### Free frames and available memory -/

/-- The loops of `pmm_init` end before the bit behind the array. -/
structure EndsInArray (image : KernelImage) (entries : List MmapEntry) (modules : List Module) :
    Prop where
  available : ∀ e ∈ entries, e.Available →
    lastPage (e.addr.setWidth 32) (e.addr.setWidth 32) < 32768
  kernel : lastPage image.realKernelStart (image.realKernelEnd - image.realKernelStart) < 32768
  modules : ∀ mod ∈ modules, lastPage mod.modStart (mod.modEnd - mod.modStart - 1) < 32768

/-- An empty module, or one that ends before it starts, has so large a size that its loop does
not end there. -/
theorem EndsInArray.proper {modules : List Module} (ends : EndsInArray image entries modules)
    {mod : Module} (member : mod ∈ modules) : mod.modStart < mod.modEnd := by
  have last := ends.modules mod member
  unfold lastPage at last
  by_contra reversed
  have size : mod.modStart.toNat + (mod.modEnd - mod.modStart - 1).toNat + 1 =
      2 ^ 32 + mod.modEnd.toNat := by bv_omega
  omega

theorem entries_inArray {a : BitVec 32}
    (holds : MmapHolds m (mbi.mmapAddr + mbi.mmapLength) a entries) :
    (∀ b ∈ entryPlaces a entries, load32 m (b + 20) = multibootMemoryAvailable →
      lastPage (entryAddr m b) (entryAddr m b) < 32768) ↔
    ∀ e ∈ entries, e.Available →
      lastPage (e.addr.setWidth 32) (e.addr.setWidth 32) < 32768 := by
  induction entries generalizing a with
  | nil => exact iff_of_true (List.forall_mem_nil _) (List.forall_mem_nil _)
  | cons e entries ih =>
    obtain ⟨⟨-, addr, -, type⟩, -, rest⟩ := holds
    rw [entryPlaces, List.forall_mem_cons, List.forall_mem_cons, ih rest, entryAddr, addr, type]
    exact Iff.rfl

theorem length_entryPlaces (a : BitVec 32) (entries : List MmapEntry) :
    (entryPlaces a entries).length = entries.length := by
  induction entries generalizing a with
  | nil => rfl
  | cons e entries ih => exact congrArg (· + 1) (ih _)

theorem endsInArray_iff (holds : MmapHolds m (mbi.mmapAddr + mbi.mmapLength) mbi.mmapAddr entries)
    (enough : entries.length ≤ fuel) : EndsInArray image entries (mbi.modules m) ↔
      InArray (pmmInitAccesses fuel image m mbi) := by
  have visited : visitedEntries m mbi fuel mbi.mmapAddr = entryPlaces mbi.mmapAddr entries := by
    rw [visitedEntries_eq holds.chain, List.take_of_length_le]
    rwa [length_entryPlaces]
  rw [pmmInitAccesses, inArray_append, inArray_append, parseMemoryMap_inArray, visited,
    entries_inArray holds, pagingDeinitRegion_inArray, preserveFrom_inArray]
  constructor
  · intro ends
    exact ⟨ends.available, ends.kernel, ends.modules⟩
  · rintro ⟨available, kernel, modules⟩
    exact ⟨available, kernel, modules⟩

/-- On a bitmap without end, `pmm_init` stops with a message of its own only. -/
theorem pmmInit_stops {e : Panic}
    (holds : MmapHolds m (mbi.mmapAddr + mbi.mmapLength) mbi.mmapAddr entries)
    (enough : entries.length ≤ fuel) (stopped : pmmInit fuel image m mbi (fun _ => 0) = .error e) :
    ∃ text, e = .msg text := by
  rcases bind_error_iff.mp stopped with first | ⟨_, -, stopped⟩
  · exact ⟨_, panicIf_error first⟩
  rcases bind_error_iff.mp stopped with second | ⟨_, -, stopped⟩
  · exact ⟨_, panicIf_error second⟩
  rcases bind_error_iff.mp stopped with unfilled | ⟨⟨bytes, frames⟩, filled, stopped⟩
  · rcases bind_error_iff.mp unfilled with large | ⟨_, -, done⟩
    · exact ⟨_, kassert_error large⟩
    · cases done
  rcases bind_error_iff.mp stopped with unparsed | ⟨_, -, stopped⟩
  · obtain ⟨bm, parsed, -⟩ := parseMemoryMap_free holds enough frames.bitmap
      (by rw [(pagingInitBitmap_free filled).2]; simp)
    rw [parsed] at unparsed
    cases unparsed
  rcases bind_error_iff.mp stopped with unpreserved | ⟨_, -, done⟩
  · rcases bind_error_iff.mp unpreserved with missing | ⟨_, -, looped⟩
    · exact ⟨_, panicIf_error missing⟩
    · exact ⟨_, preserveFrom_error looped⟩
  · cases done

/-- The free frames are as the memory map says exactly when it hides the slips of the code. -/
theorem freeAsMapped_iff (holds : MmapHolds m (mbi.mmapAddr + mbi.mmapLength) mbi.mmapAddr entries)
    (enough : entries.length ≤ fuel) (ends : EndsInArray image entries (mbi.modules m))
    (returned : pmmInit fuel image m mbi (fun _ => 0) = .ok s) :
    FreeAsMapped image entries (mbi.modules m) s ↔
      MapFits image entries (mbi.modules m) mbi.pageCount := by
  obtain ⟨count, free⟩ := pmmInit_free holds enough returned
  have clear (f : Nat) : s.frames.bitmap.testBit f = false ↔
      ((8192 ≤ f ∨ f ∈ freedPages entries) ∧ f ≠ 0) ∧ f ∉ reservedPages image (mbi.modules m) := by
    rw [← Bitmap.mem_free, free]
    rfl
  constructor
  · intro mapped
    -- each part of the condition speaks of frames that one of the slips leaves free or in use
    refine ⟨fun f above inside unreserved => ?_, fun e member available f freed nonzero inside
      unreserved => ?_, fun f covered nonzero far => ?_⟩
    · exact mapped.available f (count ▸ inside) ((clear f).mpr ⟨⟨.inl above, by omega⟩, unreserved⟩)
    · exact mapped.available f (count ▸ inside)
        ((clear f).mpr ⟨⟨.inr ⟨e, member, available, freed⟩, nonzero⟩, unreserved⟩)
    · exact ((clear f).mp (mapped.free f covered nonzero far)).1.1
  · intro fits
    refine ⟨fun f _ bit => ((clear f).mp bit).1.2, fun f inside bit => ?_, fun f _ bit => ?_,
      fun f covered nonzero far => ?_⟩
    · obtain ⟨⟨above | ⟨e, member, available, freed⟩, nonzero⟩, unreserved⟩ := (clear f).mp bit
      · exact fits.filled f above (count ▸ inside) unreserved
      · exact fits.freed e member available f freed nonzero (count ▸ inside) unreserved
    · have unreserved := ((clear f).mp bit).2
      exact ⟨fun meets => unreserved (reservedPages_of_meets (.inl meets)),
        fun mod member meets => unreserved (reservedPages_of_meets (.inr ⟨mod, member, meets⟩))⟩
    · -- the loops are inclusive: they reserve the page behind the kernel and each module, too
      refine (clear f).mpr ⟨⟨fits.covered f covered nonzero far, nonzero⟩, fun reserved => ?_⟩
      exact not_far_of_reserved (fun mod member => ends.proper member) reserved far

end PmmInit

/-- `pmm_init` leaves the frames free that the memory map says exactly when its loops stay inside
of the array and the map hides the slips of the code. -/
theorem pmmInit_freeAsMapped_iff (m : Memory) (mbi : MultibootInfo) (entries : List MmapEntry)
    (holds : MmapHolds m (mbi.mmapAddr + mbi.mmapLength) mbi.mmapAddr entries) (fuel : Nat)
    (enough : entries.length ≤ fuel) (image : KernelImage) :
    pmmInitOnArray fuel image m mbi (fun _ => 0) ≠ .error .fuel ∧
    ((∀ text, pmmInitOnArray fuel image m mbi (fun _ => 0) ≠ .error (.msg text)) →
      ((∃ s, pmmInitOnArray fuel image m mbi (fun _ => 0) = .ok s ∧
          FreeAsMapped image entries (mbi.modules m) s) ↔
        EndsInArray image entries (mbi.modules m) ∧
          MapFits image entries (mbi.modules m) mbi.pageCount)) := by
  refine ⟨pmmInitOnArray_fuel holds enough, fun accepted => ⟨?_, ?_⟩⟩
  · rintro ⟨s, returned, mapped⟩
    have ends := (endsInArray_iff holds enough).mpr (inArray_of_pmmInit returned)
    exact ⟨ends, (freeAsMapped_iff holds enough ends (pmmInit_of_onArray returned)).mp mapped⟩
  · rintro ⟨ends, fits⟩
    -- no access is behind the array, so only a message could have stopped the run
    have same : pmmInitOnArray fuel image m mbi (fun _ => 0) =
        pmmInit fuel image m mbi (fun _ => 0) :=
      pmmInitOnArray_eq ((endsInArray_iff holds enough).mp ends)
    cases result : pmmInit fuel image m mbi (fun _ => 0) with
    | error e =>
      obtain ⟨text, rfl⟩ := pmmInit_stops holds enough result
      exact absurd (same.trans result) (accepted text)
    | ok s =>
      exact ⟨s, same.trans result, (freeAsMapped_iff holds enough ends result).mpr fits⟩

/-- The page at 64 KiB lies inside an available region, but `pmm_init` does not free it. -/
theorem pcMemory_lost :
    ∃ s, pmmInitOnArray 2 smallImage pcMemory pcInfo (fun _ => 0) = .ok s ∧
      ¬FreeAsMapped smallImage pcEntries (pcInfo.modules pcMemory) s := by
  obtain ⟨s, returned⟩ := pmmInit_returns pcMemory_holds (Nat.le_refl 2) smallImage (by decide)
    (by decide) rfl (preserveModules_none rfl)
  have ends : EndsInArray smallImage pcEntries (pcInfo.modules pcMemory) :=
    ⟨by decide, by decide, List.forall_mem_nil _⟩
  have inside := (endsInArray_iff pcMemory_holds (Nat.le_refl 2)).mp ends
  refine ⟨s, (pmmInitOnArray_eq inside).trans returned, fun mapped => ?_⟩
  have fits := (freeAsMapped_iff pcMemory_holds (Nat.le_refl 2) ends returned).mp mapped
  have covered : ∃ e ∈ pcEntries, e.Covers 16 :=
    ⟨_, List.mem_cons_self, rfl, by unfold FrameInside; decide⟩
  have far : FarFromUse smallImage (pcInfo.modules pcMemory) 16 :=
    ⟨by unfold FrameAway; decide, List.forall_mem_nil _⟩
  rcases fits.covered 16 covered (by decide) far with above | ⟨e, member, -, freed⟩
  · exact absurd above (by decide)
  · simp only [pcEntries, List.mem_cons, List.not_mem_nil, or_false] at member
    rcases member with rfl | rfl <;> exact absurd (mem_regionPages.mp freed) (by decide)

theorem doubledMemory_freeAsMapped :
    ∃ s, pmmInitOnArray 1 smallImage (mmapMemory [(0x100000, 0x101000)]) doubledInfo (fun _ => 0) =
        .ok s ∧ FreeAsMapped smallImage [doubledEntry] [] s := by
  have enough := Nat.le_refl 1
  have ends : EndsInArray smallImage [doubledEntry]
      (doubledInfo.modules (mmapMemory [(0x100000, 0x101000)])) :=
    ⟨by decide, by decide, List.forall_mem_nil _⟩
  have inside := (endsInArray_iff doubledMemory_holds enough).mp ends
  obtain ⟨s, returned⟩ := pmmInit_returns doubledMemory_holds enough smallImage (by decide)
    (by decide) rfl (preserveModules_none rfl)
  have same := (pmmInitOnArray_eq inside).trans returned
  refine ((pmmInit_freeAsMapped_iff _ doubledInfo [doubledEntry] doubledMemory_holds 1 enough
    smallImage).2 (fun text => by rw [same]; simp)).mpr ⟨ends, ?_⟩
  have pages (f : Nat) : f ∈ doubledEntry.freed ↔ 256 ≤ f ∧ f ≤ 512 := Iff.rfl
  have covers (f : Nat) : doubledEntry.Covers f ↔ 256 ≤ f ∧ f ≤ 512 := by
    refine ⟨fun covered => ?_, fun inside => ⟨rfl, ?_⟩⟩
    · have inside : 0x100000 ≤ 4096 * f ∧ 4096 * f + 4096 ≤ 0x201000 := covered.2
      omega
    · show 0x100000 ≤ 4096 * f ∧ 4096 * f + 4096 ≤ 0x201000
      omega
  refine ⟨fun f above inside => ?_, fun e member _ f freed _ _ _ => ?_, fun f covered _ _ => ?_⟩
  · have small : f < 513 := inside
    omega
  · rw [List.mem_singleton.mp member, pages] at freed
    exact ⟨doubledEntry, List.mem_singleton.mpr rfl, (covers f).mpr freed⟩
  · obtain ⟨e, member, covered⟩ := covered
    rw [List.mem_singleton.mp member, covers] at covered
    exact .inr ⟨doubledEntry, List.mem_singleton.mpr rfl, rfl, (pages f).mpr covered⟩

end Treeos
