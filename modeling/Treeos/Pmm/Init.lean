import Treeos.Lib.ByteMemory
import Treeos.Pmm.Layout
import Treeos.Pmm.Region
import Mathlib.Data.Set.Lattice

/-!
# `pmm_init`

The memory map and the module list of the boot loader, the loops over them, and the
frames they leave free.
-/
namespace Treeos

open ByteMemory

/-- The fields of `struct multiboot_info` that `pmm_init` reads. -/
structure MultibootInfo where
  flags : BitVec 32
  memLower : BitVec 32
  memUpper : BitVec 32
  modsCount : BitVec 32
  modsAddr : BitVec 32
  mmapLength : BitVec 32
  mmapAddr : BitVec 32

def multibootInfoMemory : BitVec 32 := 0x1
def multibootInfoMods : BitVec 32 := 0x8
def multibootInfoMemMap : BitVec 32 := 0x40
def multibootMemoryAvailable : BitVec 32 := 1

def load64 (m : Memory) (a : BitVec 32) : BitVec 64 := load32 m (a + 4) ++ load32 m a

/-- `parse_memory_map` from the entry at `mmap` on; the loop may take `fuel` rounds. -/
def parseMemoryMap (m : Memory) (mbi : MultibootInfo) :
    Nat → BitVec 32 → Bitmap → Except Panic Bitmap
  | fuel, mmap, bm =>
    if mmap < mbi.mmapAddr + mbi.mmapLength then
      match fuel with
      | 0 => .error .fuel
      | fuel + 1 =>
        let addr32 := (load64 m (mmap + 4) &&& 0xFFFFFFFF).setWidth 32
        -- The length is taken from the address as well.
        let len32 := (load64 m (mmap + 4) &&& 0xFFFFFFFF).setWidth 32
        let bm := if load32 m (mmap + 20) = multibootMemoryAvailable
          then pagingInitRegion bm addr32 len32 else bm
        parseMemoryMap m mbi fuel (mmap + load32 m mmap + 4) bm
    else .ok bm

/-- The loop of `preserve_modules`, with `count` modules to go. -/
def preserveFrom (m : Memory) : Nat → BitVec 32 → Bitmap → Except Panic Bitmap
  | 0, _, bm => .ok bm
  | count + 1, mod, bm => do
    kassert (mod ≠ 0) "mod"
    let modStart := load32 m mod
    let modEnd := load32 m (mod + 4)
    preserveFrom m count (mod + 16) (pagingDeinitRegion bm modStart (modEnd - modStart - 1))

/-- `preserve_modules` -/
def preserveModules (m : Memory) (mbi : MultibootInfo) (bm : Bitmap) : Except Panic Bitmap := do
  panicIf (mbi.modsCount ≠ 0 ∧ mbi.flags &&& multibootInfoMods = 0)
    "Multiboot header does not include module information"
  preserveFrom m mbi.modsCount.toNat mbi.modsAddr bm

/-- What `pmm_init` sets up: the frame bitmap and `placement_heap`. -/
structure PmmState where
  frames : PageFrames
  placementHeap : BitVec 32

/-- `pmm_init`, up to its registration of the page fault handler. -/
def pmmInit (fuel : Nat) (image : KernelImage) (m : Memory) (mbi : MultibootInfo)
    (bits : Nat → BitVec 32) : Except Panic PmmState := do
  panicIf (mbi.flags &&& multibootInfoMemory = 0)
    "Multiboot header does not include memory size information"
  panicIf (mbi.flags &&& multibootInfoMemMap = 0)
    "Multiboot header does not include memory map information"
  let (_, frames) ← pagingInitBitmap bits ((mbi.memLower + mbi.memUpper) * 1024)
  let bm ← parseMemoryMap m mbi fuel mbi.mmapAddr frames.bitmap
  -- Make sure the kernel's location in physical memory isn't marked as free
  let bm := pagingDeinitRegion bm image.realKernelStart
    (image.realKernelEnd - image.realKernelStart)
  let bm ← preserveModules m mbi bm
  .ok ⟨{ frames with bitmap := bm }, pagingAllocatorInit image⟩

/-! ### What the boot loader leaves in memory -/

/-- A `struct multiboot_mmap_entry`. -/
structure MmapEntry where
  size : BitVec 32
  addr : BitVec 64
  len : BitVec 64
  type : BitVec 32

/-- The entries `es` lie one after the other from `a` to `stop`. -/
def MmapHolds (m : Memory) (stop : BitVec 32) : BitVec 32 → List MmapEntry → Prop
  | a, [] => a = stop
  | a, e :: es =>
    (load32 m a = e.size ∧ load64 m (a + 4) = e.addr ∧ load64 m (a + 12) = e.len ∧
      load32 m (a + 20) = e.type) ∧
    a.toNat + e.size.toNat + 4 ≤ stop.toNat ∧ MmapHolds m stop (a + e.size + 4) es

/-- A `struct multiboot_mod_list`, without its command line. -/
structure Module where
  modStart : BitVec 32
  modEnd : BitVec 32

/-- The modules from the record at `mod` on. -/
def modulesFrom (m : Memory) : Nat → BitVec 32 → List Module
  | 0, _ => []
  | count + 1, mod => ⟨load32 m mod, load32 m (mod + 4)⟩ :: modulesFrom m count (mod + 16)

def MmapEntry.Available (e : MmapEntry) : Prop := e.type = multibootMemoryAvailable

instance (e : MmapEntry) : Decidable e.Available := inferInstanceAs (Decidable (_ = _))

/-- The pages that `parse_memory_map` frees for an available entry: as many as there are
below the region, and one more. -/
def MmapEntry.freed (e : MmapEntry) : Set Nat :=
  regionPages (e.addr.setWidth 32) (e.addr.setWidth 32)

/-- The pages that `preserve_modules` reserves for a module. -/
def Module.reserved (mod : Module) : Set Nat :=
  regionPages mod.modStart (mod.modEnd - mod.modStart - 1)

/-- The pages that `pmm_init` reserves for the kernel. -/
def KernelImage.reserved (image : KernelImage) : Set Nat :=
  regionPages image.realKernelStart (image.realKernelEnd - image.realKernelStart)

/-- The pages that the map makes free. -/
def freedPages (entries : List MmapEntry) : Set Nat := {f | ∃ e ∈ entries, e.Available ∧ f ∈ e.freed}

/-- The pages that are reserved whatever the map says. -/
def reservedPages (image : KernelImage) (modules : List Module) : Set Nat :=
  {f | f ∈ image.reserved ∨ ∃ mod ∈ modules, f ∈ mod.reserved}

/-! ### What the loops do -/

theorem low_word (addr : BitVec 64) :
    (addr &&& 0xFFFFFFFF).setWidth 32 = addr.setWidth 32 := by
  have mask : (0xFFFFFFFF : BitVec 64).setWidth 32 = BitVec.allOnes 32 := by decide
  rw [BitVec.setWidth_and, mask, BitVec.and_allOnes]

/-- One round frees the pages of an available entry. -/
theorem mmapRound_free (e : MmapEntry) (bm : Bitmap) (zero : 0 ∉ bm.free) :
    (if e.type = multibootMemoryAvailable
      then pagingInitRegion bm ((e.addr &&& 0xFFFFFFFF).setWidth 32)
        ((e.addr &&& 0xFFFFFFFF).setWidth 32) else bm).free =
      (bm.free ∪ freedPages [e]) \ {0} := by
  split
  next available =>
    rw [low_word, pagingInitRegion_free]
    congr 2
    ext f
    simp [freedPages, MmapEntry.freed, MmapEntry.Available, available]
  next other =>
    have nothing : freedPages [e] = ∅ := by
      ext f
      simp [freedPages, MmapEntry.Available, other]
    rw [nothing, Set.union_empty, Set.sdiff_singleton_eq_self zero]

/-- The whole loop returns, and frees what the entries of the map make free. -/
theorem parseMemoryMap_free {m : Memory} {mbi : MultibootInfo} {entries : List MmapEntry}
    {mmap : BitVec 32} (holds : MmapHolds m (mbi.mmapAddr + mbi.mmapLength) mmap entries)
    {fuel : Nat} (enough : entries.length ≤ fuel) (bm : Bitmap) (zero : 0 ∉ bm.free) :
    ∃ bm', parseMemoryMap m mbi fuel mmap bm = .ok bm' ∧
      bm'.free = (bm.free ∪ freedPages entries) \ {0} := by
  induction entries generalizing fuel mmap bm with
  | nil =>
    obtain rfl : mmap = mbi.mmapAddr + mbi.mmapLength := holds
    refine ⟨bm, ?_, ?_⟩
    · unfold parseMemoryMap
      exact if_neg (BitVec.lt_irrefl _)
    · simp [freedPages, zero]
  | cons e entries ih =>
    obtain ⟨⟨size, addr, -, type⟩, inside, rest⟩ := holds
    cases fuel with
    | zero => simp at enough
    | succ fuel =>
      have more : mmap < mbi.mmapAddr + mbi.mmapLength := by
        rw [BitVec.lt_def]
        omega
      -- frame 0 is in use after every round, as at the start
      have round := mmapRound_free e bm zero
      obtain ⟨bm', returned, free⟩ := ih rest (Nat.le_of_succ_le_succ enough)
        (if e.type = multibootMemoryAvailable
          then pagingInitRegion bm ((e.addr &&& 0xFFFFFFFF).setWidth 32)
            ((e.addr &&& 0xFFFFFFFF).setWidth 32) else bm) (by rw [round]; simp)
      refine ⟨bm', ?_, ?_⟩
      · unfold parseMemoryMap
        rw [if_pos more]
        simp only [size, addr, type]
        exact returned
      · rw [free, round]
        ext f
        simp [freedPages]
        grind

/-- The loop over the modules reserves the pages of each of them. -/
theorem preserveFrom_free {m : Memory} {count : Nat} {mod : BitVec 32} {bm bm' : Bitmap}
    (returned : preserveFrom m count mod bm = .ok bm') :
    bm'.free = bm.free \ {f | ∃ module ∈ modulesFrom m count mod, f ∈ module.reserved} := by
  induction count generalizing mod bm with
  | zero =>
    cases returned
    simp [modulesFrom]
  | succ count ih =>
    obtain ⟨_, -, rest⟩ := bind_ok_iff.mp returned
    rw [ih rest, pagingDeinitRegion_free]
    ext f
    simp only [modulesFrom, List.mem_cons, Set.mem_sdiff, Set.mem_ofPred_eq, exists_eq_or_imp,
      not_or, and_assoc]
    rfl

/-- The modules of `mbi`. -/
def MultibootInfo.modules (mbi : MultibootInfo) (m : Memory) : List Module :=
  modulesFrom m mbi.modsCount.toNat mbi.modsAddr

-- `page_count` as `paging_init_bitmap` computes it
def MultibootInfo.pageCount (mbi : MultibootInfo) : Nat :=
  (pagesIn ((mbi.memLower + mbi.memUpper) * 1024)).toNat

/-- What has been done when `pmm_init` returns. -/
theorem pmmInit_cases {fuel : Nat} {image : KernelImage} {m : Memory} {mbi : MultibootInfo}
    {bits : Nat → BitVec 32} {s : PmmState} (returned : pmmInit fuel image m mbi bits = .ok s) :
    ∃ bytes frames bm bm',
      pagingInitBitmap bits ((mbi.memLower + mbi.memUpper) * 1024) = .ok (bytes, frames) ∧
      parseMemoryMap m mbi fuel mbi.mmapAddr frames.bitmap = .ok bm ∧
      preserveFrom m mbi.modsCount.toNat mbi.modsAddr (pagingDeinitRegion bm image.realKernelStart
        (image.realKernelEnd - image.realKernelStart)) = .ok bm' ∧
      s = ⟨{ frames with bitmap := bm' }, pagingAllocatorInit image⟩ := by
  unfold pmmInit at returned
  obtain ⟨_, -, returned⟩ := bind_ok_iff.mp returned
  obtain ⟨_, -, returned⟩ := bind_ok_iff.mp returned
  obtain ⟨⟨bytes, frames⟩, filled, returned⟩ := bind_ok_iff.mp returned
  obtain ⟨bm, parsed, returned⟩ := bind_ok_iff.mp returned
  obtain ⟨bm', preserved, returned⟩ := bind_ok_iff.mp returned
  obtain ⟨_, -, modules⟩ := bind_ok_iff.mp preserved
  exact ⟨bytes, frames, bm, bm', filled, parsed, modules, (Except.ok.inj returned).symm⟩

/-- The frames that are free after `pmm_init`. -/
theorem pmmInit_free {m : Memory} {mbi : MultibootInfo} {entries : List MmapEntry}
    (holds : MmapHolds m (mbi.mmapAddr + mbi.mmapLength) mbi.mmapAddr entries) {fuel : Nat}
    (enough : entries.length ≤ fuel) {image : KernelImage} {s : PmmState}
    (returned : pmmInit fuel image m mbi (fun _ => 0) = .ok s) :
    s.frames.pageCount.toNat = mbi.pageCount ∧
      s.frames.bitmap.free = (({f | 8192 ≤ f} ∪ freedPages entries) \ {0}) \
        reservedPages image (mbi.modules m) := by
  obtain ⟨bytes, frames, bm, bm', filled, parsed, modules, rfl⟩ := pmmInit_cases returned
  obtain ⟨count, free⟩ := pagingInitBitmap_free filled
  obtain ⟨bm'', returned', freed⟩ := parseMemoryMap_free holds enough frames.bitmap
    (by rw [free]; simp)
  obtain rfl : bm = bm'' := Except.ok.inj (parsed.symm.trans returned')
  have rest := preserveFrom_free modules
  rw [pagingDeinitRegion_free, freed, free] at rest
  refine ⟨congrArg BitVec.toNat count, ?_⟩
  show bm'.free = _
  rw [rest, Set.sdiff_sdiff]
  rfl

/-! ### What the paging code relies on -/

/-- The frames of the kernel are in use, and the words of the bitmap are those of the array. -/
structure KernelInUse (image : KernelImage) (bm : Bitmap) : Prop where
  wordCount : bm.wordCount.toNat ≤ bitmapArraySize
  used : ∀ f ∈ image.reserved, bm.testBit f = true

theorem parseMemoryMap_wordCount {m : Memory} {mbi : MultibootInfo} {fuel : Nat}
    {mmap : BitVec 32} {bm bm' : Bitmap} (returned : parseMemoryMap m mbi fuel mmap bm = .ok bm') :
    bm'.wordCount = bm.wordCount := by
  induction fuel generalizing mmap bm with
  | zero =>
    unfold parseMemoryMap at returned
    split at returned <;> cases returned
    rfl
  | succ fuel ih =>
    unfold parseMemoryMap at returned
    split at returned
    next more =>
      rw [ih returned]
      split
      · exact pagingInitRegion_wordCount _ _ _
      · rfl
    next =>
      cases returned
      rfl

theorem parseMemoryMap_zero {m : Memory} {mbi : MultibootInfo} {fuel : Nat} {mmap : BitVec 32}
    {bm bm' : Bitmap} (returned : parseMemoryMap m mbi fuel mmap bm = .ok bm')
    (zero : 0 ∉ bm.free) : 0 ∉ bm'.free := by
  induction fuel generalizing mmap bm with
  | zero =>
    unfold parseMemoryMap at returned
    split at returned <;> cases returned
    exact zero
  | succ fuel ih =>
    unfold parseMemoryMap at returned
    split at returned
    next more =>
      refine ih returned ?_
      split
      · rw [pagingInitRegion_free]
        exact fun member => member.2 rfl
      · exact zero
    next =>
      cases returned
      exact zero

theorem preserveFrom_wordCount {m : Memory} {count : Nat} {mod : BitVec 32} {bm bm' : Bitmap}
    (returned : preserveFrom m count mod bm = .ok bm') : bm'.wordCount = bm.wordCount := by
  induction count generalizing mod bm with
  | zero =>
    cases returned
    rfl
  | succ count ih =>
    obtain ⟨_, -, rest⟩ := bind_ok_iff.mp returned
    exact (ih rest).trans (pagingDeinitRegion_wordCount _ _ _)

/-- Whatever the boot loader says, `pmm_init` ends with the kernel's frames and frame 0 in
use. -/
theorem pmmInit_kernelInUse {fuel : Nat} {image : KernelImage} {m : Memory} {mbi : MultibootInfo}
    {bits : Nat → BitVec 32} {s : PmmState} (returned : pmmInit fuel image m mbi bits = .ok s) :
    KernelInUse image s.frames.bitmap ∧ s.frames.bitmap.testBit 0 = true ∧
      s.placementHeap = pagingAllocatorInit image := by
  obtain ⟨bytes, frames, bm, bm', filled, parsed, modules, rfl⟩ := pmmInit_cases returned
  unfold pagingInitBitmap at filled
  obtain ⟨_, asserted, filled⟩ := bind_ok_iff.mp filled
  cases filled
  have words := kassert_ok.mp asserted
  rw [decide_eq_true_iff] at words
  have free := preserveFrom_free modules
  rw [pagingDeinitRegion_free] at free
  have inUse {f : Nat} (unfree : f ∉ bm'.free) : bm'.testBit f = true := by
    rwa [Bitmap.mem_free, Bool.not_eq_false] at unfree
  refine ⟨⟨?_, fun f reserved => inUse ?_⟩, inUse ?_, rfl⟩
  · show bm'.wordCount.toNat ≤ _
    rw [preserveFrom_wordCount modules, pagingDeinitRegion_wordCount,
      parseMemoryMap_wordCount parsed]
    exact Nat.le_of_lt words
  · -- The modules are reserved after the kernel, and nothing is freed any more.
    rw [free]
    exact fun member => member.1.2 reserved
  · rw [free]
    refine fun member => parseMemoryMap_zero parsed ?_ member.1.1
    rw [Bitmap.mem_free, Bitmap.testBit_eq]
    show ¬(BitVec.allOnes 32).getLsbD 0 = false
    decide

/-- The bitmap that `pmm_init` leaves is that of `preserve_modules`. -/
theorem pmmInit_preserved {fuel : Nat} {image : KernelImage} {m : Memory} {mbi : MultibootInfo}
    {bits : Nat → BitVec 32} {s : PmmState} (returned : pmmInit fuel image m mbi bits = .ok s) :
    ∃ bm, preserveFrom m mbi.modsCount.toNat mbi.modsAddr bm = .ok s.frames.bitmap := by
  obtain ⟨-, -, bm, bm', -, -, modules, rfl⟩ := pmmInit_cases returned
  exact ⟨_, modules⟩

/-- The pages of the modules are in use, too. -/
theorem pmmInit_modulesInUse {fuel : Nat} {image : KernelImage} {m : Memory} {mbi : MultibootInfo}
    {bits : Nat → BitVec 32} {s : PmmState} (returned : pmmInit fuel image m mbi bits = .ok s) :
    ∀ mod ∈ mbi.modules m, ∀ f ∈ mod.reserved, s.frames.bitmap.testBit f = true := by
  obtain ⟨bm, preserved⟩ := pmmInit_preserved returned
  intro mod member f inside
  have reserved : f ∉ s.frames.bitmap.free := by
    rw [preserveFrom_free preserved]
    exact fun free => free.2 ⟨mod, member, inside⟩
  rwa [Bitmap.mem_free, Bool.not_eq_false] at reserved

/-! ### Free frames and available memory -/

/-- Frame `f` lies wholly inside the bytes from `start` to before `stop`. -/
def FrameInside (f start stop : Nat) : Prop := start ≤ 4096 * f ∧ 4096 * f + 4096 ≤ stop

/-- Frame `f` and the bytes from `start` to before `stop` have a byte in common. -/
def FrameMeets (f start stop : Nat) : Prop := max start (4096 * f) < min stop (4096 * f + 4096)

/-- More than a page lies between frame `f` and the bytes from `start` to before `stop`. -/
def FrameAway (f start stop : Nat) : Prop :=
  4096 * f + 4096 + 4096 < start ∨ stop + 4096 < 4096 * f

def MmapEntry.Covers (e : MmapEntry) (f : Nat) : Prop :=
  e.Available ∧ FrameInside f e.addr.toNat (e.addr.toNat + e.len.toNat)

/-- Frame `f` is far from the kernel and from every module. -/
def FarFromUse (image : KernelImage) (modules : List Module) (f : Nat) : Prop :=
  FrameAway f image.realKernelStart.toNat image.realKernelEnd.toNat ∧
    ∀ mod ∈ modules, FrameAway f mod.modStart.toNat mod.modEnd.toNat

/-- The free frames are those of the available memory that nothing uses. -/
structure FreeAsMapped (image : KernelImage) (entries : List MmapEntry) (modules : List Module)
    (s : PmmState) : Prop where
  nonzero : ∀ f < s.frames.pageCount.toNat, s.frames.bitmap.testBit f = false → f ≠ 0
  available : ∀ f < s.frames.pageCount.toNat, s.frames.bitmap.testBit f = false →
    ∃ e ∈ entries, e.Covers f
  unused : ∀ f < s.frames.pageCount.toNat, s.frames.bitmap.testBit f = false →
    ¬FrameMeets f image.realKernelStart.toNat image.realKernelEnd.toNat ∧
      ∀ mod ∈ modules, ¬FrameMeets f mod.modStart.toNat mod.modEnd.toNat
  free : ∀ f, (∃ e ∈ entries, e.Covers f) → f ≠ 0 → FarFromUse image modules f →
    s.frames.bitmap.testBit f = false

/-- What a map must be like for the slips of the code to do no harm. -/
structure MapFits (image : KernelImage) (entries : List MmapEntry) (modules : List Module)
    (pageCount : Nat) : Prop where
  -- The bits of the frames from 8192 on are never filled.
  filled : ∀ f, 8192 ≤ f → f < pageCount → f ∉ reservedPages image modules →
    ∃ e ∈ entries, e.Covers f
  -- A region at address `a` is freed up to address `2 * a`, whatever its length, ...
  freed : ∀ e ∈ entries, e.Available → ∀ f ∈ e.freed, f ≠ 0 → f < pageCount →
    f ∉ reservedPages image modules → ∃ e ∈ entries, e.Covers f
  -- ... and no further.
  covered : ∀ f, (∃ e ∈ entries, e.Covers f) → f ≠ 0 → FarFromUse image modules f →
    8192 ≤ f ∨ f ∈ freedPages entries

theorem regionPages_of_meets {base size : BitVec 32} {f stop : Nat}
    (meets : FrameMeets f base.toNat stop) (last : stop ≤ base.toNat + size.toNat + 1) :
    f ∈ regionPages base size := by
  unfold FrameMeets at meets
  rw [mem_regionPages]
  omega

theorem not_away_of_regionPages {base size : BitVec 32} {f stop : Nat}
    (visited : f ∈ regionPages base size) (last : base.toNat + size.toNat ≤ stop) :
    ¬FrameAway f base.toNat stop := by
  rw [mem_regionPages] at visited
  unfold FrameAway
  omega

theorem realKernel_size (image : KernelImage) :
    image.realKernelStart.toNat + (image.realKernelEnd - image.realKernelStart).toNat =
      image.realKernelEnd.toNat := by
  have le := image.real_le
  bv_omega

theorem Module.size_toNat {mod : Module} (proper : mod.modStart < mod.modEnd) :
    mod.modStart.toNat + (mod.modEnd - mod.modStart - 1).toNat + 1 = mod.modEnd.toNat := by
  bv_omega

/-- Whatever meets the kernel or a module is reserved. -/
theorem reservedPages_of_meets {image : KernelImage} {modules : List Module} {f : Nat}
    (meets : FrameMeets f image.realKernelStart.toNat image.realKernelEnd.toNat ∨
      ∃ mod ∈ modules, FrameMeets f mod.modStart.toNat mod.modEnd.toNat) :
    f ∈ reservedPages image modules := by
  rcases meets with kernel | ⟨mod, member, meets⟩
  · exact .inl (regionPages_of_meets kernel (by rw [realKernel_size]; omega))
  · have proper : mod.modStart < mod.modEnd := by
      unfold FrameMeets at meets
      rw [BitVec.lt_def]
      omega
    exact .inr ⟨mod, member, regionPages_of_meets meets (Module.size_toNat proper).ge⟩

/-- What is reserved is close to the kernel or a module. -/
theorem not_far_of_reserved {image : KernelImage} {modules : List Module} {f : Nat}
    (proper : ∀ mod ∈ modules, mod.modStart < mod.modEnd)
    (reserved : f ∈ reservedPages image modules) : ¬FarFromUse image modules f := by
  rcases reserved with kernel | ⟨mod, member, inside⟩
  · exact fun far => not_away_of_regionPages kernel (realKernel_size image).le far.1
  · have size := Module.size_toNat (proper mod member)
    exact fun far => not_away_of_regionPages inside (by omega) (far.2 mod member)

/-- A small kernel at its boot address. -/
def smallImage : KernelImage where
  kernStart := 0xC0100000
  kernEnd := 0xC0110000
  start_le := by decide
  end_le := by decide

-- Entries of the minimal size at 0x10000, with the high words of addresses and lengths zero.
def mmapMemory (regions : List (BitVec 32 × BitVec 32)) : Memory :=
  (regions.zipIdx).foldl (fun m region =>
    let a := 0x10000 + BitVec.ofNat 32 (24 * region.2)
    store32 (store32 (store32 (store32 m a 20) (a + 4) region.1.1) (a + 12) region.1.2)
      (a + 20) multibootMemoryAvailable) fun _ => 0

/-- The memory below 640 KiB and above 1 MiB of a machine with 4 MiB. -/
def pcInfo : MultibootInfo where
  flags := 0x41
  memLower := 639
  memUpper := 3072
  modsCount := 0
  modsAddr := 0
  mmapLength := 48
  mmapAddr := 0x10000

def pcMemory : Memory := mmapMemory [(0, 0x9FC00), (0x100000, 0x300000)]

def pcEntries : List MmapEntry :=
  [⟨20, 0, 0x9FC00, 1⟩, ⟨20, 0x100000, 0x300000, 1⟩]

theorem pcMemory_holds :
    MmapHolds pcMemory (pcInfo.mmapAddr + pcInfo.mmapLength) pcInfo.mmapAddr pcEntries := by
  refine ⟨⟨?_, ?_, ?_, ?_⟩, ?_, ⟨?_, ?_, ?_, ?_⟩, ?_, rfl⟩ <;> decide +kernel

theorem preserveModules_none {m : Memory} {mbi : MultibootInfo} (none : mbi.modsCount = 0)
    (bm : Bitmap) : ∃ bm', preserveModules m mbi bm = .ok bm' := by
  unfold preserveModules
  rw [none]
  exact ⟨bm, bind_ok_iff.mpr ⟨(), panicIf_ok.mpr (by simp), rfl⟩⟩

theorem pmmInit_returns {m : Memory} {mbi : MultibootInfo} {entries : List MmapEntry}
    (holds : MmapHolds m (mbi.mmapAddr + mbi.mmapLength) mbi.mmapAddr entries) {fuel : Nat}
    (enough : entries.length ≤ fuel) (image : KernelImage)
    (memory : mbi.flags &&& multibootInfoMemory ≠ 0) (map : mbi.flags &&& multibootInfoMemMap ≠ 0)
    {bytes : BitVec 32} {frames : PageFrames}
    (filled : pagingInitBitmap (fun _ => 0) ((mbi.memLower + mbi.memUpper) * 1024) =
      .ok (bytes, frames)) (modules : ∀ bm, ∃ bm', preserveModules m mbi bm = .ok bm') :
    ∃ s, pmmInit fuel image m mbi (fun _ => 0) = .ok s := by
  obtain ⟨bm, parsed, -⟩ := parseMemoryMap_free holds enough frames.bitmap
    (by rw [(pagingInitBitmap_free filled).2]; simp)
  obtain ⟨bm', preserved⟩ := modules
    (pagingDeinitRegion bm image.realKernelStart (image.realKernelEnd - image.realKernelStart))
  exact ⟨_, bind_ok_iff.mpr ⟨(), panicIf_ok.mpr (decide_eq_false memory),
    bind_ok_iff.mpr ⟨(), panicIf_ok.mpr (decide_eq_false map),
      bind_ok_iff.mpr ⟨_, filled, bind_ok_iff.mpr ⟨bm, parsed,
        bind_ok_iff.mpr ⟨bm', preserved, rfl⟩⟩⟩⟩⟩⟩

/-- One available region that ends where twice its address is. -/
def doubledInfo : MultibootInfo where
  flags := 0x41
  memLower := 0
  memUpper := 2052
  modsCount := 0
  modsAddr := 0
  mmapLength := 24
  mmapAddr := 0x10000

def doubledEntry : MmapEntry := ⟨20, 0x100000, 0x101000, 1⟩

theorem doubledMemory_holds : MmapHolds (mmapMemory [(0x100000, 0x101000)])
    (doubledInfo.mmapAddr + doubledInfo.mmapLength) doubledInfo.mmapAddr [doubledEntry] := by
  refine ⟨⟨?_, ?_, ?_, ?_⟩, ?_, rfl⟩ <;> decide +kernel

end Treeos
