import Treeos.Pmm.Init
import Treeos.Pmm.Tables

/-!
# The tables of `boot.S`

`init_bootstrap_paging` and `map_page`, which build the first page tables with paging
still off.
-/
namespace Treeos

open PageTable

-- A load and a store at a physical address.
def physLoad (m : PhysMem) (a : BitVec 32) : Entry := m (frameOf a) (wordIndex a)
def physStore (m : PhysMem) (a : BitVec 32) (w : Entry) : PhysMem :=
  write m (frameOf a) (wordIndex a) w

/-- `map_page` of `boot.S`: the directory is at ebx, the virtual address in ecx, the physical
one in edx. It returns with ecx and edx exchanged, which no caller notices. -/
def bootMapPage (m : PhysMem) (ebx ecx edx : BitVec 32) : Except Panic PhysMem :=
  let eax := physLoad m (ebx + (ecx >>> 22) * 4#32)
  -- `the_end` prints a message and halts.
  if eax &&& 1 = 0 then .error (.msg "PANIC!")
  else
    let table := eax &&& 0xFFFFF000
    .ok (physStore m (table + ((ecx >>> 12) &&& 0x3FF#32) * 4#32) (edx ||| 7))

/-- `idmap_first_mb_loop` -/
def idmapFirstMb (ebx : BitVec 32) : Nat → BitVec 32 → PhysMem → Except Panic PhysMem
  | 0, _, _ => .error .fuel
  | fuel + 1, ecx, m => do
    let m ← bootMapPage m ebx ecx ecx
    let ecx := ecx - 0x1000
    if ecx ≠ 0 then idmapFirstMb ebx fuel ecx m else .ok m

/-- `map_kernel`; the end of the kernel is in eax. -/
def mapKernel (ebx eax : BitVec 32) : Nat → BitVec 32 → PhysMem → Except Panic PhysMem
  | 0, _, _ => .error .fuel
  | fuel + 1, ecx, m => do
    let m ← bootMapPage m ebx ecx ecx
    let m ← bootMapPage m ebx (ecx + kernHighOffset) ecx
    let ecx := ecx + 0x1000
    -- `jle` is a signed comparison.
    if ecx.sle eax then mapKernel ebx eax fuel ecx m else .ok m

/-- `init_bootstrap_paging`; each loop may take `fuel` rounds. -/
def initBootstrapPaging (fuel : Nat) (image : BootImage) (m : PhysMem) : Except Panic PhysMem := do
  let eax := image.pageDir - kernHighOffset
  let m := physStore m eax ((image.pageTable - kernHighOffset) ||| 7)
  let edx := (kernHighOffset >>> 22) * 4#32
  let m := physStore m (eax + edx) ((image.pageTable - kernHighOffset) ||| 7)
  let ebx := eax
  let m ← idmapFirstMb ebx fuel 0x100000 m
  let m ← mapKernel ebx (image.kernEnd - kernHighOffset) fuel kernBootAddr m
  -- Map the last entry of the PDE to itself
  .ok (physStore m (ebx + 4092) ((ebx &&& 0xFFFFF000) ||| 7))

/-! ### Entries and addresses -/

/-- The entries that `boot.S` makes: present, writable and for user mode. -/
def bootEntry (f : Frame) : Entry := frameAddr f ||| 7

theorem bootEntry_bit (f : Frame) (i : Nat) (bound : i < 32) : (bootEntry f).getLsbD i =
    if i < 12 then decide (i < 3) else f.getLsbD (i - 12) := by
  have seven : (7 : BitVec 32).getLsbD i = decide (i < 3) := by
    rw [show (7 : BitVec 32) = (BitVec.allOnes 3).setWidth 32 by decide, BitVec.getLsbD_setWidth,
      BitVec.getLsbD_allOnes]
    simp [bound]
  rw [bootEntry, frameAddr, BitVec.getLsbD_or, seven, BitVec.getLsbD_shiftLeft,
    BitVec.getLsbD_setWidth]
  split
  next low => simp [low]
  next high =>
    have small : i - 12 < 32 := by omega
    have third : ¬i < 3 := by omega
    simp [high, bound, small, third]

@[simp] theorem present_bootEntry (f : Frame) : (bootEntry f).present = true :=
  bootEntry_bit f 0 (by decide)

@[simp] theorem address_bootEntry (f : Frame) : (bootEntry f).address = f := by
  ext j bound
  rw [Entry.address, BitVec.getElem_extractLsb', bootEntry_bit f _ (by omega), if_neg (by omega),
    Nat.add_sub_cancel_left, BitVec.getLsbD_eq_getElem]

theorem bootEntry_one (f : Frame) : bootEntry f &&& 1 ≠ 0 := by
  intro zero
  have bit : (bootEntry f &&& 1).getLsbD 0 = false := by rw [zero]; rfl
  rw [BitVec.getLsbD_and, bootEntry_bit f 0 (by decide)] at bit
  simp at bit

theorem bootEntry_mask (f : Frame) : bootEntry f &&& 0xFFFFF000 = frameAddr f := by
  rw [pageMask_eq, frameOf_eq_address, address_bootEntry]

/-- The words of a frame. -/
theorem frame_word (f : Frame) {i : Nat} (bound : i < 1024) :
    frameOf (frameAddr f + BitVec.ofNat 32 (4 * i)) = f ∧
      (wordIndex (frameAddr f + BitVec.ofNat 32 (4 * i))).toNat = i := by
  have size := f.isLt
  have sum : (frameAddr f + BitVec.ofNat 32 (4 * i)).toNat = 4096 * f.toNat + 4 * i := by
    rw [BitVec.toNat_add, frameAddr_toNat, BitVec.toNat_ofNat]
    omega
  constructor
  · apply BitVec.eq_of_toNat_eq
    rw [frameOf, BitVec.toNat_setWidth, BitVec.toNat_ushiftRight, sum, Nat.shiftRight_eq_div_pow]
    omega
  · rw [toNat_wordIndex, sum]
    omega

theorem dirIndex_word (a : BitVec 32) :
    (a >>> 22) * 4#32 = BitVec.ofNat 32 (4 * (dirIndex a).toNat) := by
  have bound := a.isLt
  apply BitVec.eq_of_toNat_eq
  rw [BitVec.toNat_mul, BitVec.toNat_ushiftRight, Nat.shiftRight_eq_div_pow,
    show (4#32).toNat = 4 from rfl, BitVec.toNat_ofNat, toNat_dirIndex, Nat.mul_comm]

theorem tableIndex_word (a : BitVec 32) :
    ((a >>> 12) &&& 0x3FF#32) * 4#32 = BitVec.ofNat 32 (4 * (tableIndex a).toNat) := by
  have low : ((a >>> 12) &&& 0x3FF#32).toNat = a.toNat / 2 ^ 12 % 1024 := by
    rw [BitVec.toNat_and, BitVec.toNat_ushiftRight, Nat.shiftRight_eq_div_pow]
    exact Nat.and_two_pow_sub_one_eq_mod _ 10
  apply BitVec.eq_of_toNat_eq
  rw [BitVec.toNat_mul, low, show (4#32).toNat = 4 from rfl, BitVec.toNat_ofNat,
    toNat_tableIndex, Nat.mul_comm]

/-! ### What the loops store -/

variable {m m' : PhysMem} {dir table : Frame} {ecx edx : BitVec 32}

/-- `map_page` stores one entry into the table. -/
theorem bootMapPage_eq (entry : m dir (dirIndex ecx) = bootEntry table) :
    bootMapPage m (frameAddr dir) ecx edx = .ok (write m table (tableIndex ecx) (edx ||| 7)) := by
  have dirBound : (dirIndex ecx).toNat < 1024 := (dirIndex ecx).isLt
  have tableBound : (tableIndex ecx).toNat < 1024 := (tableIndex ecx).isLt
  obtain ⟨frame, word⟩ := frame_word dir dirBound
  obtain ⟨frame', word'⟩ := frame_word table tableBound
  have loaded : physLoad m (frameAddr dir + (ecx >>> 22) * 4#32) = bootEntry table := by
    rw [physLoad, dirIndex_word, frame, BitVec.eq_of_toNat_eq word, entry]
  unfold bootMapPage
  simp only [loaded, bootEntry_one, if_false, bootEntry_mask, tableIndex_word, physStore, frame',
    BitVec.eq_of_toNat_eq word']

/-- The page with number `n`, by its low and by its high address. -/
theorem lowPage (n : Nat) (bound : n < 1024) : dirIndex (BitVec.ofNat 32 (4096 * n)) = 0 ∧
    (tableIndex (BitVec.ofNat 32 (4096 * n))).toNat = n := by
  constructor
  · apply BitVec.eq_of_toNat_eq
    rw [toNat_dirIndex, BitVec.toNat_ofNat]
    show _ = 0
    omega
  · rw [toNat_tableIndex, BitVec.toNat_ofNat]
    omega

theorem highPage (n : Nat) (bound : n < 1024) :
    dirIndex (BitVec.ofNat 32 (4096 * n) + kernHighOffset) = 768 ∧
      (tableIndex (BitVec.ofNat 32 (4096 * n) + kernHighOffset)).toNat = n := by
  have sum : (BitVec.ofNat 32 (4096 * n) + kernHighOffset).toNat = 4096 * n + 0xC0000000 := by
    rw [BitVec.toNat_add, BitVec.toNat_ofNat, show kernHighOffset.toNat = 0xC0000000 from rfl]
    omega
  constructor
  · apply BitVec.eq_of_toNat_eq
    rw [toNat_dirIndex, sum]
    show _ = 768
    omega
  · rw [toNat_tableIndex, sum]
    omega

/-- Table `table` with the pages from `first` to `last` mapped to themselves. -/
def identity (m : PhysMem) (table : Frame) (first last : Nat) : PhysMem := fun g j =>
  if g = table ∧ first ≤ j.toNat ∧ j.toNat ≤ last then BitVec.ofNat 32 (4096 * j.toNat) ||| 7
  else m g j

theorem identity_of_ne {first last : Nat} {g : Frame} (apart : g ≠ table) (i : BitVec 10) :
    identity m table first last g i = m g i := if_neg fun same => apart same.1

/-- A store of page `n` next to the pages that are mapped already. -/
theorem identity_write {i : BitVec 10} {n : Nat} (index : i.toNat = n) :
    write m table i (BitVec.ofNat 32 (4096 * n) ||| 7) = identity m table n n := by
  funext g j
  have same : j = i ↔ n ≤ j.toNat ∧ j.toNat ≤ n := by
    rw [← BitVec.toNat_inj, index]
    omega
  unfold write identity
  simp only [same]
  split
  next inside => rw [show j.toNat = n by omega]
  next => rfl

theorem identity_identity {first last first' last' : Nat} (upper : first ≤ first')
    (adjacent : first' ≤ last + 1) (lower : last ≤ last') :
    identity (identity m table first' last') table first last = identity m table first last' := by
  funext g j
  unfold identity
  grind

theorem identity_identity' {first last first' last' : Nat} (upper : first' ≤ first)
    (adjacent : first ≤ last' + 1) (lower : last' ≤ last) :
    identity (identity m table first' last') table first last = identity m table first' last := by
  funext g j
  unfold identity
  grind

/-- The loop over the first MiB, from page `n` down to page 1. -/
theorem idmapFirstMb_eq {n fuel : Nat} (bound : n < 1024) (some : 0 < n) (enough : n ≤ fuel)
    (apart : dir ≠ table) (entry : m dir 0 = bootEntry table) :
    idmapFirstMb (frameAddr dir) fuel (BitVec.ofNat 32 (4096 * n)) m =
      .ok (identity m table 1 n) := by
  induction n generalizing m fuel with
  | zero => exact absurd some (by decide)
  | succ n ih =>
    cases fuel with
    | zero => exact absurd enough (by omega)
    | succ fuel =>
      obtain ⟨low, index⟩ := lowPage (n + 1) bound
      have next : BitVec.ofNat 32 (4096 * (n + 1)) - 0x1000 = BitVec.ofNat 32 (4096 * n) := by
        apply BitVec.eq_of_toNat_eq
        rw [BitVec.toNat_sub, BitVec.toNat_ofNat, BitVec.toNat_ofNat]
        show (2 ^ 32 - 4096 + 4096 * (n + 1) % 2 ^ 32) % 2 ^ 32 = _
        omega
      unfold idmapFirstMb
      rw [bootMapPage_eq (by rw [low]; exact entry), ok_bind, identity_write index]
      simp only [next]
      by_cases last : n = 0
      · subst last
        rw [if_neg (by decide)]
      · have more : BitVec.ofNat 32 (4096 * n) ≠ 0 := by
          intro zero
          have value := congrArg BitVec.toNat zero
          rw [BitVec.toNat_ofNat] at value
          change _ = 0 at value
          omega
        rw [if_pos more, ih (by omega) (by omega) (by omega)
          (by rw [identity_of_ne apart]; exact entry),
          identity_identity (by omega) (by omega) (by omega)]

/-- The loop over the kernel, from page `n` up to the page of `stop`. -/
theorem mapKernel_eq {n fuel : Nat} {stop : BitVec 32} (bound : stop.toNat < 0x400000)
    (first : 4096 * n ≤ stop.toNat) (enough : stop.toNat / 4096 < n + fuel) (apart : dir ≠ table)
    (low : m dir 0 = bootEntry table) (high : m dir 768 = bootEntry table) :
    mapKernel (frameAddr dir) stop fuel (BitVec.ofNat 32 (4096 * n)) m =
      .ok (identity m table n (stop.toNat / 4096)) := by
  induction fuel generalizing m n with
  | zero => omega
  | succ fuel ih =>
    obtain ⟨lowDir, lowIndex⟩ := lowPage n (by omega)
    obtain ⟨highDir, highIndex⟩ := highPage n (by omega)
    have next : BitVec.ofNat 32 (4096 * n) + 0x1000 = BitVec.ofNat 32 (4096 * (n + 1)) := by
      rw [Nat.mul_succ, BitVec.ofNat_add]
      rfl
    have value : (BitVec.ofNat 32 (4096 * (n + 1))).toNat = 4096 * (n + 1) := by
      rw [BitVec.toNat_ofNat]
      omega
    have compare : (BitVec.ofNat 32 (4096 * (n + 1))).sle stop = decide (4096 * (n + 1) ≤ stop.toNat) := by
      rw [BitVec.sle_eq_decide, BitVec.toInt_eq_toNat_of_lt (by omega),
        BitVec.toInt_eq_toNat_of_lt (by omega), value]
      exact decide_eq_decide.mpr (by omega)
    unfold mapKernel
    rw [bootMapPage_eq (by rw [lowDir]; exact low), ok_bind, identity_write lowIndex,
      bootMapPage_eq (by rw [highDir, identity_of_ne apart]; exact high), ok_bind,
      identity_write highIndex, identity_identity (by omega) (by omega) (by omega)]
    simp only [next, compare]
    by_cases more : 4096 * (n + 1) ≤ stop.toNat
    · rw [if_pos (decide_eq_true more), ih more (by omega)
        (by rw [identity_of_ne apart]; exact low) (by rw [identity_of_ne apart]; exact high),
        identity_identity' (by omega) (by omega) (by omega)]
    · rw [if_neg (by simpa using more), show stop.toNat / 4096 = n by omega]

namespace BootImage

variable (image : BootImage)

def dirFrame : Frame := frameOf (image.pageDir - kernHighOffset)
def tableFrame : Frame := frameOf (image.pageTable - kernHighOffset)

-- the number of the last page that `map_kernel` maps
def lastPage : Nat := image.realKernelEnd.toNat / 4096

theorem dir_aligned : image.pageDir.toNat % 4096 = 0 := by
  have aligned : isPageAligned image.pageDir = true := by
    rw [isPageAligned, beq_iff_eq]
    exact image.pageDir_aligned
  exact isPageAligned_iff.mp aligned

theorem bounds : 0xC0100000 ≤ image.pageDir.toNat ∧
    image.pageDir.toNat + 0x6000 ≤ image.kernEnd.toNat ∧ image.kernEnd.toNat < 0xC0400000 := by
  have boot : 0xC0100000#32 ≤ image.kernStart := image.boot_le
  have start := image.pageDir_le
  have high : image.kernEnd < 0xC0400000#32 := image.kernEnd_lt
  refine ⟨?_, image.stack_le, ?_⟩ <;> bv_omega

theorem realDir_toNat : (image.pageDir - kernHighOffset).toNat =
      image.pageDir.toNat - 0xC0000000 ∧
    (image.pageTable - kernHighOffset).toNat = image.pageDir.toNat - 0xC0000000 + 0x1000 := by
  have bounds := image.bounds
  have offset : kernHighOffset = 0xC0000000#32 := rfl
  have table : image.pageTable = image.pageDir + 0x1000#32 := rfl
  rw [offset, table]
  constructor <;> bv_omega

theorem dirFrame_addr : frameAddr image.dirFrame = image.pageDir - kernHighOffset := by
  have aligned := image.dir_aligned
  have bounds := image.bounds
  refine frameAddr_frameOf (isPageAligned_iff.mpr ?_)
  rw [image.realDir_toNat.1]
  omega

theorem tableFrame_addr : frameAddr image.tableFrame = image.pageTable - kernHighOffset := by
  have aligned := image.dir_aligned
  have bounds := image.bounds
  refine frameAddr_frameOf (isPageAligned_iff.mpr ?_)
  rw [image.realDir_toNat.2]
  omega

/-- The directory and the table are two frames of the kernel. -/
theorem frames_toNat : 4096 * image.dirFrame.toNat = image.pageDir.toNat - 0xC0000000 ∧
    image.tableFrame.toNat = image.dirFrame.toNat + 1 := by
  have dir := congrArg BitVec.toNat image.dirFrame_addr
  have table := congrArg BitVec.toNat image.tableFrame_addr
  rw [frameAddr_toNat, image.realDir_toNat.1] at dir
  rw [frameAddr_toNat, image.realDir_toNat.2] at table
  omega

theorem dirFrame_ne : image.dirFrame ≠ image.tableFrame := fun same => by
  have frames := image.frames_toNat.2
  rw [same] at frames
  omega

theorem realKernelEnd_toNat :
    image.realKernelEnd.toNat = image.kernEnd.toNat - 0xC0000000 := by
  have bounds := image.bounds
  have offset : kernHighOffset = 0xC0000000#32 := rfl
  unfold KernelImage.realKernelEnd
  rw [offset]
  bv_omega

/-- The placement heap begins with the page behind the one that the kernel ends in. -/
theorem placementHeap_toNat : (pagingAllocatorInit image.toKernelImage).toNat =
    4096 * (image.kernEnd.toNat / 4096 + 1) := by
  have bounds := image.bounds
  have page : (frameOf image.kernEnd).toNat = image.kernEnd.toNat / 4096 := by
    rw [frameOf, BitVec.toNat_setWidth, BitVec.toNat_ushiftRight, Nat.shiftRight_eq_div_pow]
    omega
  rw [pagingAllocatorInit, pageMask_eq, BitVec.toNat_add, frameAddr_toNat, page]
  show (_ + 4096) % 2 ^ 32 = _
  omega

/-- It lies in the 4 MiB of directory entry 768, or just behind them. -/
theorem placementHeap_bounds : isPageAligned (pagingAllocatorInit image.toKernelImage) = true ∧
    0xC0000000 ≤ pagingAllocatorInit image.toKernelImage ∧
    pagingAllocatorInit image.toKernelImage ≤ 0xC0400000 := by
  have bounds := image.bounds
  have value := image.placementHeap_toNat
  refine ⟨isPageAligned_iff.mpr (by omega), ?_, ?_⟩
  · show 0xC0000000 ≤ (pagingAllocatorInit image.toKernelImage).toNat
    omega
  · show (pagingAllocatorInit image.toKernelImage).toNat ≤ 0xC0400000
    omega

/-- The frames of the directory and of the table are part of the kernel. -/
theorem frames_reserved : image.dirFrame.toNat ∈ image.reserved ∧
    image.tableFrame.toNat ∈ image.reserved := by
  have bounds := image.bounds
  have frames := image.frames_toNat
  have start := image.pageDir_le
  have offset : kernHighOffset = 0xC0000000#32 := rfl
  have low : 0xC0000000#32 ≤ image.kernStart := image.start_le
  have kernStart : image.realKernelStart.toNat = image.kernStart.toNat - 0xC0000000 := by
    rw [KernelImage.realKernelStart, offset]
    bv_omega
  have size := realKernel_size image.toKernelImage
  have kernEnd := image.realKernelEnd_toNat
  unfold KernelImage.reserved
  rw [mem_regionPages, mem_regionPages]
  bv_omega

end BootImage

/-- What `boot.S` leaves in the frames of the directory and of the table. -/
structure BootTables (image : BootImage) (m : PhysMem) : Prop where
  directory : ∀ i, m image.dirFrame i =
    if i = 0 ∨ i = 768 then bootEntry image.tableFrame
    else if i = 1023 then bootEntry image.dirFrame else 0
  table : ∀ j, m image.tableFrame j =
    if 1 ≤ j.toNat ∧ j.toNat ≤ image.lastPage then BitVec.ofNat 32 (4096 * j.toNat) ||| 7 else 0

theorem physStore_dir (dir : Frame) (w : Entry) (m : PhysMem) {i : Nat} (bound : i < 1024) :
    physStore m (frameAddr dir + BitVec.ofNat 32 (4 * i)) w =
      write m dir (BitVec.ofNat 10 i) w := by
  obtain ⟨frame, word⟩ := frame_word dir bound
  have index : wordIndex (frameAddr dir + BitVec.ofNat 32 (4 * i)) = BitVec.ofNat 10 i := by
    apply BitVec.eq_of_toNat_eq
    rw [word, BitVec.toNat_ofNat, Nat.mod_eq_of_lt bound]
  rw [physStore, frame, index]

/-- From a directory and a table that are zero, `init_bootstrap_paging` makes the boot
tables. -/
theorem initBootstrapPaging_eq {image : BootImage} {fuel : Nat} (enough : 1024 ≤ fuel)
    {m : PhysMem} (clean : ∀ i, m image.dirFrame i = 0 ∧ m image.tableFrame i = 0) :
    ∃ m', initBootstrapPaging fuel image m = .ok m' ∧ BootTables image m' := by
  have apart := image.dirFrame_ne
  have bounds := image.bounds
  have entry : image.pageTable - kernHighOffset ||| 7 = bootEntry image.tableFrame := by
    rw [bootEntry, image.tableFrame_addr]
  have self : (frameAddr image.dirFrame &&& 0xFFFFF000) ||| 7 = bootEntry image.dirFrame := by
    rw [← bootEntry_mask, BitVec.and_assoc, BitVec.and_self, bootEntry_mask, bootEntry]
  have stores (m : PhysMem) (w : Entry) (i : Nat) (bound : i < 1024) :=
    physStore_dir image.dirFrame w m bound
  have zero : physStore m (frameAddr image.dirFrame) (bootEntry image.tableFrame) =
      write m image.dirFrame 0 (bootEntry image.tableFrame) := by
    have stored := stores m (bootEntry image.tableFrame) 0 (by decide)
    rwa [show BitVec.ofNat 32 (4 * 0) = 0#32 from rfl, BitVec.add_zero] at stored
  have high (m : PhysMem) : physStore m (frameAddr image.dirFrame + (kernHighOffset >>> 22) * 4#32)
      (bootEntry image.tableFrame) = write m image.dirFrame 768 (bootEntry image.tableFrame) :=
    stores m _ 768 (by decide)
  -- the memory before the two loops
  obtain ⟨m₂, made⟩ : ∃ m₂, m₂ = write (write m image.dirFrame 0 (bootEntry image.tableFrame))
    image.dirFrame 768 (bootEntry image.tableFrame) := ⟨_, rfl⟩
  have low₂ : m₂ image.dirFrame 0 = bootEntry image.tableFrame := by
    rw [made, write_of_index_ne _ (by decide), write_self]
  have high₂ : m₂ image.dirFrame 768 = bootEntry image.tableFrame := by rw [made, write_self]
  have first : idmapFirstMb (frameAddr image.dirFrame) fuel (BitVec.ofNat 32 (4096 * 256)) m₂ =
      .ok (identity m₂ image.tableFrame 1 256) :=
    idmapFirstMb_eq (by decide) (by decide) (by omega) apart low₂
  have stop := image.realKernelEnd_toNat
  have kernel : mapKernel (frameAddr image.dirFrame) image.realKernelEnd fuel
      (BitVec.ofNat 32 (4096 * 256)) (identity m₂ image.tableFrame 1 256) = .ok _ :=
    mapKernel_eq (by omega) (by omega) (by omega) apart
      (by rw [identity_of_ne apart]; exact low₂) (by rw [identity_of_ne apart]; exact high₂)
  refine ⟨write (identity m₂ image.tableFrame 1 image.lastPage) image.dirFrame 1023
    (bootEntry image.dirFrame), ?_, ?_, ?_⟩
  · unfold initBootstrapPaging
    simp only [entry, ← image.dirFrame_addr, zero, high, ← made]
    rw [show (0x100000 : BitVec 32) = BitVec.ofNat 32 (4096 * 256) from rfl, first, ok_bind,
      show kernBootAddr = BitVec.ofNat 32 (4096 * 256) from rfl]
    show (mapKernel _ image.realKernelEnd _ _ _ >>= _) = _
    rw [kernel, ok_bind, self, identity_identity' (by omega) (by omega) (by omega)]
    exact congrArg Except.ok (stores _ _ 1023 (by decide))
  · intro i
    by_cases last : i = 1023
    · subst last
      rw [write_self]
      rfl
    · rw [write_of_index_ne _ last, identity_of_ne apart, if_neg last]
      by_cases h768 : i = 768
      · rw [h768, high₂]
        rfl
      · by_cases h0 : i = 0
        · rw [h0, low₂]
          rfl
        · rw [if_neg (not_or.mpr ⟨h0, h768⟩)]
          rw [made, write_of_index_ne _ h768, write_of_index_ne _ h0, (clean i).1]
  · intro j
    have none : m₂ image.tableFrame j = 0 := by
      rw [made, write_of_frame_ne _ (Ne.symm apart), write_of_frame_ne _ (Ne.symm apart), (clean j).2]
    rw [write_of_frame_ne _ (Ne.symm apart)]
    unfold identity
    simp only [none, true_and]

namespace BootTables

variable {image : BootImage} {m : PhysMem}

theorem present_iff (boot : BootTables image m) (i : BitVec 10) :
    (m image.dirFrame i).present = true ↔ i = 0 ∨ i = 768 ∨ i = 1023 := by
  rw [boot.directory]
  split_ifs with kernel last
  · simp only [present_bootEntry, true_iff]
    rcases kernel with rfl | rfl
    · exact .inl rfl
    · exact .inr (.inl rfl)
  · simp [last]
  · simp only [Entry.present_zero, BitVec.ofNat_eq_ofNat, Bool.false_eq_true, false_iff]
    exact fun same => kernel (same.elim .inl fun same => same.elim .inr fun same => absurd same last)

/-- The state in which the memory manager starts. -/
def state (image : BootImage) (m : PhysMem) (bitmap : Bitmap) : PagingState where
  mem := m
  dir := image.dirFrame
  bitmap := bitmap
  placementHeap := pagingAllocatorInit image.toKernelImage
  structures := []

/-- The boot tables satisfy the invariant when the kernel's frames are in use. -/
theorem tables (boot : BootTables image m) {bitmap : Bitmap}
    (inUse : KernelInUse image.toKernelImage bitmap) : (state image m bitmap).Tables := by
  have bound := inUse.wordCount
  have dir := inUse.used _ image.frames_reserved.1
  have table := inUse.used _ image.frames_reserved.2
  have last : m image.dirFrame 1023 = bootEntry image.dirFrame := boot.directory 1023
  have high : m image.dirFrame 768 = bootEntry image.tableFrame := boot.directory 768
  have low : m image.dirFrame 0 = bootEntry image.tableFrame := boot.directory 0
  have apart := image.dirFrame_ne
  have present := boot.present_iff
  unfold state
  generalize image.dirFrame = dirFrame at *
  generalize image.tableFrame = tableFrame at *
  refine ⟨?_, ?_, ?_, ?_, ?_, bound⟩
  · show (m dirFrame 1023).present = true ∧ (m dirFrame 1023).address = _
    rw [last]
    exact ⟨present_bootEntry _, address_bootEntry _⟩
  · exact low.trans high.symm
  · show (m dirFrame 768).present = true
    rw [high, present_bootEntry]
  · intro i j first second same
    change (m dirFrame i).address = (m dirFrame j).address at same
    rcases (present i).mp first with rfl | rfl | rfl <;>
      rcases (present j).mp second with rfl | rfl | rfl
    all_goals
      simp only [low, high, last, address_bootEntry] at same
      first
        | exact .inl rfl
        | exact .inr (.inl ⟨rfl, rfl⟩)
        | exact .inr (.inr ⟨rfl, rfl⟩)
        | exact (apart same).elim
        | exact (apart same.symm).elim
  · intro i here
    show bitmap.testBit (m dirFrame i).address.toNat = true
    rcases (present i).mp here with rfl | rfl | rfl
    · rwa [low, address_bootEntry]
    · rwa [high, address_bootEntry]
    · rwa [last, address_bootEntry]

end BootTables

/-- A small kernel with its directory in the middle. -/
def smallBoot : BootImage where
  toKernelImage := smallImage
  pageDir := 0xC0108000
  pageDir_aligned := by decide
  boot_le := by decide
  pageDir_le := by decide
  stack_le := by decide
  kernEnd_lt := by decide

theorem smallBoot_tables : ∃ m, initBootstrapPaging 1024 smallBoot (fun _ _ => 0) = .ok m ∧
    BootTables smallBoot m :=
  initBootstrapPaging_eq (Nat.le_refl 1024) fun _ => ⟨rfl, rfl⟩

end Treeos
