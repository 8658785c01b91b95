import Treeos.Pmm.Init

/-!
# What the frame bitmap covers

How many frames `pmm_init` counts, which of them `paging_init_bitmap` marks, and which bits
the two region functions write, each against what the call is for.
-/
namespace Treeos

open ByteMemory

/-! ### The fill of `paging_init_bitmap` -/

/-- Every frame of memory counts as in use, and there are enough words for all of them. -/
structure AllInUse (frames : PageFrames) : Prop where
  filled : ∀ bit < frames.bitmap.size, frames.bitmap.testBit bit = true
  enough : frames.pageCount.toNat ≤ frames.bitmap.size

/-- `word_count` from `page_count`. -/
theorem wordCount_toNat (memSize : BitVec 32) :
    (if pagesIn memSize % 32 = 0 then pagesIn memSize / 32 else pagesIn memSize / 32 + 1).toNat =
      ((pagesIn memSize).toNat + 31) / 32 := by
  have count := pagesIn_toNat memSize
  have bound := memSize.isLt
  have rest : (pagesIn memSize % 32 = 0) ↔ (pagesIn memSize).toNat % 32 = 0 := by
    rw [← BitVec.toNat_inj, BitVec.toNat_umod]
    rfl
  have quotient : (pagesIn memSize / 32).toNat = (pagesIn memSize).toNat / 32 := BitVec.toNat_udiv
  split
  next whole =>
    rw [rest] at whole
    omega
  next part =>
    rw [rest] at part
    have next : (pagesIn memSize / 32 + 1).toNat = (pagesIn memSize / 32).toNat + 1 := by
      rw [BitVec.toNat_add]
      exact Nat.mod_eq_of_lt (show (pagesIn memSize / 32).toNat + 1 < 2 ^ 32 by omega)
    omega

/-- What `paging_init_bitmap` sets up when its assertion holds. -/
theorem pagingInitBitmap_cases {bits : Nat → BitVec 32} {memSize bytes : BitVec 32}
    {frames : PageFrames} (returned : pagingInitBitmap bits memSize = .ok (bytes, frames)) :
    frames.pageCount.toNat = (memSize.toNat + 4095) / 4096 ∧
    frames.bitmap.wordCount.toNat = (frames.pageCount.toNat + 31) / 32 ∧
    frames.bitmap.wordCount.toNat < bitmapArraySize ∧
    frames.bitmap.bits = fillWords bits bitmapArraySize := by
  unfold pagingInitBitmap at returned
  obtain ⟨_, asserted, same⟩ := bind_ok_iff.mp returned
  cases same
  exact ⟨pagesIn_toNat memSize, wordCount_toNat memSize, of_decide_eq_true (kassert_ok.mp asserted),
    rfl⟩

/-- The fill ends after 256 words, so it is complete when the words of the bitmap behind them
have been full before. -/
theorem pagingInitBitmap_allInUse_iff (bits : Nat → BitVec 32) (memSize bytes : BitVec 32)
    (frames : PageFrames) (returned : pagingInitBitmap bits memSize = .ok (bytes, frames)) :
    AllInUse frames ↔ ∀ word, 256 ≤ word → 131072 * word < memSize.toNat →
      bits word = BitVec.allOnes 32 := by
  obtain ⟨count, words, small, filled⟩ := pagingInitBitmap_cases returned
  have enough : frames.pageCount.toNat ≤ frames.bitmap.size := by
    unfold Bitmap.size bitsPerWord
    omega
  -- a word of the bitmap is one that begins inside memory
  have inside (word : Nat) : word < frames.bitmap.wordCount.toNat ↔ 131072 * word < memSize.toNat := by
    omega
  have full : (∀ bit < frames.bitmap.size, frames.bitmap.testBit bit = true) ↔
      frames.bitmap.clearBits = ∅ := by
    rw [Set.eq_empty_iff_forall_notMem]
    refine forall_congr' fun bit => ⟨fun all member => ?_, fun none bound => ?_⟩
    · have set := all member.1
      rw [member.2] at set
      cases set
    · exact Bool.of_not_eq_false fun clear => none ⟨bound, clear⟩
  have words : frames.bitmap.clearBits = ∅ ↔ ∀ word, 256 ≤ word → 131072 * word < memSize.toNat →
      bits word = BitVec.allOnes 32 := by
    rw [Bitmap.clearBits_eq_empty_iff, filled]
    refine forall_congr' fun word => ?_
    rw [inside, fillWords]
    show (_ → (if word < 256 then _ else _) = _) ↔ _
    split
    next front => exact ⟨fun _ behind => absurd front (Nat.not_lt.mpr behind), fun _ _ => rfl⟩
    next behind => exact ⟨fun all _ => all, fun all => all (Nat.le_of_not_lt behind)⟩
  rw [← words, ← full]
  exact ⟨AllInUse.filled, fun filled => ⟨filled, enough⟩⟩

/-- With 32 MiB and a page the frame behind the fill counts as free. -/
theorem pagingInitBitmap_tail : ∃ bytes frames,
    pagingInitBitmap (fun _ => 0) 0x2001000 = .ok (bytes, frames) ∧ ¬AllInUse frames := by
  obtain ⟨⟨bytes, frames⟩, returned⟩ : ∃ set, pagingInitBitmap (fun _ => 0) 0x2001000 = .ok set :=
    ⟨_, rfl⟩
  refine ⟨bytes, frames, returned, fun all => ?_⟩
  obtain ⟨count, words, -, -⟩ := pagingInitBitmap_cases returned
  have total : frames.pageCount.toNat = 8193 := count
  have behind : 8192 ∈ frames.bitmap.free := by
    rw [(pagingInitBitmap_free returned).2]
    exact Nat.le_refl 8192
  have used := all.filled 8192 (by unfold Bitmap.size bitsPerWord; omega)
  rw [Bitmap.mem_free, used] at behind
  cases behind

/-- All of 32 MiB is marked. -/
theorem pagingInitBitmap_filled : ∃ bytes frames,
    pagingInitBitmap (fun _ => 0) 0x2000000 = .ok (bytes, frames) ∧ AllInUse frames := by
  obtain ⟨⟨bytes, frames⟩, returned⟩ : ∃ set, pagingInitBitmap (fun _ => 0) 0x2000000 = .ok set :=
    ⟨_, rfl⟩
  refine ⟨bytes, frames, returned, ?_⟩
  refine (pagingInitBitmap_allInUse_iff _ _ _ _ returned).mpr fun word behind inside => ?_
  have bound : 131072 * word < 0x2000000 := inside
  omega

/-! ### The bits that the region functions write -/

/-- `paging_deinit_region` sets the bits of the frames that meet the region, and no others. -/
def DeinitExact (bm : Bitmap) (base size : BitVec 32) : Prop :=
  ∀ f, (pagingDeinitRegion bm base size).testBit f = true ↔
    bm.testBit f = true ∨ FrameMeets f base.toNat (base.toNat + size.toNat)

/-- `paging_init_region` clears the bits of the frames inside the region, except for
frame 0, and no others. -/
def InitExact (bm : Bitmap) (base size : BitVec 32) : Prop :=
  ∀ f, (pagingInitRegion bm base size).testBit f = true ↔
    f = 0 ∨ bm.testBit f = true ∧ ¬FrameInside f base.toNat (base.toNat + size.toNat)

/-- The last frame that the loop of the region functions visits. -/
def lastPage (base size : BitVec 32) : Nat := base.toNat / 4096 + (size.toNat + 4095) / 4096

theorem lastPage_visited (base size : BitVec 32) : lastPage base size ∈ regionPages base size :=
  ⟨Nat.le_add_right _ _, Nat.le_refl _⟩

/-- The loop leaves out no frame that meets the region. -/
theorem frameMeets_regionPages {base size : BitVec 32} {f : Nat}
    (meets : FrameMeets f base.toNat (base.toNat + size.toNat)) : f ∈ regionPages base size := by
  unfold FrameMeets at meets
  rw [mem_regionPages]
  omega

theorem frameInside_regionPages {base size : BitVec 32} {f : Nat}
    (inside : FrameInside f base.toNat (base.toNat + size.toNat)) : f ∈ regionPages base size := by
  unfold FrameInside at inside
  rw [mem_regionPages]
  omega

/-- Only the last frame that the loop visits can lie behind the region. -/
theorem regionPages_frameMeets {base size : BitVec 32} {f : Nat}
    (visited : f ∈ regionPages base size) (before : f ≠ lastPage base size) :
    FrameMeets f base.toNat (base.toNat + size.toNat) := by
  unfold lastPage at before
  rw [mem_regionPages] at visited
  unfold FrameMeets
  omega

theorem pagingDeinitRegion_testBit (bm : Bitmap) (base size : BitVec 32) (f : Nat) :
    (pagingDeinitRegion bm base size).testBit f = true ↔
      bm.testBit f = true ∨ f ∈ regionPages base size := by
  have free := Set.ext_iff.mp (pagingDeinitRegion_free bm base size) f
  rw [Set.mem_sdiff, Bitmap.mem_free, Bitmap.mem_free] at free
  rw [← Bool.not_eq_false, free, not_and_or, not_not, Bool.not_eq_false]

theorem pagingInitRegion_testBit (bm : Bitmap) (base size : BitVec 32) (f : Nat) :
    (pagingInitRegion bm base size).testBit f = true ↔
      f = 0 ∨ bm.testBit f = true ∧ f ∉ regionPages base size := by
  have free := Set.ext_iff.mp (pagingInitRegion_free bm base size) f
  rw [Set.mem_sdiff, Set.mem_union, Bitmap.mem_free, Bitmap.mem_free, Set.mem_singleton_iff] at free
  rw [← Bool.not_eq_false, free, not_and_or, not_not, not_or, Bool.not_eq_false, or_comm]

theorem deinitExact_iff (bm : Bitmap) (base size : BitVec 32) : DeinitExact bm base size ↔
    FrameMeets (lastPage base size) base.toNat (base.toNat + size.toNat) ∨
      bm.testBit (lastPage base size) = true := by
  unfold DeinitExact
  constructor
  · intro exact
    have set := (pagingDeinitRegion_testBit bm base size _).mpr (.inr (lastPage_visited base size))
    exact ((exact _).mp set).symm
  · intro last f
    rw [pagingDeinitRegion_testBit]
    constructor
    · rintro (before | visited)
      · exact .inl before
      · by_cases same : f = lastPage base size
        · subst same
          exact last.symm
        · exact .inr (regionPages_frameMeets visited same)
    · exact Or.imp_right frameMeets_regionPages

theorem initExact_iff (bm : Bitmap) (base size : BitVec 32) : InitExact bm base size ↔
    ∀ f ∈ regionPages base size, ¬FrameInside f base.toNat (base.toNat + size.toNat) → f ≠ 0 →
      bm.testBit f = false := by
  unfold InitExact
  constructor
  · intro exact f visited outside positive
    by_contra set
    rw [Bool.not_eq_false] at set
    have kept := (exact f).mpr (.inr ⟨set, outside⟩)
    rcases (pagingInitRegion_testBit bm base size f).mp kept with zero | ⟨-, behind⟩
    · exact positive zero
    · exact behind visited
  · intro clear f
    rw [pagingInitRegion_testBit]
    by_cases zero : f = 0
    · exact iff_of_true (.inl zero) (.inl zero)
    · refine or_congr_right (and_congr_right fun set => ?_)
      constructor
      · intro behind inside
        exact behind (frameInside_regionPages inside)
      · intro outside visited
        rw [clear f visited outside zero] at set
        cases set

/-- The loops visit one frame more than the size says, and both round outwards: the functions
are exact when the last frame visited meets the region or was in use before, and when the
visited frames that stick out of the region were free before. -/
theorem region_exact_iff (bm : Bitmap) (base size : BitVec 32) :
    (DeinitExact bm base size ↔
      FrameMeets (lastPage base size) base.toNat (base.toNat + size.toNat) ∨
        bm.testBit (lastPage base size) = true) ∧
    (InitExact bm base size ↔
      ∀ f ∈ regionPages base size, ¬FrameInside f base.toNat (base.toNat + size.toNat) → f ≠ 0 →
        bm.testBit f = false) :=
  ⟨deinitExact_iff bm base size, initExact_iff bm base size⟩

/-- A bitmap of 1024 frames. -/
def uniformBitmap (word : BitVec 32) : Bitmap := ⟨32, fun _ => word, 0⟩

/-- Of the single page at 0x1000 frames 1 and 2 are reserved, and freed. -/
theorem region_onePage : ¬DeinitExact (uniformBitmap 0) 0x1000 0x1000 ∧
    ¬InitExact (uniformBitmap (BitVec.allOnes 32)) 0x1000 0x1000 := by
  rw [deinitExact_iff, initExact_iff]
  constructor
  · unfold FrameMeets
    decide
  · intro clear
    have next := clear 2 (by rw [mem_regionPages]; decide) (by unfold FrameInside; decide)
      (by decide)
    exact absurd next (by decide)

/-! ### The frames that `pmm_init` counts -/

/-- The frames of the memory that the boot loader reports, in a sum that does not wrap. -/
def MultibootInfo.memoryFrames (mbi : MultibootInfo) : Nat :=
  ((mbi.memLower.toNat + mbi.memUpper.toNat) * 1024 + 4095) / 4096

def sizeAssertion : Panic := .kassert "page_bitmap.word_count < BITMAP_ARRAY_SIZE"

/-- `paging_init_bitmap` is called with the right size: its `page_count` is the number of
frames that the memory has. -/
def CountsFrames (bits : Nat → BitVec 32) (mbi : MultibootInfo) : Prop :=
  ∃ bytes frames, pagingInitBitmap bits ((mbi.memLower + mbi.memUpper) * 1024) =
      .ok (bytes, frames) ∧ frames.pageCount.toNat = mbi.memoryFrames

theorem memSize_toNat (mbi : MultibootInfo) : ((mbi.memLower + mbi.memUpper) * 1024).toNat =
    (mbi.memLower.toNat + mbi.memUpper.toNat) % 4194304 * 1024 := by
  rw [BitVec.toNat_mul, BitVec.toNat_add]
  show (mbi.memLower.toNat + mbi.memUpper.toNat) % 4294967296 * 1024 % 4294967296 = _
  omega

/-- The assertion of `paging_init_bitmap` allows 1023 words. -/
theorem pagingInitBitmap_total (bits : Nat → BitVec 32) (memSize : BitVec 32) :
    memSize.toNat ≤ 134086656 ∧
        (∃ bytes frames, pagingInitBitmap bits memSize = .ok (bytes, frames)) ∨
      134086656 < memSize.toNat ∧ pagingInitBitmap bits memSize = .error sizeAssertion := by
  cases called : pagingInitBitmap bits memSize with
  | ok set =>
    obtain ⟨count, words, small, -⟩ := pagingInitBitmap_cases called
    unfold bitmapArraySize at small
    exact .inl ⟨by omega, _, _, rfl⟩
  | error e =>
    have words := wordCount_toNat memSize
    rw [pagesIn_toNat] at words
    unfold pagingInitBitmap at called
    rcases bind_error_iff.mp called with asserted | ⟨_, -, rest⟩
    · have large := of_decide_eq_false (kassert_failed asserted)
      unfold bitmapArraySize at large
      exact .inr ⟨by omega, congrArg Except.error (kassert_error asserted)⟩
    · cases rest

theorem parseMemoryMap_error {m : Memory} {mbi : MultibootInfo} {fuel : Nat} {mmap : BitVec 32}
    {bm : Bitmap} {e : Panic} (stopped : parseMemoryMap m mbi fuel mmap bm = .error e) :
    e = .fuel := by
  induction fuel generalizing mmap bm with
  | zero =>
    unfold parseMemoryMap at stopped
    split at stopped <;> cases stopped
    rfl
  | succ fuel ih =>
    unfold parseMemoryMap at stopped
    split at stopped
    next more => exact ih stopped
    next done => cases stopped

theorem preserveFrom_error {m : Memory} {count : Nat} {mod : BitVec 32} {bm : Bitmap} {e : Panic}
    (stopped : preserveFrom m count mod bm = .error e) : e = .kassert "mod" := by
  induction count generalizing mod bm with
  | zero => cases stopped
  | succ count ih =>
    rcases bind_error_iff.mp stopped with asserted | ⟨_, -, rest⟩
    · exact kassert_error asserted
    · exact ih rest

/-- The size assertion is the only one with its text. -/
theorem pmmInit_sizeAssertion_iff {fuel : Nat} {image : KernelImage} {m : Memory}
    {mbi : MultibootInfo} {bits : Nat → BitVec 32}
    (memory : mbi.flags &&& multibootInfoMemory ≠ 0) (map : mbi.flags &&& multibootInfoMemMap ≠ 0) :
    pmmInit fuel image m mbi bits = .error sizeAssertion ↔
      pagingInitBitmap bits ((mbi.memLower + mbi.memUpper) * 1024) = .error sizeAssertion := by
  unfold pmmInit
  rw [panicIf, if_neg (fun none => memory (of_decide_eq_true none)), ok_bind, panicIf,
    if_neg (fun none => map (of_decide_eq_true none)), ok_bind]
  constructor
  · intro stopped
    rcases bind_error_iff.mp stopped with early | ⟨_, -, later⟩
    · exact early
    · exfalso
      rcases bind_error_iff.mp later with parsing | ⟨_, -, later⟩
      · exact absurd (parseMemoryMap_error parsing) (by decide)
      · rcases bind_error_iff.mp later with preserving | ⟨_, -, later⟩
        · rcases bind_error_iff.mp preserving with flags | ⟨_, -, modules⟩
          · exact absurd (panicIf_error flags) (by decide)
          · exact absurd (preserveFrom_error modules) (by decide)
        · cases later
  · intro early
    rw [early]
    rfl

/-- `pmm_init` rejects the size or counts all frames, and rejects what the bitmap does not
cover, unless the sum in bytes wraps to a size that the assertion lets through. -/
theorem pmmInit_pageCount_iff (fuel : Nat) (image : KernelImage) (m : Memory)
    (mbi : MultibootInfo) (bits : Nat → BitVec 32) (memory : mbi.flags &&& multibootInfoMemory ≠ 0)
    (map : mbi.flags &&& multibootInfoMemMap ≠ 0) :
    ((pmmInit fuel image m mbi bits = .error sizeAssertion ∨ CountsFrames bits mbi) ∧
      (bitmapArraySize * bitsPerWord < mbi.memoryFrames →
        pmmInit fuel image m mbi bits = .error sizeAssertion)) ↔
    mbi.memLower.toNat + mbi.memUpper.toNat < 4194304 ∨
      130944 < (mbi.memLower.toNat + mbi.memUpper.toNat) % 4194304 := by
  have size := memSize_toNat mbi
  rw [pmmInit_sizeAssertion_iff memory map]
  unfold CountsFrames MultibootInfo.memoryFrames bitmapArraySize bitsPerWord
  rcases pagingInitBitmap_total bits ((mbi.memLower + mbi.memUpper) * 1024) with
    ⟨fits, bytes, frames, returned⟩ | ⟨large, stopped⟩
  · have count := (pagingInitBitmap_cases returned).1
    rw [returned]
    constructor
    · rintro ⟨stopped | ⟨_, _, same, exact⟩, -⟩
      · cases stopped
      · cases same
        omega
    · intro condition
      refine ⟨.inr ⟨bytes, frames, rfl, by omega⟩, fun uncovered => ?_⟩
      omega
  · refine iff_of_true ⟨.inl stopped, fun _ => stopped⟩ (.inr (by omega))

/-- A machine with 4 GiB. -/
def largeInfo : MultibootInfo := { pcInfo with memLower := 640, memUpper := 0x3FFD80 }

/-- Its size in bytes wraps to zero, and the assertion lets it through. -/
theorem largeInfo_uncounted :
    ¬((pmmInit 2 smallImage pcMemory largeInfo (fun _ => 0) = .error sizeAssertion ∨
        CountsFrames (fun _ => 0) largeInfo) ∧
      (bitmapArraySize * bitsPerWord < largeInfo.memoryFrames →
        pmmInit 2 smallImage pcMemory largeInfo (fun _ => 0) = .error sizeAssertion)) := by
  obtain ⟨⟨bytes, frames⟩, returned⟩ : ∃ set, pagingInitBitmap (fun _ => 0)
      ((largeInfo.memLower + largeInfo.memUpper) * 1024) = .ok set := ⟨_, rfl⟩
  rintro ⟨stopped | ⟨_, _, same, counted⟩, -⟩
  · rw [pmmInit_sizeAssertion_iff (by decide) (by decide), returned] at stopped
    cases stopped
  · have none := (pagingInitBitmap_cases same).1
    rw [none] at counted
    exact absurd counted (by decide)

/-- The machine with 4 MiB is counted. -/
theorem pcInfo_counted :
    (pmmInit 2 smallImage pcMemory pcInfo (fun _ => 0) = .error sizeAssertion ∨
        CountsFrames (fun _ => 0) pcInfo) ∧
      (bitmapArraySize * bitsPerWord < pcInfo.memoryFrames →
        pmmInit 2 smallImage pcMemory pcInfo (fun _ => 0) = .error sizeAssertion) :=
  (pmmInit_pageCount_iff 2 smallImage pcMemory pcInfo (fun _ => 0) (by decide) (by decide)).mpr
    (by decide)

end Treeos
