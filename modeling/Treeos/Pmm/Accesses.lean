import Treeos.Pmm.Coverage
import Treeos.Pmm.MemoryMap
import Treeos.Vmm.KernelHeap

/-!
# Accesses to the frame bitmap

Which bits `pmm_init`, `page_map` and the functions that they call set, clear or test. The
accesses of a call account for the bitmap that it leaves. The array behind the bitmap has
`BITMAP_ARRAY_SIZE` words, and no access is checked against it.
-/
namespace Treeos

open ByteMemory PageTable PagingState

/-- One use of `bitmap_set_bit`, `bitmap_clear_bit` or `bitmap_test_bit` on `page_bitmap`. -/
inductive BitAccess where
  | set (bit : Nat)
  | clear (bit : Nat)
  | test (bit : Nat)

namespace BitAccess

def bit : BitAccess → Nat
  | set bit => bit
  | clear bit => bit
  | test bit => bit

/-- The index into `page_bitmap_bits` -/
def word (a : BitAccess) : Nat := a.bit / bitsPerWord

def apply (bm : Bitmap) : BitAccess → Bitmap
  | set bit => bm.setBit bit
  | clear bit => bm.clearBit bit
  | test _ => bm

end BitAccess

/-- What a series of accesses makes of a bitmap. -/
def applyAll (bm : Bitmap) (accesses : List BitAccess) : Bitmap := accesses.foldl BitAccess.apply bm

/-! ### `pmm_init` -/

/-- The loop of the two region functions -/
def regionAccesses (access : Nat → BitAccess) (base sizeBits : BitVec 32) : List BitAccess :=
  if 0 ≤ sizeBits.toInt then access base.toNat :: regionAccesses access (base + 1) (sizeBits - 1)
  else []
termination_by (sizeBits.toInt + 1).toNat
decreasing_by
  have small : sizeBits.toNat < 2 ^ 31 := by
    rw [BitVec.toInt_eq_toNat_cond] at *
    split at * <;> omega
  rw [BitVec.toInt_eq_toNat_cond, BitVec.toInt_eq_toNat_cond]
  split <;> split <;> bv_omega

def pagingInitRegionAccesses (base size : BitVec 32) : List BitAccess :=
  regionAccesses .clear (base >>> 12) (pagesIn size) ++ [.set 0]

def pagingDeinitRegionAccesses (base size : BitVec 32) : List BitAccess :=
  regionAccesses .set (base >>> 12) (pagesIn size)

def parseMemoryMapAccesses (m : Memory) (mbi : MultibootInfo) : Nat → BitVec 32 → List BitAccess
  | 0, _ => []
  | fuel + 1, mmap =>
    if mmap < mbi.mmapAddr + mbi.mmapLength then
      let addr32 := (load64 m (mmap + 4) &&& 0xFFFFFFFF).setWidth 32
      (if load32 m (mmap + 20) = multibootMemoryAvailable
        then pagingInitRegionAccesses addr32 addr32 else []) ++
        parseMemoryMapAccesses m mbi fuel (mmap + load32 m mmap + 4)
    else []

def preserveFromAccesses (m : Memory) : Nat → BitVec 32 → List BitAccess
  | 0, _ => []
  | count + 1, mod =>
    pagingDeinitRegionAccesses (load32 m mod) (load32 m (mod + 4) - load32 m mod - 1) ++
      preserveFromAccesses m count (mod + 16)

/-- The accesses of a call of `pmm_init` that returns -/
def pmmInitAccesses (fuel : Nat) (image : KernelImage) (m : Memory) (mbi : MultibootInfo) :
    List BitAccess :=
  parseMemoryMapAccesses m mbi fuel mbi.mmapAddr ++
    (pagingDeinitRegionAccesses image.realKernelStart
      (image.realKernelEnd - image.realKernelStart) ++
    preserveFromAccesses m mbi.modsCount.toNat mbi.modsAddr)

/-! ### `page_map` -/

def pageAllocAccesses (bm : Bitmap) : List BitAccess :=
  if bm.firstFree = -1#32 then [] else [.set bm.firstFree.toNat]

/-- `page_alloc`, and `page_map` of the new frame at `v` -/
def newPageAccesses (map : PagingState → BitVec 32 → BitVec 32 → List BitAccess)
    (s : PagingState) (v : BitVec 32) : List BitAccess :=
  pageAllocAccesses s.bitmap ++
    match pageAlloc s.bitmap (some 0) with
    | .ok (some pte, bitmap) => map { s with bitmap := bitmap } (frameAddr pte.address) v
    | _ => []

/-- `page_map`, given the accesses of `paging_structure_alloc` -/
def pageMapAccessesWith (alloc : PagingState → List BitAccess) (s : PagingState)
    (physaddr virtualaddr : BitVec 32) : List BitAccess :=
  .test (physaddr >>> 12).toNat ::
    match s.loadWord (pdeAddr virtualaddr) with
    | .error _ => []
    | .ok pde =>
      if pde.present then []
      else
        match s.markDirEntry virtualaddr with
        | .error _ => []
        | .ok marked => alloc marked

def pageMapAccesses : Nat → PagingState → BitVec 32 → BitVec 32 → List BitAccess
  | 0 => pageMapAccessesWith fun _ => []
  | depth + 1 => pageMapAccessesWith fun s =>
    newPageAccesses (pageMapAccesses depth) s s.placementHeap

/-! ### The bitmap that the accesses leave -/

theorem applyAll_append (bm : Bitmap) (first rest : List BitAccess) :
    applyAll bm (first ++ rest) = applyAll (applyAll bm first) rest :=
  List.foldl_append

theorem applyAll_wordCount (bm : Bitmap) (accesses : List BitAccess) :
    (applyAll bm accesses).wordCount = bm.wordCount := by
  induction accesses generalizing bm with
  | nil => rfl
  | cons a accesses ih =>
    refine (ih (a.apply bm)).trans ?_
    cases a <;> rfl

theorem forPages_accesses {store : Bitmap → Nat → Bitmap} {access : Nat → BitAccess}
    (same : ∀ bm bit, (access bit).apply bm = store bm bit) (bm : Bitmap)
    (base sizeBits : BitVec 32) :
    forPages store bm base sizeBits = applyAll bm (regionAccesses access base sizeBits) := by
  fun_induction forPages store bm base sizeBits with
  | case1 bm base sizeBits more ih =>
    rw [ih, regionAccesses.eq_def access base sizeBits, if_pos more]
    exact congrArg (applyAll · _) (same bm base.toNat).symm
  | case2 bm base sizeBits done =>
    rw [regionAccesses, if_neg done]
    rfl

theorem pagingInitRegion_accesses (bm : Bitmap) (base size : BitVec 32) :
    pagingInitRegion bm base size = applyAll bm (pagingInitRegionAccesses base size) := by
  have cleared : forPages Bitmap.clearBit bm (base >>> 12) (pagesIn size) =
      applyAll bm (regionAccesses .clear (base >>> 12) (pagesIn size)) := by
    refine forPages_accesses ?_ bm _ _
    exact fun _ _ => rfl
  rw [pagingInitRegionAccesses, applyAll_append, ← cleared]
  rfl

theorem pagingDeinitRegion_accesses (bm : Bitmap) (base size : BitVec 32) :
    pagingDeinitRegion bm base size = applyAll bm (pagingDeinitRegionAccesses base size) := by
  refine forPages_accesses ?_ bm _ _
  exact fun _ _ => rfl

theorem parseMemoryMap_accesses {m : Memory} {mbi : MultibootInfo} {fuel : Nat} {a : BitVec 32}
    {bm bm' : Bitmap} (returned : parseMemoryMap m mbi fuel a bm = .ok bm') :
    bm' = applyAll bm (parseMemoryMapAccesses m mbi fuel a) := by
  induction fuel generalizing a bm with
  | zero =>
    unfold parseMemoryMap at returned
    split at returned <;> cases returned
    rfl
  | succ fuel ih =>
    unfold parseMemoryMap at returned
    unfold parseMemoryMapAccesses
    split at returned
    next more =>
      rw [if_pos more, applyAll_append, ih returned]
      congr 1
      split
      · exact pagingInitRegion_accesses bm _ _
      · rfl
    next done =>
      rw [if_neg done]
      cases returned
      rfl

theorem preserveFrom_accesses {m : Memory} {count : Nat} {mod : BitVec 32} {bm bm' : Bitmap}
    (returned : preserveFrom m count mod bm = .ok bm') :
    bm' = applyAll bm (preserveFromAccesses m count mod) := by
  induction count generalizing mod bm with
  | zero =>
    cases returned
    rfl
  | succ count ih =>
    obtain ⟨_, -, rest⟩ := bind_ok_iff.mp returned
    rw [preserveFromAccesses, applyAll_append, ih rest, pagingDeinitRegion_accesses]

/-- The accesses of `pmm_init` account for the bitmap that it leaves. -/
theorem pmmInit_accesses {fuel : Nat} {image : KernelImage} {m : Memory} {mbi : MultibootInfo}
    {bits : Nat → BitVec 32} {s : PmmState} (returned : pmmInit fuel image m mbi bits = .ok s) :
    ∃ bytes frames, pagingInitBitmap bits ((mbi.memLower + mbi.memUpper) * 1024) =
        .ok (bytes, frames) ∧
      s.frames.bitmap = applyAll frames.bitmap (pmmInitAccesses fuel image m mbi) := by
  obtain ⟨bytes, frames, bm, bm', filled, parsed, modules, rfl⟩ := pmmInit_cases returned
  refine ⟨bytes, frames, filled, ?_⟩
  rw [pmmInitAccesses, applyAll_append, applyAll_append, ← parseMemoryMap_accesses parsed,
    ← pagingDeinitRegion_accesses]
  exact preserveFrom_accesses modules

/-- The frames that are free after `pmm_init`, if there are so many -/
def freeAfterInit (image : KernelImage) (entries : List MmapEntry) (modules : List Module) :
    Set Nat :=
  (({f | 8192 ≤ f} ∪ freedPages entries) \ {0}) \ reservedPages image modules

/-- The frames that `page_alloc` can hand out after `pmm_init` -/
theorem pmmInit_clearBits {m : Memory} {mbi : MultibootInfo} {entries : List MmapEntry}
    (holds : MmapHolds m (mbi.mmapAddr + mbi.mmapLength) mbi.mmapAddr entries) {fuel : Nat}
    (enough : entries.length ≤ fuel) {image : KernelImage} {pmm : PmmState}
    (started : pmmInit fuel image m mbi (fun _ => 0) = .ok pmm) (f : Nat) :
    f ∈ pmm.frames.bitmap.clearBits ↔ f < 32 * ((mbi.pageCount + 31) / 32) ∧
      f ∈ freeAfterInit image entries (mbi.modules m) := by
  obtain ⟨bytes, frames, filled, bitmap⟩ := pmmInit_accesses started
  have size : pmm.frames.bitmap.size = 32 * ((mbi.pageCount + 31) / 32) := by
    obtain ⟨count, words, -, -⟩ := pagingInitBitmap_cases filled
    have pages : mbi.pageCount = frames.pageCount.toNat := (pagesIn_toNat _).trans count.symm
    rw [Bitmap.size, bitmap, applyAll_wordCount, words, pages, bitsPerWord, Nat.mul_comm]
  have free := (pmmInit_free holds enough started).2
  rw [Bitmap.mem_clearBits, size, ← Bitmap.mem_free, free]
  exact Iff.rfl

/-- The bitmap of `pmm_init` is shorter than its array. -/
theorem pmmInit_wordCount {fuel : Nat} {image : KernelImage} {m : Memory} {mbi : MultibootInfo}
    {bits : Nat → BitVec 32} {s : PmmState} (returned : pmmInit fuel image m mbi bits = .ok s) :
    s.frames.bitmap.wordCount.toNat < bitmapArraySize := by
  obtain ⟨bytes, frames, filled, bitmap⟩ := pmmInit_accesses returned
  rw [bitmap, applyAll_wordCount]
  exact (pagingInitBitmap_cases filled).2.2.1

namespace PagingState

variable {s s' : PagingState} {v physaddr : BitVec 32} {rw user : Bool}

theorem storeWord_bitmap {w : Entry} (stored : s.storeWord v w = .ok s') :
    s'.bitmap = s.bitmap := by
  obtain ⟨place, -, same⟩ := bind_ok_iff.mp stored
  cases same
  rfl

theorem updateWord_bitmap {change : Entry → Entry} (stored : s.updateWord v change = .ok s') :
    s'.bitmap = s.bitmap := by
  obtain ⟨w, -, stored⟩ := bind_ok_iff.mp stored
  exact storeWord_bitmap stored

theorem markDirEntry_bitmap (marked : s.markDirEntry v = .ok s') : s'.bitmap = s.bitmap := by
  obtain ⟨s₁, present, marked⟩ := bind_ok_iff.mp marked
  obtain ⟨s₂, rw, user⟩ := bind_ok_iff.mp marked
  rw [updateWord_bitmap user, updateWord_bitmap rw, updateWord_bitmap present]

theorem setTableEntry_bitmap (done : s.setTableEntry physaddr v rw user = .ok s') :
    s'.bitmap = s.bitmap := by
  obtain ⟨pte, -, done⟩ := bind_ok_iff.mp done
  split at done
  · cases done
  · obtain ⟨s₁, present, done⟩ := bind_ok_iff.mp done
    obtain ⟨s₂, rw, done⟩ := bind_ok_iff.mp done
    obtain ⟨s₃, user, address⟩ := bind_ok_iff.mp done
    rw [updateWord_bitmap address, updateWord_bitmap user, updateWord_bitmap rw,
      updateWord_bitmap present]

theorem zeroPage_bitmap {p : BitVec 32} (zeroed : s.zeroPage p = .ok s') :
    s'.bitmap = s.bitmap := by
  rw [zeroPage] at zeroed
  generalize List.range 1024 = places at zeroed
  induction places generalizing s with
  | nil =>
    cases zeroed
    rfl
  | cons i places ih =>
    rw [List.foldlM_cons] at zeroed
    obtain ⟨s₁, stored, zeroed⟩ := bind_ok_iff.mp zeroed
    exact (ih zeroed).trans (storeWord_bitmap stored)

end PagingState

variable {s s' : PagingState} {v physaddr : BitVec 32} {rw user : Bool}

theorem pageAlloc_accesses {bm bm' : Bitmap} {page : Entry} {result : Option Entry}
    (returned : pageAlloc bm (some page) = .ok (result, bm')) :
    bm' = applyAll bm (pageAllocAccesses bm) := by
  simp only [pageAlloc] at returned
  rw [pageAllocAccesses]
  split at returned
  next none =>
    rw [if_pos none]
    cases returned
    rfl
  next found =>
    rw [if_neg found]
    cases returned
    rfl

/-- `page_map` accounts for the bitmap when `paging_structure_alloc` does. -/
theorem pageMapWith_accesses {alloc : PagingState → Except Panic (BitVec 32 × PagingState)}
    {accesses : PagingState → List BitAccess}
    (accounts : ∀ s r s', alloc s = .ok (r, s') → s'.bitmap = applyAll s.bitmap (accesses s))
    (done : pageMapWith alloc s physaddr v rw user = .ok s') :
    s'.bitmap = applyAll s.bitmap (pageMapAccessesWith accesses s physaddr v) := by
  unfold pageMapWith at done
  obtain ⟨_, -, done⟩ := bind_ok_iff.mp done
  obtain ⟨_, -, done⟩ := bind_ok_iff.mp done
  obtain ⟨_, -, done⟩ := bind_ok_iff.mp done
  obtain ⟨pde, loaded, done⟩ := bind_ok_iff.mp done
  unfold pageMapAccessesWith
  rw [loaded]
  dsimp only
  split at done
  next present =>
    rw [if_pos present]
    exact setTableEntry_bitmap done
  next absent =>
    rw [if_neg absent]
    obtain ⟨s₁, linked, entry⟩ := bind_ok_iff.mp done
    obtain ⟨s₂, marked, linked⟩ := bind_ok_iff.mp linked
    obtain ⟨⟨table, s₃⟩, allocated, linked⟩ := bind_ok_iff.mp linked
    obtain ⟨physaddr, -, linked⟩ := bind_ok_iff.mp linked
    rw [marked]
    dsimp only
    rw [setTableEntry_bitmap entry, updateWord_bitmap linked, accounts _ _ _ allocated,
      markDirEntry_bitmap marked]
    rfl

theorem pageMap_accesses {depth : Nat} (done : pageMap depth s physaddr v rw user = .ok s') :
    s'.bitmap = applyAll s.bitmap (pageMapAccesses depth s physaddr v) := by
  induction depth generalizing s s' physaddr v rw user with
  | zero =>
    refine pageMapWith_accesses (fun t r t' returned => ?_) done
    cases returned
  | succ depth ih =>
    refine pageMapWith_accesses (fun t r t' allocated => ?_) done
    obtain ⟨_, -, allocated⟩ := bind_ok_iff.mp allocated
    obtain ⟨⟨pte, bitmap⟩, taken, placed⟩ := bind_ok_iff.mp allocated
    rw [newPageAccesses, taken, applyAll_append, ← pageAlloc_accesses taken]
    cases pte with
    | none => cases placed
    | some pte =>
      obtain ⟨u, mapped, placed⟩ := bind_ok_iff.mp placed
      obtain ⟨w, zeroed, placed⟩ := bind_ok_iff.mp placed
      cases placed
      exact (zeroPage_bitmap zeroed).trans (ih mapped)

/-! ### Bounds of the accesses -/

/-- Every access is inside of the array. -/
def InArray (accesses : List BitAccess) : Prop := ∀ a ∈ accesses, a.word < bitmapArraySize

theorem inArray_append {first rest : List BitAccess} :
    InArray (first ++ rest) ↔ InArray first ∧ InArray rest :=
  List.forall_mem_append

theorem inArray_cons {a : BitAccess} {rest : List BitAccess} :
    InArray (a :: rest) ↔ a.bit < 32768 ∧ InArray rest := by
  have word : a.word < bitmapArraySize ↔ a.bit < 32768 := by
    unfold BitAccess.word bitsPerWord bitmapArraySize
    omega
  rw [← word]
  exact List.forall_mem_cons

theorem inArray_nil : InArray [] := List.forall_mem_nil _

/-- The frame that `page_alloc` takes is in the bitmap. -/
theorem pageAllocAccesses_inArray {bm : Bitmap} (words : bm.wordCount.toNat < bitmapArraySize) :
    InArray (pageAllocAccesses bm) := by
  rw [pageAllocAccesses]
  split
  · exact inArray_nil
  next found =>
    unfold bitmapArraySize at words
    have inside := (bm.firstFree_least (by omega) found).1.1
    unfold Bitmap.size bitsPerWord at inside
    refine inArray_cons.mpr ⟨?_, inArray_nil⟩
    show bm.firstFree.toNat < 32768
    omega

/-- `page_map` of a new frame stays inside of the array. -/
theorem newPageAccesses_inArray {map : PagingState → BitVec 32 → BitVec 32 → List BitAccess}
    (words : s.bitmap.wordCount.toNat < bitmapArraySize)
    (inside : ∀ t : PagingState, t.bitmap.wordCount = s.bitmap.wordCount → ∀ f : Frame,
      f.toNat < 32768 → InArray (map t (frameAddr f) v)) :
    InArray (newPageAccesses map s v) := by
  rw [newPageAccesses]
  refine inArray_append.mpr ⟨pageAllocAccesses_inArray words, ?_⟩
  split
  next pte bitmap taken =>
    have few : s.bitmap.wordCount.toNat ≤ 1024 := Nat.le_of_lt words
    obtain ⟨least, same⟩ := pageAlloc_some few taken
    have bound := least.1.1
    unfold bitmapArraySize at words
    unfold Bitmap.size bitsPerWord at bound
    refine inside _ ?_ _ (by omega)
    dsimp only
    rw [same, Bitmap.setBit_wordCount]
  next => exact inArray_nil

/-- The accesses of `page_map` are inside of the array when the one to the bit of its own
frame is. -/
theorem pageMapAccesses_inArray {depth : Nat} (words : s.bitmap.wordCount.toNat < bitmapArraySize) :
    InArray (pageMapAccesses depth s physaddr v) ↔ (physaddr >>> 12).toNat < 32768 := by
  induction depth generalizing s physaddr v with
  | zero =>
    unfold pageMapAccesses pageMapAccessesWith
    rw [inArray_cons]
    refine and_iff_left ?_
    split
    · exact inArray_nil
    · split
      · exact inArray_nil
      · split <;> exact inArray_nil
  | succ depth ih =>
    unfold pageMapAccesses pageMapAccessesWith
    rw [inArray_cons]
    refine and_iff_left ?_
    split
    · exact inArray_nil
    split
    · exact inArray_nil
    split
    · exact inArray_nil
    next marked done =>
      have kept := markDirEntry_bitmap done
      refine newPageAccesses_inArray (by rw [kept]; exact words) fun t same f small => ?_
      rw [ih (by rw [same, kept]; exact words), frameAddr_shift]
      exact small

/-- The loop of the region functions runs up to `base + size_bits`, and each place before that
is nearer. -/
theorem regionAccesses_inArray {access : Nat → BitAccess} (bits : ∀ n, (access n).bit = n)
    {n : Nat} (small : n < 2 ^ 31) (base : BitVec 32) (inside : base.toNat + n < 2 ^ 32) :
    InArray (regionAccesses access base (BitVec.ofNat 32 n)) ↔ base.toNat + n < 32768 := by
  induction n generalizing base with
  | zero =>
    have last : regionAccesses access base (BitVec.ofNat 32 0) = [access base.toNat] := by
      rw [regionAccesses, if_pos (by decide), regionAccesses, if_neg (by decide)]
    rw [last, inArray_cons, bits, Nat.add_zero]
    exact and_iff_left inArray_nil
  | succ n ih =>
    have sign : 0 ≤ (BitVec.ofNat 32 (n + 1)).toInt := by
      rw [BitVec.toInt_eq_toNat_of_lt] <;> rw [BitVec.toNat_ofNat, Nat.mod_eq_of_lt (by omega)]
      · omega
      · omega
    have less : BitVec.ofNat 32 (n + 1) - 1 = BitVec.ofNat 32 n := by
      rw [BitVec.ofNat_add]
      exact BitVec.add_sub_cancel _ 1#32
    have next : (base + 1).toNat = base.toNat + 1 := by
      rw [BitVec.toNat_add]
      exact Nat.mod_eq_of_lt (show base.toNat + 1 < 2 ^ 32 by omega)
    rw [regionAccesses, if_pos sign, less, inArray_cons, bits,
      ih (by omega) (base + 1) (by omega), next]
    omega

theorem pagesAccesses_inArray {access : Nat → BitAccess} (bits : ∀ n, (access n).bit = n)
    (base size : BitVec 32) :
    InArray (regionAccesses access (base >>> 12) (pagesIn size)) ↔ lastPage base size < 32768 := by
  have baseBound := base.isLt
  have sizeBound := size.isLt
  have first : (base >>> 12).toNat = base.toNat / 4096 := by
    rw [BitVec.toNat_ushiftRight, Nat.shiftRight_eq_div_pow]
  have count : pagesIn size = BitVec.ofNat 32 ((size.toNat + 4095) / 4096) := by
    rw [← pagesIn_toNat size, BitVec.ofNat_toNat, BitVec.setWidth_eq]
  rw [count, regionAccesses_inArray bits (by omega) _ (by omega), first]
  rfl

theorem pagingInitRegion_inArray (base size : BitVec 32) :
    InArray (pagingInitRegionAccesses base size) ↔ lastPage base size < 32768 := by
  have zero : InArray [.set 0] := inArray_cons.mpr ⟨by decide, inArray_nil⟩
  rw [pagingInitRegionAccesses, inArray_append, pagesAccesses_inArray fun _ => rfl]
  exact and_iff_left zero

theorem pagingDeinitRegion_inArray (base size : BitVec 32) :
    InArray (pagingDeinitRegionAccesses base size) ↔ lastPage base size < 32768 :=
  pagesAccesses_inArray (fun _ => rfl) base size

/-- The address of the entry at `a`, cut to 32 bits -/
def entryAddr (m : Memory) (a : BitVec 32) : BitVec 32 := (load64 m (a + 4)).setWidth 32

theorem parseMemoryMap_inArray {m : Memory} {mbi : MultibootInfo} (fuel : Nat) (a : BitVec 32) :
    InArray (parseMemoryMapAccesses m mbi fuel a) ↔
      ∀ e ∈ visitedEntries m mbi fuel a, load32 m (e + 20) = multibootMemoryAvailable →
        lastPage (entryAddr m e) (entryAddr m e) < 32768 := by
  induction fuel generalizing a with
  | zero => exact iff_of_true inArray_nil (List.forall_mem_nil _)
  | succ fuel ih =>
    unfold parseMemoryMapAccesses visitedEntries
    split
    next =>
      rw [inArray_append, ih, List.forall_mem_cons]
      refine and_congr_left' ?_
      rw [low_word]
      split
      next available =>
        rw [pagingInitRegion_inArray]
        exact ⟨fun low _ => low, fun low => low available⟩
      next other => exact iff_of_true inArray_nil fun available => absurd available other
    next => exact iff_of_true inArray_nil (List.forall_mem_nil _)

theorem preserveFrom_inArray {m : Memory} (count : Nat) (mod : BitVec 32) :
    InArray (preserveFromAccesses m count mod) ↔
      ∀ module ∈ modulesFrom m count mod,
        lastPage module.modStart (module.modEnd - module.modStart - 1) < 32768 := by
  induction count generalizing mod with
  | zero => exact iff_of_true inArray_nil (List.forall_mem_nil _)
  | succ count ih =>
    unfold preserveFromAccesses modulesFrom
    rw [inArray_append, ih, List.forall_mem_cons, pagingDeinitRegion_inArray]

/-- A kernel that `boot.S` can start lies in the first 4 MiB. -/
theorem bootImage_inArray (image : BootImage) : InArray (pagingDeinitRegionAccesses
    image.realKernelStart (image.realKernelEnd - image.realKernelStart)) := by
  rw [pagingDeinitRegion_inArray]
  have order := image.toKernelImage.real_le
  have stop := image.realKernelEnd_toNat
  have below : image.kernEnd.toNat < 0xC0400000 := image.kernEnd_lt
  have length : (image.realKernelEnd - image.realKernelStart).toNat =
      image.realKernelEnd.toNat - image.realKernelStart.toNat := BitVec.toNat_sub_of_le order
  unfold lastPage
  omega

/-- The accesses of `pmm_init` -/
theorem pmmInit_inArray {image : BootImage} {m : Memory} {mbi : MultibootInfo} (fuel : Nat) :
    InArray (pmmInitAccesses fuel image.toKernelImage m mbi) ↔
      (∀ e ∈ visitedEntries m mbi fuel mbi.mmapAddr,
        load32 m (e + 20) = multibootMemoryAvailable →
          lastPage (entryAddr m e) (entryAddr m e) < 32768) ∧
      ∀ module ∈ mbi.modules m,
        lastPage module.modStart (module.modEnd - module.modStart - 1) < 32768 := by
  rw [pmmInitAccesses, inArray_append, inArray_append, parseMemoryMap_inArray, preserveFrom_inArray]
  exact and_congr_right' (and_iff_right (bootImage_inArray image))

/-! ### The frames that are taken -/

-- the frame that an access takes
def BitAccess.taken : BitAccess → Option Nat
  | set bit => some bit
  | clear _ => none
  | test _ => none

def takenFrames (accesses : List BitAccess) : List Nat := accesses.filterMap BitAccess.taken

/-- No access but those of `page_alloc` changes a bit, so each takes the least clear bit. -/
def Allocates (bm : Bitmap) : List BitAccess → Prop
  | [] => True
  | .set bit :: rest => IsLeast bm.clearBits bit ∧ Allocates (bm.setBit bit) rest
  | .test _ :: rest => Allocates bm rest
  | .clear _ :: _ => False

theorem allocates_append {bm : Bitmap} {first rest : List BitAccess} :
    Allocates bm (first ++ rest) ↔ Allocates bm first ∧ Allocates (applyAll bm first) rest := by
  induction first generalizing bm with
  | nil => exact (iff_of_eq (true_and _)).symm
  | cons a first ih =>
    cases a with
    | set bit => exact (and_congr_right' ih).trans and_assoc.symm
    | clear bit => exact iff_of_false id fun both => both.1
    | test bit => exact ih

theorem clearBits_setBit (bm : Bitmap) (bit : Nat) :
    (bm.setBit bit).clearBits = bm.clearBits \ {bit} := by
  ext b
  rw [Bitmap.mem_clearBits, Set.mem_sdiff, Bitmap.mem_clearBits, Set.mem_singleton_iff,
    Bitmap.testBit_setBit, Bitmap.setBit_size, Bool.or_eq_false_iff, decide_eq_false_iff_not,
    and_assoc, eq_comm, and_comm (a := ¬b = bit)]

theorem Allocates.takes {bm : Bitmap} {accesses : List BitAccess}
    (allocates : Allocates bm accesses) : FirstFit.Takes bm.clearBits (takenFrames accesses) := by
  induction accesses generalizing bm with
  | nil => exact .nil
  | cons a accesses ih =>
    cases a with
    | set bit =>
      obtain ⟨least, rest⟩ := allocates
      refine .cons least ?_
      rw [← clearBits_setBit]
      exact ih rest
    | clear bit => exact allocates.elim
    | test bit =>
      have rest : Allocates bm accesses := allocates
      exact ih rest

theorem pageAllocAccesses_allocates {bm : Bitmap} (words : bm.wordCount.toNat < bitmapArraySize) :
    Allocates bm (pageAllocAccesses bm) := by
  rw [pageAllocAccesses]
  split
  · trivial
  next found =>
    unfold bitmapArraySize at words
    exact ⟨bm.firstFree_least (by omega) found, trivial⟩

theorem newPageAccesses_allocates {map : PagingState → BitVec 32 → BitVec 32 → List BitAccess}
    (words : s.bitmap.wordCount.toNat < bitmapArraySize)
    (inside : ∀ t : PagingState, t.bitmap.wordCount = s.bitmap.wordCount → ∀ physaddr,
      Allocates t.bitmap (map t physaddr v)) :
    Allocates s.bitmap (newPageAccesses map s v) := by
  rw [newPageAccesses]
  refine allocates_append.mpr ⟨pageAllocAccesses_allocates words, ?_⟩
  split
  next pte bitmap taken =>
    have after := pageAlloc_accesses taken
    rw [← after]
    refine inside { s with bitmap := bitmap } ?_ _
    rw [after, applyAll_wordCount]
  next => trivial

theorem pageMapAccesses_allocates {depth : Nat}
    (words : s.bitmap.wordCount.toNat < bitmapArraySize) :
    Allocates s.bitmap (pageMapAccesses depth s physaddr v) := by
  induction depth generalizing s physaddr v with
  | zero =>
    unfold pageMapAccesses pageMapAccessesWith
    show Allocates s.bitmap (match s.loadWord (pdeAddr v) with | .error _ => _ | .ok _ => _)
    split
    · trivial
    split
    · trivial
    split <;> trivial
  | succ depth ih =>
    unfold pageMapAccesses pageMapAccessesWith
    show Allocates s.bitmap (match s.loadWord (pdeAddr v) with | .error _ => _ | .ok _ => _)
    split
    · trivial
    split
    · trivial
    split
    · trivial
    next marked done =>
      have kept := markDirEntry_bitmap done
      rw [← kept]
      refine newPageAccesses_allocates (by rw [kept]; exact words) fun t same physaddr => ?_
      exact ih (by rw [same, kept]; exact words)

theorem pageAllocAccesses_of_least {bm : Bitmap} (bound : bm.wordCount.toNat ≤ 1024) {f : Nat}
    (least : IsLeast bm.clearBits f) : pageAllocAccesses bm = [.set f] := by
  have small : bm.wordCount.toNat < 2 ^ 27 := by omega
  have found : bm.firstFree ≠ -1#32 := by
    rw [Ne, bm.firstFree_eq_neg_one_iff small]
    exact Set.Nonempty.ne_empty ⟨f, least.1⟩
  rw [pageAllocAccesses, if_neg found, (bm.firstFree_least small found).unique least]

theorem newPageAccesses_of_least {map : PagingState → BitVec 32 → BitVec 32 → List BitAccess}
    (bound : s.bitmap.wordCount.toNat ≤ 1024) {f : Frame}
    (least : IsLeast s.bitmap.clearBits f.toNat) : newPageAccesses map s v =
      .set f.toNat :: map { s with bitmap := s.bitmap.setBit f.toNat } (frameAddr f) v := by
  obtain ⟨pte, taken, frame⟩ := pageAlloc_of_least bound least 0
  rw [newPageAccesses, pageAllocAccesses_of_least bound least, taken]
  dsimp only
  rw [frame]
  rfl

/-- A page below a directory entry that is present needs no frame. -/
theorem pageMapAccesses_present {depth : Nat} (selfMap : s.SelfMapped)
    (present : (s.mem s.dir (dirIndex v)).present = true) :
    pageMapAccesses depth s physaddr v = [.test (physaddr >>> 12).toNat] := by
  cases depth <;> unfold pageMapAccesses pageMapAccessesWith <;>
    rw [selfMap.loadWord_pde] <;> exact congrArg _ (if_pos present)

/-- A page below an absent directory entry takes the least free frame for its table, which is
itself mapped by a table that is there. -/
theorem pageMapAccesses_absent {depth : Nat} (tables : s.Tables) (last : dirIndex v ≠ 1023)
    (absent : (s.mem s.dir (dirIndex v)).present = false)
    (heap : dirIndex s.placementHeap = 768) {f : Frame}
    (least : IsLeast s.bitmap.clearBits f.toNat) :
    pageMapAccesses (depth + 1) s physaddr v =
      [.test (physaddr >>> 12).toNat, .set f.toNat, .test f.toNat] := by
  have other : (768 : BitVec 10) ≠ dirIndex v := by
    intro same
    rw [← same, tables.kernel] at absent
    cases absent
  -- the state in which the frame is taken has the bitmap and the placement heap of `s`
  obtain ⟨t, marked, selfMap, bitmap, placement, kernel⟩ : ∃ t, s.markDirEntry v = .ok t ∧
      t.SelfMapped ∧ t.bitmap = s.bitmap ∧ t.placementHeap = s.placementHeap ∧
      (t.mem t.dir 768).present = true := by
    refine ⟨_, markDirEntry_eq tables.selfMap last, tables.selfMap.write_dir last _, rfl, rfl, ?_⟩
    rw [setMem_mem, setMem_dir, write_of_index_ne s.mem other]
    exact tables.kernel
  rw [← bitmap] at least
  have inner : pageMapAccesses depth { t with bitmap := t.bitmap.setBit f.toNat } (frameAddr f)
      t.placementHeap = [.test f.toNat] := by
    have present : (t.mem t.dir (dirIndex t.placementHeap)).present = true := by
      rw [placement, heap]
      exact kernel
    rw [pageMapAccesses_present (s := { t with bitmap := t.bitmap.setBit f.toNat }) selfMap present,
      frameAddr_shift]
  unfold pageMapAccesses pageMapAccessesWith
  rw [tables.selfMap.loadWord_pde, marked]
  dsimp only
  rw [if_neg (by rw [absent]; decide),
    newPageAccesses_of_least (by rw [bitmap]; exact tables.bound) least, inner]

end Treeos
