import Treeos.Panic
import Treeos.Util.Bitmap
import Mathlib.Data.Set.Basic

/-!
# Setting up the frame bitmap

`paging_init_bitmap`, `paging_init_region` and `paging_deinit_region` of
`pmm/paging.c`, and which frames each of them leaves free.
-/
namespace Treeos

/-- `BITMAP_ARRAY_SIZE`, in words -/
def bitmapArraySize : Nat := 1024

-- `n >> PAGE_SIZE_SHIFT`, plus one for a remainder
def pagesIn (n : BitVec 32) : BitVec 32 :=
  if n % 0x1000 = 0 then n >>> 12 else (n >>> 12) + 1#32

/-- The variables `page_count` and `page_bitmap`. -/
structure PageFrames where
  pageCount : BitVec 32
  bitmap : Bitmap

/-- `memset(bits, 0xFF, count)` on the words of the bitmap, for a multiple of four. -/
def fillWords (bits : Nat → BitVec 32) (count : Nat) : Nat → BitVec 32 :=
  fun word => if word < count / 4 then BitVec.allOnes 32 else bits word

/-- `paging_init_bitmap`, where `bits` is what `page_bitmap_bits` held before. -/
def pagingInitBitmap (bits : Nat → BitVec 32) (memSize : BitVec 32) :
    Except Panic (BitVec 32 × PageFrames) := do
  let pageCount := pagesIn memSize
  let wordCount := if pageCount % 32 = 0 then pageCount / 32 else pageCount / 32 + 1
  kassert (wordCount.toNat < bitmapArraySize) "page_bitmap.word_count < BITMAP_ARRAY_SIZE"
  -- `sizeof(page_bitmap.bits)` is the size of a pointer.
  let bytesAllocated := wordCount * 4
  -- The array size is a number of words, and here it is used as a number of bytes.
  .ok (bytesAllocated, ⟨pageCount, ⟨wordCount, fillWords bits bitmapArraySize, 0⟩⟩)

/-- The loop of the two region functions: it ends when `(int)size_bits` is negative. It does not
look at the size of the array, and neither does this bitmap; on the array, `pmmInitOnArray` stops
at the first word behind it. -/
def forPages (store : Bitmap → Nat → Bitmap) (bm : Bitmap) (base sizeBits : BitVec 32) : Bitmap :=
  if 0 ≤ sizeBits.toInt then forPages store (store bm base.toNat) (base + 1) (sizeBits - 1) else bm
termination_by (sizeBits.toInt + 1).toNat
decreasing_by
  have small : sizeBits.toNat < 2 ^ 31 := by
    rw [BitVec.toInt_eq_toNat_cond] at *
    split at * <;> omega
  rw [BitVec.toInt_eq_toNat_cond, BitVec.toInt_eq_toNat_cond]
  split <;> split <;> bv_omega

/-- `paging_init_region` -/
def pagingInitRegion (bm : Bitmap) (base size : BitVec 32) : Bitmap :=
  let bm := forPages Bitmap.clearBit bm (base >>> 12) (pagesIn size)
  -- Ensure that allocations can't return zero
  bm.setBit 0

/-- `paging_deinit_region` -/
def pagingDeinitRegion (bm : Bitmap) (base size : BitVec 32) : Bitmap :=
  forPages Bitmap.setBit bm (base >>> 12) (pagesIn size)

/-! ### Which pages the loop visits -/

theorem pagesIn_toNat (n : BitVec 32) : (pagesIn n).toNat = (n.toNat + 4095) / 4096 := by
  have bound := n.isLt
  have shift : (n >>> 12).toNat = n.toNat / 4096 := by
    rw [BitVec.toNat_ushiftRight, Nat.shiftRight_eq_div_pow]
  have rest : (n % 0x1000 = 0) ↔ n.toNat % 4096 = 0 := by
    rw [← BitVec.toNat_inj, BitVec.toNat_umod]
    rfl
  unfold pagesIn
  split
  next aligned =>
    rw [shift]
    rw [rest] at aligned
    omega
  next unaligned =>
    rw [rest] at unaligned
    rw [BitVec.toNat_add, shift, show (1#32).toNat = 1 from rfl]
    omega

/-- The loop body runs once more than `size_bits` says. -/
theorem forPages_succ (store : Bitmap → Nat → Bitmap) (bm : Bitmap) (base : BitVec 32) (n : Nat)
    (small : n < 2 ^ 31) : forPages store bm base (BitVec.ofNat 32 n) =
      (List.range (n + 1)).foldl (fun bm i => store bm (base + BitVec.ofNat 32 i).toNat) bm := by
  induction n generalizing bm base with
  | zero =>
    rw [forPages, if_pos (by decide), forPages, if_neg (by decide), List.range_one, List.foldl_cons,
      List.foldl_nil, BitVec.add_zero]
  | succ n ih =>
    have sign : 0 ≤ (BitVec.ofNat 32 (n + 1)).toInt := by
      rw [BitVec.toInt_eq_toNat_of_lt] <;> rw [BitVec.toNat_ofNat, Nat.mod_eq_of_lt (by omega)]
      · omega
      · omega
    have less : BitVec.ofNat 32 (n + 1) - 1 = BitVec.ofNat 32 n := by
      rw [BitVec.ofNat_add]
      exact BitVec.add_sub_cancel _ 1#32
    rw [forPages, if_pos sign, less, ih _ _ (by omega), List.range_succ_eq_map (n := n + 1),
      List.foldl_cons, List.foldl_map]
    congr 1
    · funext bm i
      have next : base + 1 + BitVec.ofNat 32 i = base + BitVec.ofNat 32 i.succ := by
        rw [Nat.succ_eq_add_one, BitVec.ofNat_add]
        bv_omega
      rw [next]
    · simp

/-- The frames that a region function visits, its last one included. -/
def regionPages (base size : BitVec 32) : Set Nat :=
  {f | base.toNat / 4096 ≤ f ∧ f ≤ base.toNat / 4096 + (size.toNat + 4095) / 4096}

theorem mem_regionPages {base size : BitVec 32} {f : Nat} : f ∈ regionPages base size ↔
    base.toNat / 4096 ≤ f ∧ f ≤ base.toNat / 4096 + (size.toNat + 4095) / 4096 := Iff.rfl

/-- A loop whose body writes `value` into one bit writes it into the pages it visits. -/
theorem forPages_testBit {store : Bitmap → Nat → Bitmap} {value : Bool}
    (writes : ∀ bm bit other, (store bm bit).testBit other =
      if bit = other then value else bm.testBit other)
    (bm : Bitmap) (base size : BitVec 32) (f : Nat) :
    (forPages store bm (base >>> 12) (pagesIn size)).testBit f = value ∧
        f ∈ regionPages base size ∨
      (forPages store bm (base >>> 12) (pagesIn size)).testBit f = bm.testBit f ∧
        f ∉ regionPages base size := by
  have baseBound := base.isLt
  have sizeBound := size.isLt
  have first : (base >>> 12).toNat = base.toNat / 4096 := by
    rw [BitVec.toNat_ushiftRight, Nat.shiftRight_eq_div_pow]
  have visited (i : Nat) (small : i ≤ 2 ^ 20) :
      (base >>> 12 + BitVec.ofNat 32 i).toNat = base.toNat / 4096 + i := by
    rw [BitVec.toNat_add, first, BitVec.toNat_ofNat]
    omega
  -- After `n` rounds the first `n` pages hold the value.
  have rounds (n : Nat) (small : n ≤ 2 ^ 20 + 1) :
      ((List.range n).foldl (fun bm i => store bm (base >>> 12 + BitVec.ofNat 32 i).toNat)
        bm).testBit f =
        if base.toNat / 4096 ≤ f ∧ f < base.toNat / 4096 + n then value else bm.testBit f := by
    induction n with
    | zero => simp
    | succ n ih =>
      rw [List.range_succ, List.foldl_append, List.foldl_cons, List.foldl_nil, writes,
        ih (by omega), visited n (by omega)]
      grind
  have count := pagesIn_toNat size
  have few : (size.toNat + 4095) / 4096 < 2 ^ 31 := by omega
  have word : pagesIn size = BitVec.ofNat 32 ((size.toNat + 4095) / 4096) := by
    rw [← count, BitVec.ofNat_toNat, BitVec.setWidth_eq]
  rw [word, forPages_succ _ _ _ _ few, rounds _ (by omega), mem_regionPages]
  split
  · exact .inl ⟨rfl, by omega⟩
  · exact .inr ⟨rfl, by omega⟩

theorem forPages_wordCount {store : Bitmap → Nat → Bitmap}
    (keeps : ∀ bm bit, (store bm bit).wordCount = bm.wordCount) (bm : Bitmap)
    (base sizeBits : BitVec 32) : (forPages store bm base sizeBits).wordCount = bm.wordCount := by
  fun_induction forPages store bm base sizeBits with
  | case1 bm base sizeBits more ih => exact ih.trans (keeps bm base.toNat)
  | case2 => rfl

theorem pagingInitRegion_wordCount (bm : Bitmap) (base size : BitVec 32) :
    (pagingInitRegion bm base size).wordCount = bm.wordCount :=
  forPages_wordCount (fun bm => bm.clearBit_wordCount) bm _ _

theorem pagingDeinitRegion_wordCount (bm : Bitmap) (base size : BitVec 32) :
    (pagingDeinitRegion bm base size).wordCount = bm.wordCount :=
  forPages_wordCount (fun bm => bm.setBit_wordCount) bm _ _

/-! ### Free frames -/

namespace Bitmap

/-- The frames whose bit is clear, those behind the last word included. -/
def free (bm : Bitmap) : Set Nat := {f | bm.testBit f = false}

theorem mem_free {bm : Bitmap} {f : Nat} : f ∈ bm.free ↔ bm.testBit f = false := Iff.rfl

theorem free_setBit (bm : Bitmap) (bit : Nat) : (bm.setBit bit).free = bm.free \ {bit} := by
  ext f
  by_cases same : bit = f
  · simp [mem_free, same]
  · simp [mem_free, testBit_setBit, same, Ne.symm same]

end Bitmap

/-- `paging_deinit_region` reserves the pages it visits. -/
theorem pagingDeinitRegion_free (bm : Bitmap) (base size : BitVec 32) :
    (pagingDeinitRegion bm base size).free = bm.free \ regionPages base size := by
  ext f
  have writes (bm : Bitmap) (bit other : Nat) : (bm.setBit bit).testBit other =
      if bit = other then true else bm.testBit other := by
    by_cases same : bit = other <;> simp [Bitmap.testBit_setBit, same]
  rw [Set.mem_sdiff, Bitmap.mem_free, Bitmap.mem_free]
  unfold pagingDeinitRegion
  rcases forPages_testBit writes bm base size f with ⟨set, inside⟩ | ⟨kept, outside⟩
  · simp [set, inside]
  · simp [kept, outside]

/-- `paging_init_region` frees the pages it visits and reserves frame 0. -/
theorem pagingInitRegion_free (bm : Bitmap) (base size : BitVec 32) :
    (pagingInitRegion bm base size).free = (bm.free ∪ regionPages base size) \ {0} := by
  have writes (bm : Bitmap) (bit other : Nat) : (bm.clearBit bit).testBit other =
      if bit = other then false else bm.testBit other := by
    by_cases same : bit = other <;> simp [Bitmap.testBit_clearBit, same]
  unfold pagingInitRegion
  rw [Bitmap.free_setBit]
  congr 1
  ext f
  rw [Set.mem_union, Bitmap.mem_free, Bitmap.mem_free]
  rcases forPages_testBit writes bm base size f with ⟨clear, inside⟩ | ⟨kept, outside⟩
  · simp [clear, inside]
  · simp [kept, outside]

/-- The fill of `paging_init_bitmap` ends at frame 8192; behind it the bits stay as they
were, which is clear for a static array. -/
theorem pagingInitBitmap_free {memSize bytes : BitVec 32} {frames : PageFrames}
    (returned : pagingInitBitmap (fun _ => 0) memSize = .ok (bytes, frames)) :
    frames.pageCount = pagesIn memSize ∧ frames.bitmap.free = {f | 8192 ≤ f} := by
  unfold pagingInitBitmap at returned
  obtain ⟨_, -, same⟩ := bind_ok_iff.mp returned
  cases same
  refine ⟨rfl, ?_⟩
  ext f
  rw [Bitmap.mem_free, Bitmap.testBit_eq, Set.mem_ofPred_eq]
  show (fillWords (fun _ => 0#32) bitmapArraySize (f / bitsPerWord)).getLsbD (f % bitsPerWord) =
    false ↔ _
  by_cases filled : f / bitsPerWord < bitmapArraySize / 4
  · rw [fillWords, if_pos filled, BitVec.getLsbD_allOnes, decide_eq_true (Bitmap.bit_lt f)]
    unfold bitsPerWord bitmapArraySize at filled
    simp only [Bool.true_eq_false, false_iff]
    omega
  · rw [fillWords, if_neg filled]
    unfold bitsPerWord bitmapArraySize at filled
    simp only [BitVec.getLsbD_zero, true_iff]
    omega

end Treeos
