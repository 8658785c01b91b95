import Mathlib.Data.List.Induction
import Mathlib.Data.Set.Insert
import Treeos.Util.Bitmap

/-!
# Allocated bitmaps

`bitmap_alloc` of `util/bitmap.c`, and what `bitmap_first_free` finds in the bitmap after bits
have been set and cleared.
-/
namespace Treeos

/-- The memory that `kcalloc` returns: a structure for `kcalloc(1, sizeof(struct bitmap))`, and
the words from the returned address on for `kcalloc(n, sizeof(unsigned))`. -/
structure BitmapMemory where
  bitmap : Bitmap
  words : Nat → Nat → BitVec 32

/-- `kcalloc` returns zeroed memory. -/
structure BitmapMemory.Zeroed (kcalloc : BitmapMemory) : Prop where
  wordCount : kcalloc.bitmap.wordCount = 0
  flags : kcalloc.bitmap.flags = 0
  words : ∀ n, ∀ word < n, kcalloc.words n word = 0

def bitmapFreeStruct : BitVec 8 := 1#8 <<< 0

/-- The number of words that `bitmap_alloc` asks for. -/
def numWords (numBits : BitVec 32) : BitVec 32 :=
  let words := numBits / BitVec.ofNat 32 bitsPerWord
  if numBits % BitVec.ofNat 32 bitsPerWord ≠ 0 then words + 1 else words

/-- `bitmap_alloc` -/
def bitmapAlloc (kcalloc : BitmapMemory) (bitmap : Option Bitmap) (numBits : BitVec 32) : Bitmap :=
  let bitmap :=
    match bitmap with
    | some bitmap => bitmap
    | none => { kcalloc.bitmap with flags := kcalloc.bitmap.flags ||| bitmapFreeStruct }
  { bitmap with wordCount := numWords numBits, bits := kcalloc.words (numWords numBits).toNat }

/-- The calls of the bit macros -/
inductive BitOp where
  | set (bit : Nat)
  | clear (bit : Nat)

def BitOp.bit : BitOp → Nat
  | .set bit => bit
  | .clear bit => bit

def BitOp.run (bm : Bitmap) : BitOp → Bitmap
  | .set bit => bm.setBit bit
  | .clear bit => bm.clearBit bit

/-- The indices whose last operation has set them -/
def BitOp.mark (marked : Set Nat) : BitOp → Set Nat
  | .set bit => insert bit marked
  | .clear bit => marked \ {bit}

def markedBits (ops : List BitOp) : Set Nat := ops.foldl BitOp.mark ∅

/-- The indices below `numBits` that no operation has left set. -/
def freeBelow (numBits : BitVec 32) (ops : List BitOp) : Set Nat :=
  {bit | bit < numBits.toNat ∧ bit ∉ markedBits ops}

/-- `bitmap_first_free` returns the least free index, minus one exactly when there is none, and
no index from `numBits` on. -/
def Bitmap.FindsFree (bm : Bitmap) (numBits : BitVec 32) (ops : List BitOp) : Prop :=
  ((freeBelow numBits ops).Nonempty → IsLeast (freeBelow numBits ops) bm.firstFree.toNat) ∧
  (bm.firstFree = -1#32 ↔ freeBelow numBits ops = ∅) ∧
  (bm.firstFree ≠ -1#32 → bm.firstFree.toNat < numBits.toNat)

/-! ### The words of the bitmap -/

theorem numWords_toNat (numBits : BitVec 32) :
    (numWords numBits).toNat = (numBits.toNat + 31) / 32 := by
  have bound := numBits.isLt
  have rest : numBits % BitVec.ofNat 32 bitsPerWord = 0 ↔ numBits.toNat % 32 = 0 := by
    rw [← BitVec.toNat_inj, BitVec.toNat_umod]
    rfl
  have quotient : (numBits / BitVec.ofNat 32 bitsPerWord).toNat = numBits.toNat / 32 :=
    BitVec.toNat_udiv
  simp only [numWords]
  split
  next more =>
    rw [Ne, rest] at more
    have one : (1 : BitVec 32).toNat = 1 := rfl
    rw [BitVec.toNat_add, quotient, one]
    omega
  next even =>
    rw [Ne, rest, not_not] at even
    rw [quotient]
    omega

/-- A bitmap that `bitmap_alloc` has returned, after operations on indices below `numBits`. -/
structure AllocInv (numBits : BitVec 32) (ops : List BitOp) (bm : Bitmap) : Prop where
  size : bm.size = (numBits.toNat + 31) / 32 * 32
  bits : ∀ bit < bm.size, bm.testBit bit = true ↔ bit ∈ markedBits ops
  below : ∀ bit ∈ markedBits ops, bit < numBits.toNat

variable {kcalloc : BitmapMemory} {numBits : BitVec 32} {ops : List BitOp} {bm : Bitmap}

theorem bitmapAlloc_inv (zeroed : kcalloc.Zeroed) (bitmap : Option Bitmap) (numBits : BitVec 32) :
    AllocInv numBits [] (bitmapAlloc kcalloc bitmap numBits) := by
  have size : (bitmapAlloc kcalloc bitmap numBits).size = (numBits.toNat + 31) / 32 * 32 := by
    rw [← numWords_toNat]
    rfl
  refine ⟨size, fun bit inside => ?_, fun _ none => absurd none (Set.notMem_empty _)⟩
  have word : bit / bitsPerWord < (numWords numBits).toNat := by
    rw [size, ← numWords_toNat] at inside
    unfold bitsPerWord
    omega
  have zero : (bitmapAlloc kcalloc bitmap numBits).bits (bit / bitsPerWord) = 0 :=
    zeroed.words _ _ word
  rw [Bitmap.testBit_eq, zero]
  simp [markedBits]

theorem markedBits_snoc (ops : List BitOp) (op : BitOp) :
    markedBits (ops ++ [op]) = op.mark (markedBits ops) := by
  simp [markedBits]

theorem AllocInv.run (inv : AllocInv numBits ops bm) (op : BitOp)
    (inside : op.bit < numBits.toNat) : AllocInv numBits (ops ++ [op]) (op.run bm) := by
  obtain ⟨size, bits, below⟩ := inv
  cases op with
  | set bit =>
    refine ⟨size, fun other small => ?_, fun other member => ?_⟩
    · rw [markedBits_snoc, BitOp.run, Bitmap.testBit_setBit, Bool.or_eq_true, bits other small]
      simp [BitOp.mark, eq_comm]
    · rw [markedBits_snoc] at member
      rcases member with rfl | before
      · exact inside
      · exact below other before
  | clear bit =>
    refine ⟨size, fun other small => ?_, fun other member => ?_⟩
    · rw [markedBits_snoc, BitOp.run, Bitmap.testBit_clearBit, Bool.and_eq_true, bits other small]
      simp [BitOp.mark, and_comm, eq_comm (a := bit)]
    · rw [markedBits_snoc] at member
      exact below other member.1

theorem AllocInv.runAll (zeroed : kcalloc.Zeroed) (bitmap : Option Bitmap)
    (inside : ∀ op ∈ ops, op.bit < numBits.toNat) :
    AllocInv numBits ops (ops.foldl BitOp.run (bitmapAlloc kcalloc bitmap numBits)) := by
  induction ops using List.reverseRecOn with
  | nil => exact bitmapAlloc_inv zeroed bitmap numBits
  | append_singleton ops op ih =>
    rw [List.foldl_append]
    have before := ih fun earlier member => inside earlier (List.mem_append_left _ member)
    exact before.run op (inside op (by simp))

/-! ### The scan -/

theorem AllocInv.mem_clearBits (inv : AllocInv numBits ops bm) (bit : Nat) :
    bit ∈ bm.clearBits ↔ bit < (numBits.toNat + 31) / 32 * 32 ∧ bit ∉ markedBits ops := by
  rw [Bitmap.mem_clearBits, ← inv.size]
  refine and_congr_right fun inside => ?_
  rw [← inv.bits bit inside, Bool.not_eq_true]

/-- While an index below `numBits` is free, the scan ends at the least one. -/
theorem AllocInv.firstFree_free (inv : AllocInv numBits ops bm)
    (some : (freeBelow numBits ops).Nonempty) :
    IsLeast (freeBelow numBits ops) bm.firstFree.toNat := by
  obtain ⟨bit, small, free⟩ := some
  have bound := numBits.isLt
  rcases bm.firstFree_cases with ⟨found, ⟨member, least⟩, result⟩ | ⟨full, -⟩
  · have before : found ≤ bit := least ((inv.mem_clearBits bit).mpr ⟨by omega, free⟩)
    have value : bm.firstFree.toNat = found := by
      rw [result, BitVec.toNat_ofNat, Nat.mod_eq_of_lt (by omega)]
    rw [value]
    refine ⟨⟨by omega, ((inv.mem_clearBits found).mp member).2⟩, fun other ⟨small', free'⟩ => ?_⟩
    exact least ((inv.mem_clearBits other).mpr ⟨by omega, free'⟩)
  · have member : bit ∈ bm.clearBits := (inv.mem_clearBits bit).mpr ⟨by omega, free⟩
    rw [full] at member
    exact absurd member (Set.notMem_empty bit)

/-- Once all of them are set, the scan goes on to the bits behind them in the last word. -/
theorem AllocInv.firstFree_full (inv : AllocInv numBits ops bm)
    (none : freeBelow numBits ops = ∅) :
    bm.firstFree = if numBits.toNat % 32 = 0 then -1#32 else numBits := by
  have all (bit : Nat) (small : bit < numBits.toNat) : bit ∈ markedBits ops := by
    by_contra free
    have member : bit ∈ freeBelow numBits ops := ⟨small, free⟩
    rw [none] at member
    exact member
  rcases bm.firstFree_cases with ⟨found, ⟨member, least⟩, result⟩ | ⟨full, result⟩
  · obtain ⟨inside, free⟩ := (inv.mem_clearBits found).mp member
    have behind : numBits.toNat ≤ found := Nat.le_of_not_lt fun small => free (all found small)
    have next : numBits.toNat ∈ bm.clearBits :=
      (inv.mem_clearBits _).mpr ⟨by omega, fun set => Nat.lt_irrefl _ (inv.below _ set)⟩
    have here : found = numBits.toNat := Nat.le_antisymm (least next) behind
    rw [if_neg (by omega), result, here, BitVec.ofNat_toNat, BitVec.setWidth_eq]
  · by_cases even : numBits.toNat % 32 = 0
    · rw [if_pos even, result]
    · have next : numBits.toNat ∈ bm.clearBits :=
        (inv.mem_clearBits _).mpr ⟨by omega, fun set => Nat.lt_irrefl _ (inv.below _ set)⟩
      rw [full] at next
      exact absurd next (Set.notMem_empty _)

theorem eq_neg_one_iff (word : BitVec 32) : word = -1#32 ↔ word.toNat = 2 ^ 32 - 1 := by
  rw [← BitVec.toNat_inj]
  rfl

/-- The last word's spare bits are never set. `bitmap_first_free` keeps to the `num_bits` of
`bitmap_alloc` as long as one of them is free; when they are all set, exactly if the last word
has no spare bits (or the index that it returns for the first of them reads as minus one). -/
theorem bitmapAlloc_findsFree_iff (kcalloc : BitmapMemory) (zeroed : kcalloc.Zeroed)
    (bitmap : Option Bitmap) (numBits : BitVec 32) (ops : List BitOp)
    (inside : ∀ op ∈ ops, op.bit < numBits.toNat) :
    (ops.foldl BitOp.run (bitmapAlloc kcalloc bitmap numBits)).FindsFree numBits ops ↔
      numBits.toNat % 32 = 0 ∨ numBits.toNat = 2 ^ 32 - 1 ∨
        ∃ bit < numBits.toNat, bit ∉ markedBits ops := by
  have inv := AllocInv.runAll zeroed bitmap inside
  generalize ops.foldl BitOp.run (bitmapAlloc kcalloc bitmap numBits) = bm at inv
  have bound := numBits.isLt
  by_cases some : (freeBelow numBits ops).Nonempty
  · have least := inv.firstFree_free some
    have small : bm.firstFree.toNat < numBits.toNat := least.1.1
    refine iff_of_true ⟨fun _ => least, ?_, fun _ => small⟩ (.inr (.inr some))
    rw [eq_neg_one_iff]
    exact iff_of_false (by omega) some.ne_empty
  · have none : freeBelow numBits ops = ∅ := Set.not_nonempty_iff_eq_empty.mp some
    have result := inv.firstFree_full none
    have condition : bm.firstFree = -1#32 ↔
        numBits.toNat % 32 = 0 ∨ numBits.toNat = 2 ^ 32 - 1 := by
      rw [result]
      by_cases even : numBits.toNat % 32 = 0
      · rw [if_pos even]
        exact iff_of_true rfl (.inl even)
      · rw [if_neg even, eq_neg_one_iff, or_iff_right even]
    constructor
    · rintro ⟨-, minus, -⟩
      rcases condition.mp (minus.mpr none) with even | last
      · exact .inl even
      · exact .inr (.inl last)
    · intro holds
      have minus : bm.firstFree = -1#32 := by
        rcases holds with even | last | free
        · exact condition.mpr (.inl even)
        · exact condition.mpr (.inr last)
        · exact absurd free some
      exact ⟨fun free => absurd free some, iff_of_true minus none, fun other => absurd minus other⟩

/-- All-zero memory -/
def zeroMemory : BitmapMemory := ⟨⟨0, fun _ => 0, 0⟩, fun _ _ => 0⟩

theorem zeroMemory_zeroed : zeroMemory.Zeroed := ⟨rfl, rfl, fun _ _ _ => rfl⟩

/-- Two bits of which the first one is taken -/
theorem bitmapAlloc_second :
    ([BitOp.set 0].foldl BitOp.run (bitmapAlloc zeroMemory none 2)).FindsFree 2 [.set 0] := by
  have inside : ∀ op ∈ [BitOp.set 0], op.bit < (2 : BitVec 32).toNat := by
    simp [BitOp.bit]
  apply (bitmapAlloc_findsFree_iff zeroMemory zeroMemory_zeroed none 2 [.set 0] inside).mpr
  exact .inr (.inr ⟨1, by decide, by simp [markedBits, BitOp.mark]⟩)

/-- In a bitmap for one bit that is taken, index 1 is returned as free. -/
theorem bitmapAlloc_spare : ¬∀ (kcalloc : BitmapMemory), kcalloc.Zeroed →
    ∀ (bitmap : Option Bitmap) (numBits : BitVec 32) (ops : List BitOp),
      (∀ op ∈ ops, op.bit < numBits.toNat) →
        (ops.foldl BitOp.run (bitmapAlloc kcalloc bitmap numBits)).FindsFree numBits ops := by
  intro all
  have inside : ∀ op ∈ [BitOp.set 0], op.bit < (1 : BitVec 32).toNat := by
    simp [BitOp.bit]
  obtain ⟨-, -, small⟩ := all zeroMemory zeroMemory_zeroed none 1 [.set 0] inside
  have found : ([BitOp.set 0].foldl BitOp.run (bitmapAlloc zeroMemory none 1)).firstFree = 1 := by
    decide
  rw [found] at small
  exact absurd (small (by decide)) (by decide)

end Treeos
