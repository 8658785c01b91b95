import Treeos.Lib.Bits
import Mathlib.Order.Bounds.Basic
import Mathlib.Logic.Function.Basic

/-!
# Word bitmaps

`struct bitmap`, the bit macros of `util/bitmap.h` and `bitmap_first_free`.
-/
namespace Treeos

/-- `BITS_PER_WORD` -/
def bitsPerWord : Nat := 32

/-- `struct bitmap`. `bits` is the memory from the first word of the array on, so
an index past the array reads whatever the linker placed behind it. -/
structure Bitmap where
  wordCount : BitVec 32
  bits : Nat → BitVec 32
  flags : BitVec 8

namespace Bitmap

/-- A store to `bits[word]`. -/
def storeWord (bm : Bitmap) (word : Nat) (value : BitVec 32) : Bitmap :=
  { bm with bits := Function.update bm.bits word value }

/-- `bitmap_set_bit` -/
def setBit (bm : Bitmap) (bit : Nat) : Bitmap :=
  bm.storeWord (bit / bitsPerWord) (bm.bits (bit / bitsPerWord) ||| 1#32 <<< (bit % bitsPerWord))

/-- `bitmap_clear_bit` -/
def clearBit (bm : Bitmap) (bit : Nat) : Bitmap :=
  bm.storeWord (bit / bitsPerWord)
    (bm.bits (bit / bitsPerWord) &&& ~~~(1#32 <<< (bit % bitsPerWord)))

/-- `bitmap_test_bit` -/
def testBit (bm : Bitmap) (bit : Nat) : Bool :=
  bm.bits (bit / bitsPerWord) &&& 1#32 <<< (bit % bitsPerWord) != 0#32

/-- The scan of one word in `bitmap_first_free`: nothing to return for a full word. -/
def scanWord (bm : Bitmap) (word : Nat) : Option (BitVec 32) :=
  if bm.bits word = -1#32 then none
  else ((List.range bitsPerWord).find? fun bit => bm.bits word &&& 1#32 <<< bit = 0#32).map
    fun bit => BitVec.ofNat 32 (word * bitsPerWord + bit)

/-- `bitmap_first_free` -/
def firstFree (bm : Bitmap) : BitVec 32 :=
  ((List.range bm.wordCount.toNat).findSome? bm.scanWord).getD (-1#32)

/-- The number of bits in the words of the bitmap. -/
def size (bm : Bitmap) : Nat := bm.wordCount.toNat * bitsPerWord

variable (bm : Bitmap) (bit : Nat)

@[simp] theorem setBit_wordCount : (bm.setBit bit).wordCount = bm.wordCount := rfl
@[simp] theorem clearBit_wordCount : (bm.clearBit bit).wordCount = bm.wordCount := rfl
@[simp] theorem setBit_flags : (bm.setBit bit).flags = bm.flags := rfl
@[simp] theorem clearBit_flags : (bm.clearBit bit).flags = bm.flags := rfl
@[simp] theorem setBit_size : (bm.setBit bit).size = bm.size := rfl
@[simp] theorem clearBit_size : (bm.clearBit bit).size = bm.size := rfl

theorem bit_lt : bit % bitsPerWord < 32 := Nat.mod_lt _ (by decide)

/-- The masks of the bit macros read one bit of a word. -/
theorem and_mask_eq_zero (word : BitVec 32) (i : Nat) (bound : i < bitsPerWord) :
    word &&& 1#32 <<< i = 0#32 ↔ word.getLsbD i = false :=
  Bits.and_one_shiftLeft_eq_zero word i bound

theorem testBit_eq : bm.testBit bit = (bm.bits (bit / bitsPerWord)).getLsbD (bit % bitsPerWord) := by
  have reads := and_mask_eq_zero (bm.bits (bit / bitsPerWord)) _ (bit_lt bit)
  cases value : (bm.bits (bit / bitsPerWord)).getLsbD (bit % bitsPerWord) with
  | false => simp [testBit, reads.mpr value]
  | true => simpa [testBit, value] using reads

/-- Two indices name one bit exactly when word and position agree. -/
theorem split_eq_iff (i j : Nat) :
    i = j ↔ i / bitsPerWord = j / bitsPerWord ∧ i % bitsPerWord = j % bitsPerWord := by
  unfold bitsPerWord
  omega

theorem testBit_setBit (other : Nat) :
    (bm.setBit bit).testBit other = (decide (bit = other) || bm.testBit other) := by
  simp only [testBit_eq, setBit, storeWord, Function.update_apply, split_eq_iff bit other]
  by_cases word : other / bitsPerWord = bit / bitsPerWord
  · simp [word, Bits.getLsbD_or_bit _ _ _ (bit_lt bit)]
  · simp [word, Ne.symm word]

theorem testBit_clearBit (other : Nat) :
    (bm.clearBit bit).testBit other = (!decide (bit = other) && bm.testBit other) := by
  simp only [testBit_eq, clearBit, storeWord, Function.update_apply, split_eq_iff bit other]
  by_cases word : other / bitsPerWord = bit / bitsPerWord
  · simp [word, Bits.getLsbD_and_not_bit _ _ _ (bit_lt bit)]
  · simp [word, Ne.symm word]

@[simp] theorem testBit_setBit_self : (bm.setBit bit).testBit bit = true := by
  simp [testBit_setBit]

@[simp] theorem testBit_clearBit_self : (bm.clearBit bit).testBit bit = false := by
  simp [testBit_clearBit]

/-- Bitmaps with equal headers and equal bits are equal, word for word. -/
theorem ext_testBit {left right : Bitmap} (count : left.wordCount = right.wordCount)
    (flags : left.flags = right.flags)
    (bits : ∀ bit, left.testBit bit = right.testBit bit) : left = right := by
  have words : left.bits = right.bits := by
    funext word
    ext i bound
    have same := bits (word * bitsPerWord + i)
    have quotient : (word * bitsPerWord + i) / bitsPerWord = word := by unfold bitsPerWord; omega
    have remainder : (word * bitsPerWord + i) % bitsPerWord = i := by unfold bitsPerWord; omega
    rw [testBit_eq, testBit_eq, quotient, remainder] at same
    simpa only [BitVec.getLsbD_eq_getElem bound] using same
  cases left
  cases right
  simp_all

/-! ### The scan of `bitmap_first_free` -/

theorem testBit_of_word (word i : Nat) (bound : i < bitsPerWord) :
    bm.testBit (word * bitsPerWord + i) = (bm.bits word).getLsbD i := by
  have quotient : (word * bitsPerWord + i) / bitsPerWord = word := by
    unfold bitsPerWord at *; omega
  have remainder : (word * bitsPerWord + i) % bitsPerWord = i := by
    unfold bitsPerWord at *; omega
  rw [testBit_eq, quotient, remainder]

theorem scanWord_none_iff (word : Nat) :
    bm.scanWord word = none ↔ ∀ i < bitsPerWord, bm.testBit (word * bitsPerWord + i) = true := by
  unfold scanWord
  split
  next full =>
    simp only [true_iff]
    intro i bound
    rw [testBit_of_word bm word i bound, full]
    exact (Bits.eq_allOnes_iff (-1#32)).mp (by decide) i bound
  next =>
    simp only [Option.map_eq_none_iff, List.find?_eq_none, List.mem_range, decide_eq_true_eq]
    refine forall₂_congr fun i bound => ?_
    rw [and_mask_eq_zero _ i bound, testBit_of_word bm word i bound, Bool.not_eq_false]

theorem scanWord_some (word : Nat) (found : BitVec 32) (scanned : bm.scanWord word = some found) :
    ∃ i < bitsPerWord, found = BitVec.ofNat 32 (word * bitsPerWord + i) ∧
      bm.testBit (word * bitsPerWord + i) = false ∧
      ∀ j < i, bm.testBit (word * bitsPerWord + j) = true := by
  unfold scanWord at scanned
  split at scanned
  · cases scanned
  next =>
    obtain ⟨i, hit, rfl⟩ := Option.map_eq_some_iff.mp scanned
    have ⟨clear, bound, below⟩ := List.find?_range_eq_some.mp hit
    rw [List.mem_range] at bound
    refine ⟨i, bound, rfl, ?_, ?_⟩
    · rw [testBit_of_word bm word i bound]
      exact (and_mask_eq_zero _ i bound).mp (of_decide_eq_true clear)
    · intro j less
      have inside : j < bitsPerWord := Nat.lt_trans less bound
      have busy := below j less
      rw [testBit_of_word bm word j inside]
      simpa [and_mask_eq_zero _ j inside] using busy

/-- The clear bits in the words of the bitmap. -/
def clearBits (bm : Bitmap) : Set Nat := {bit | bit < bm.size ∧ bm.testBit bit = false}

theorem mem_clearBits {bm : Bitmap} {bit : Nat} :
    bit ∈ bm.clearBits ↔ bit < bm.size ∧ bm.testBit bit = false := Iff.rfl

/-- No bit is clear exactly when every word is all ones. -/
theorem clearBits_eq_empty_iff :
    bm.clearBits = ∅ ↔ ∀ word < bm.wordCount.toNat, bm.bits word = BitVec.allOnes 32 := by
  simp only [Bits.eq_allOnes_iff]
  constructor
  · intro full word inside i bound
    by_contra clear
    have member : word * bitsPerWord + i ∈ bm.clearBits := by
      refine ⟨by unfold size bitsPerWord; omega, ?_⟩
      rw [testBit_of_word bm word i bound]
      simpa using clear
    rw [full] at member
    exact member
  · intro full
    refine Set.eq_empty_of_forall_notMem ?_
    rintro bit ⟨inside, clear⟩
    rw [testBit_eq, full _ (by unfold size bitsPerWord at *; omega) _ (bit_lt bit)] at clear
    cases clear

/-- What `bitmap_first_free` returns: the least clear bit, or minus one in a full
bitmap. -/
theorem firstFree_cases :
    (∃ bit, IsLeast bm.clearBits bit ∧ bm.firstFree = BitVec.ofNat 32 bit) ∨
    (bm.clearBits = ∅ ∧ bm.firstFree = -1#32) := by
  unfold firstFree
  cases scan : (List.range bm.wordCount.toNat).findSome? bm.scanWord with
  | none =>
    right
    refine ⟨Set.eq_empty_of_forall_notMem ?_, rfl⟩
    rintro bit ⟨inside, clear⟩
    have word : bit / bitsPerWord < bm.wordCount.toNat := by
      unfold size bitsPerWord at *; omega
    have full := List.findSome?_eq_none_iff.mp scan _ (List.mem_range.mpr word)
    have set := (scanWord_none_iff bm _).mp full (bit % bitsPerWord) (Nat.mod_lt _ (by decide))
    rw [Nat.div_add_mod' bit bitsPerWord, clear] at set
    cases set
  | some found =>
    left
    obtain ⟨front, word, back, range, hit, before⟩ := List.findSome?_eq_some_iff.mp scan
    obtain ⟨i, bound, rfl, clear, below⟩ := scanWord_some bm word found hit
    have size := congrArg List.length range
    have here := congrArg (fun words => words[front.length]?) range
    simp only [List.length_append, List.length_cons, List.length_range] at size
    have atWord : front.length = word := by
      simpa [List.getElem?_range (show front.length < bm.wordCount.toNat by omega)] using here
    refine ⟨word * bitsPerWord + i, ⟨⟨?_, clear⟩, ?_⟩, rfl⟩
    · unfold Bitmap.size bitsPerWord at *; omega
    · rintro bit ⟨_, free⟩
      by_contra less
      rcases Nat.lt_or_ge (bit / bitsPerWord) word with earlier | later
      · -- An earlier word was scanned without a result, so it is full.
        have member : bit / bitsPerWord ∈ front := by
          have atBit := congrArg (fun words => words[bit / bitsPerWord]?) range
          rw [List.getElem?_range (by omega), List.getElem?_append_left (by omega)] at atBit
          exact List.mem_of_getElem? atBit.symm
        have set := (scanWord_none_iff bm _).mp (before _ member) (bit % bitsPerWord)
          (Nat.mod_lt _ (by decide))
        rw [Nat.div_add_mod' bit bitsPerWord, free] at set
        cases set
      · -- A lower bit of the same word was looked at before the one that is returned.
        have same : bit = word * bitsPerWord + bit % bitsPerWord := by
          unfold bitsPerWord at *; omega
        have set := below (bit % bitsPerWord) (by unfold bitsPerWord at *; omega)
        rw [← same, free] at set
        cases set

/-- With fewer than `2 ^ 27` words no bit index is mistaken for minus one. -/
theorem firstFree_eq_neg_one_iff (bound : bm.wordCount.toNat < 2 ^ 27) :
    bm.firstFree = -1#32 ↔ bm.clearBits = ∅ := by
  rcases firstFree_cases bm with ⟨bit, least, result⟩ | ⟨full, result⟩
  · have inside : bit < bm.size := least.1.1
    have other : BitVec.ofNat 32 bit ≠ -1#32 := by
      unfold size bitsPerWord at inside
      intro same
      have value := congrArg BitVec.toNat same
      rw [BitVec.toNat_ofNat] at value
      simp at value
      omega
    simp only [result, other, false_iff]
    exact Set.nonempty_iff_ne_empty.mp ⟨bit, least.1⟩
  · simp [result, full]

theorem firstFree_least (bound : bm.wordCount.toNat < 2 ^ 27) (found : bm.firstFree ≠ -1#32) :
    IsLeast bm.clearBits bm.firstFree.toNat := by
  rcases firstFree_cases bm with ⟨bit, least, result⟩ | ⟨_, result⟩
  · have inside : bit < bm.size := least.1.1
    unfold size bitsPerWord at inside
    rw [result, BitVec.toNat_ofNat, Nat.mod_eq_of_lt (by omega)]
    exact least
  · exact absurd result found

end Bitmap

end Treeos
