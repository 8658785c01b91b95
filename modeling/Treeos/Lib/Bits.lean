import Mathlib.Data.Nat.Bitwise
import Mathlib.Tactic.Common

/-!
# Single bits of machine words

What masking a word with `1 << i`, or-ing it in and and-ing its complement do to
the other bits.
-/
namespace Bits

variable {w : Nat}

theorem getLsbD_one_shiftLeft (i j : Nat) (bound : i < w) :
    (1#w <<< i).getLsbD j = decide (i = j) := by
  rw [show 1#w <<< i = BitVec.twoPow w i from rfl, BitVec.getLsbD_twoPow]
  simp [bound]

/-- The test `word & (1 << i)` reads bit `i`. -/
theorem and_one_shiftLeft_eq_zero (word : BitVec w) (i : Nat) (bound : i < w) :
    word &&& (1#w <<< i) = 0#w ↔ word.getLsbD i = false := by
  rw [show 1#w <<< i = BitVec.twoPow w i from rfl, BitVec.and_twoPow]
  cases bit : word.getLsbD i with
  | false => simp
  | true =>
    have set := getLsbD_one_shiftLeft (w := w) i i bound
    simp only [↓reduceIte, Bool.true_eq_false, iff_false]
    intro zero
    rw [show 1#w <<< i = BitVec.twoPow w i from rfl, zero] at set
    simp at set

theorem getLsbD_or_bit (word : BitVec w) (i j : Nat) (bound : i < w) :
    (word ||| 1#w <<< i).getLsbD j = (decide (i = j) || word.getLsbD j) := by
  rw [BitVec.getLsbD_or, getLsbD_one_shiftLeft i j bound, Bool.or_comm]

theorem getLsbD_and_not_bit (word : BitVec w) (i j : Nat) (bound : i < w) :
    (word &&& ~~~(1#w <<< i)).getLsbD j = (!decide (i = j) && word.getLsbD j) := by
  rw [BitVec.getLsbD_and, BitVec.getLsbD_not, getLsbD_one_shiftLeft i j bound]
  by_cases inside : j < w
  · simp [inside, Bool.and_comm]
  · simp [inside, BitVec.getLsbD_of_ge word j (by omega)]

/-- A word is all ones exactly when none of its bits is clear. -/
theorem eq_allOnes_iff (word : BitVec w) :
    word = BitVec.allOnes w ↔ ∀ i < w, word.getLsbD i = true := by
  constructor
  · rintro rfl i bound
    simp [bound]
  · intro full
    ext i bound
    rw [BitVec.getElem_allOnes, ← BitVec.getLsbD_eq_getElem]
    exact full i bound

end Bits
