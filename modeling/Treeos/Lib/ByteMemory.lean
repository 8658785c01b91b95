import Mathlib.Algebra.Group.Nat.Defs
import Mathlib.Data.Set.Basic
import Mathlib.Tactic.Common

/-!
# Byte memory

Memories with 32-bit addresses that wrap around, little-endian words in them and
blocks of consecutive words.
-/
namespace ByteMemory

abbrev Memory := BitVec 32 → BitVec 8

/-- The `n` addresses from `a` on. -/
def Span (a : BitVec 32) (n : Nat) : Set (BitVec 32) := {x | (x - a).toNat < n}

def load32 (m : Memory) (a : BitVec 32) : BitVec 32 := m (a + 3) ++ m (a + 2) ++ m (a + 1) ++ m a

def store8 (m : Memory) (a : BitVec 32) (v : BitVec 8) : Memory :=
  fun x => if x = a then v else m x

def store32 (m : Memory) (a v : BitVec 32) : Memory :=
  fun x => if (x - a).toNat < 4 then (v >>> (8 * (x - a).toNat)).setWidth 8 else m x

/-- The words `ws` are stored from `a` on. -/
def Words (m : Memory) (a : BitVec 32) : List (BitVec 32) → Prop
  | [] => True
  | w :: ws => load32 m a = w ∧ Words m (a + 4) ws

variable {m m' : Memory} {a b x : BitVec 32} {n k : Nat}

theorem mem_span : x ∈ Span a n ↔ (x - a).toNat < n := Iff.rfl

theorem span_mono (le : n ≤ k) : Span a n ⊆ Span a k := fun _ inside =>
  Nat.lt_of_lt_of_le inside le

theorem span_shift (d : BitVec 32) : Span (a + d) n ⊆ Span a (n + d.toNat) := by
  intro x inside
  rw [mem_span] at *
  have shifted : x - a = x - (a + d) + d := by bv_omega
  rw [shifted, BitVec.toNat_add]
  exact Nat.lt_of_le_of_lt (Nat.mod_le _ _) (by omega)

theorem load32_congr (same : ∀ x ∈ Span a 4, m' x = m x) : load32 m' a = load32 m a := by
  have byte (i : BitVec 32) (small : i.toNat < 4) : m' (a + i) = m (a + i) :=
    same (a + i) (by rw [mem_span]; bv_omega)
  have first := byte 0#32 (by decide)
  rw [BitVec.add_zero] at first
  rw [load32, load32, byte 3 (by decide), byte 2 (by decide), byte 1 (by decide), first]

theorem store8_of_ne {v : BitVec 8} (apart : x ≠ a) : store8 m a v x = m x := if_neg apart

theorem store32_of_not_mem {v : BitVec 32} (outside : x ∉ Span a 4) : store32 m a v x = m x :=
  if_neg outside

theorem store32_byte (v i : BitVec 32) (small : i.toNat < 4) :
    store32 m a v (a + i) = (v >>> (8 * i.toNat)).setWidth 8 := by
  have offset : a + i - a = i := by bv_omega
  rw [store32, offset, if_pos small]

@[simp] theorem load32_store32 (v : BitVec 32) : load32 (store32 m a v) a = v := by
  have first := store32_byte (m := m) (a := a) v 0#32 (by decide)
  rw [BitVec.add_zero] at first
  rw [load32, store32_byte v 3 (by decide), store32_byte v 2 (by decide),
    store32_byte v 1 (by decide), first]
  apply BitVec.eq_of_getLsbD_eq
  intro i bound
  -- Each bit lies in one of the four bytes.
  simp only [BitVec.getLsbD_append, BitVec.getLsbD_setWidth, BitVec.getLsbD_ushiftRight]
  rcases Nat.lt_or_ge i 8 with in0 | above
  · simp [in0]
  · rcases Nat.lt_or_ge i 16 with in1 | above
    · simp [show ¬i < 8 by omega, show i - 8 < 8 by omega, show 8 + (i - 8) = i by omega]
    · rcases Nat.lt_or_ge i 24 with in2 | above
      · simp [show ¬i < 8 by omega, show ¬i - 8 < 8 by omega, show i - 8 - 8 < 8 by omega,
          show 16 + (i - 8 - 8) = i by omega]
      · simp [show ¬i < 8 by omega, show ¬i - 8 < 8 by omega, show ¬i - 8 - 8 < 8 by omega,
          show i - 8 - 8 - 8 < 8 by omega, show 24 + (i - 8 - 8 - 8) = i by omega]

theorem Words.congr {ws : List (BitVec 32)} (words : Words m a ws)
    (same : ∀ x ∈ Span a (4 * ws.length), m' x = m x) :
    Words m' a ws := by
  induction ws generalizing a with
  | nil => trivial
  | cons w ws ih =>
    rw [List.length_cons] at same
    obtain ⟨head, tail⟩ := words
    constructor
    · rw [← head]
      exact load32_congr fun x inside => same x (span_mono (by omega) inside)
    · exact ih tail fun x inside => same x (span_shift 4 inside)

theorem Words.load {ws : List (BitVec 32)} (words : Words m a ws) {i : Nat}
    (bound : i < ws.length) : load32 m (a + BitVec.ofNat 32 (4 * i)) = ws[i] := by
  induction ws generalizing a i with
  | nil => simp at bound
  | cons w ws ih =>
    obtain ⟨head, tail⟩ := words
    cases i with
    | zero => simpa using head
    | succ i =>
      have next := ih tail (Nat.lt_of_succ_lt_succ bound)
      rw [BitVec.add_assoc] at next
      rw [Nat.mul_succ, Nat.add_comm, BitVec.ofNat_add]
      exact next

theorem Words.left {ws us : List (BitVec 32)} (words : Words m a (ws ++ us)) : Words m a ws := by
  induction ws generalizing a with
  | nil => trivial
  | cons w ws ih => exact ⟨words.1, ih words.2⟩

/-- A push puts one more word in front of a block. -/
theorem Words.push {ws : List (BitVec 32)} (words : Words m a ws) (v : BitVec 32)
    (fits : 4 * (ws.length + 1) ≤ 2 ^ 32) : Words (store32 m (a - 4) v) (a - 4) (v :: ws) := by
  refine ⟨load32_store32 v, ?_⟩
  rw [BitVec.sub_add_cancel]
  refine words.congr fun x inside => store32_of_not_mem ?_
  rw [mem_span] at *
  bv_omega

end ByteMemory
