import Treeos.Lib.ByteMemory

/-!
# Blocks of memory

`memmove` and `memcmp` of `klibc/string`. One of the two loops of `memmove` never runs, and
`memcmp` compares its arguments the other way round.
-/
namespace Treeos

open ByteMemory

/-! ### `memmove` -/

-- `for (size_t i = 0; i < size; i++)`
def moveForward (dest src : BitVec 32) (size : Nat) (m : Memory) : Memory :=
  (List.range size).foldl
    (fun m i => store8 m (dest + BitVec.ofNat 32 i) (m (src + BitVec.ofNat 32 i))) m

-- `for (size_t i = 0; i != 0; i++)`, from any `i` on
def moveBackward (dest src i : BitVec 32) (m : Memory) : Memory :=
  if i ≠ 0 then moveBackward dest src (i + 1) (store8 m (dest + (i - 1)) (m (src + (i - 1))))
  else m
termination_by (-i).toNat
decreasing_by bv_omega

/-- `memmove` -/
def memmove (m : Memory) (dest src size : BitVec 32) : BitVec 32 × Memory :=
  if dest < src then (dest, moveForward dest src size.toNat m)
  else (dest, moveBackward dest src 0 m)

/-- The destination holds what was at the source before, and nothing else has changed. -/
structure Moved (m m' : Memory) (dest src : BitVec 32) (size : Nat) : Prop where
  bytes : ∀ i < size, m' (dest + BitVec.ofNat 32 i) = m (src + BitVec.ofNat 32 i)
  frame : ∀ x ∉ Span dest size, m' x = m x

variable {m m' : Memory} {dest src a b : BitVec 32} {i n size : Nat}

theorem mem_span_add (bound : i < 2 ^ 32) : dest + BitVec.ofNat 32 i ∈ Span dest size ↔ i < size := by
  have offset : dest + BitVec.ofNat 32 i - dest = BitVec.ofNat 32 i := by bv_omega
  rw [mem_span, offset, BitVec.toNat_ofNat, Nat.mod_eq_of_lt bound]

theorem moveForward_succ (dest src : BitVec 32) (n : Nat) (m : Memory) :
    moveForward dest src (n + 1) m = store8 (moveForward dest src n m) (dest + BitVec.ofNat 32 n)
      (moveForward dest src n m (src + BitVec.ofNat 32 n)) := by
  simp [moveForward, List.range_succ]

/-- Towards a lower address, the byte that a round reads has not been written yet. -/
theorem moveForward_moved (lower : dest < src) (fits : src.toNat + n ≤ 2 ^ 32) :
    Moved m (moveForward dest src n m) dest src n := by
  have below : dest.toNat < src.toNat := lower
  induction n with
  | zero =>
    refine ⟨?_, ?_⟩
    · intro i bound
      exact absurd bound (Nat.not_lt_zero i)
    · intro x _
      rfl
  | succ n ih =>
    have before := ih (by omega)
    have bound : n < 2 ^ 32 := by omega
    have unread : src + BitVec.ofNat 32 n ∉ Span dest n := by
      intro written
      rw [mem_span] at written
      bv_omega
    rw [moveForward_succ, before.frame _ unread]
    refine ⟨?_, ?_⟩
    · intro i inside
      by_cases last : i = n
      · simp [last, store8]
      · have apart : dest + BitVec.ofNat 32 i ≠ dest + BitVec.ofNat 32 n := by bv_omega
        rw [store8_of_ne apart]
        exact before.bytes i (by omega)
    · intro x outside
      have apart : x ≠ dest + BitVec.ofNat 32 n := by
        intro here
        exact outside (here ▸ (mem_span_add bound).mpr (Nat.lt_succ_self n))
      rw [store8_of_ne apart]
      exact before.frame x fun inside => outside (span_mono (Nat.le_succ n) inside)

/-- The loop for a higher destination ends before its first round. -/
theorem moveBackward_zero (dest src : BitVec 32) (m : Memory) : moveBackward dest src 0 m = m := by
  rw [moveBackward]
  simp

/-- `memmove` moves the bytes exactly when the destination is lower or holds them already. -/
theorem memmove_moved_iff (m : Memory) (dest src size : BitVec 32)
    (srcFits : src.toNat + size.toNat ≤ 2 ^ 32) :
    Moved m (memmove m dest src size).2 dest src size.toNat ↔
      dest < src ∨ ∀ i < size.toNat,
        m (dest + BitVec.ofNat 32 i) = m (src + BitVec.ofNat 32 i) := by
  unfold memmove
  split
  next lower => simp [lower, moveForward_moved lower srcFits]
  next higher =>
    simp only [moveBackward_zero, higher, false_or]
    constructor
    · intro moved
      exact moved.bytes
    · intro same
      exact ⟨same, fun x _ => rfl⟩

/-- Two bytes from 2 on are moved to 1. -/
theorem memmove_down : Moved (BitVec.setWidth 8) (memmove (BitVec.setWidth 8) 1 2 2).2 1 2 2 :=
  (memmove_moved_iff (BitVec.setWidth 8) 1 2 2 (by decide)).mpr (.inl (by decide))

/-- The byte at 1 is not moved to 2. -/
theorem memmove_up : ¬∀ (m : Memory) (dest src size : BitVec 32),
    dest.toNat + size.toNat ≤ 2 ^ 32 → src.toNat + size.toNat ≤ 2 ^ 32 →
    Moved m (memmove m dest src size).2 dest src size.toNat := by
  intro all
  have byte := (all (BitVec.setWidth 8) 2 1 1 (by decide) (by decide)).bytes 0 (by decide)
  have unmoved : (memmove (BitVec.setWidth 8) 2 1 1).2 = BitVec.setWidth 8 :=
    moveBackward_zero 2 1 _
  rw [unmoved] at byte
  exact absurd byte (by decide)

/-! ### `memcmp` -/

def memcmpLoop (m : Memory) : BitVec 32 → BitVec 32 → Nat → Int
  | _, _, 0 => 0
  | ptr1c, ptr2c, num + 1 =>
    if m ptr1c ≠ m ptr2c then Int.ofNat (m ptr1c).toNat - Int.ofNat (m ptr2c).toNat
    else memcmpLoop m (ptr1c + 1) (ptr2c + 1) num

/-- `memcmp`, whose `ptr1c` starts at `ptr2` and the other one at `ptr1` -/
def memcmp (m : Memory) (ptr1 ptr2 num : BitVec 32) : Int := memcmpLoop m ptr2 ptr1 num.toNat

/-- The first `n` bytes at an address -/
def bytesAt (m : Memory) : BitVec 32 → Nat → List (BitVec 8)
  | _, 0 => []
  | a, n + 1 => m a :: bytesAt m (a + 1) n

/-- The sign of `order` is that of the comparison of `xs` with `ys`, byte after byte. -/
structure Compares (order : Int) (xs ys : List (BitVec 8)) : Prop where
  zero : order = 0 ↔ xs = ys
  neg : order < 0 ↔ xs < ys
  pos : 0 < order ↔ ys < xs

theorem memcmpLoop_compares (m : Memory) (a b : BitVec 32) (n : Nat) :
    Compares (memcmpLoop m a b n) (bytesAt m a n) (bytesAt m b n) := by
  induction n generalizing a b with
  | zero => constructor <;> simp [memcmpLoop, bytesAt]
  | succ n ih =>
    simp only [memcmpLoop, bytesAt]
    by_cases same : m a = m b
    · obtain ⟨zero, neg, pos⟩ := ih (a + 1#32) (b + 1#32)
      constructor
      · simp [same, zero]
      · simp [same, neg]
      · simp [same, pos]
    · -- the first difference decides
      have differ : (m a).toNat ≠ (m b).toNat := fun equal => same (BitVec.eq_of_toNat_eq equal)
      constructor
      · rw [if_pos same, Int.ofNat_eq_natCast, Int.ofNat_eq_natCast]
        exact iff_of_false (by omega) fun equal => same (List.cons.inj equal).1
      · rw [if_pos same]
        simp only [List.cons_lt_cons_iff, same, false_and, or_false, BitVec.lt_def,
          Int.ofNat_eq_natCast]
        omega
      · rw [if_pos same]
        simp only [List.cons_lt_cons_iff, Ne.symm same, false_and, or_false, BitVec.lt_def,
          Int.ofNat_eq_natCast]
        omega

/-- The other way round the sign is the opposite one. -/
theorem memcmpLoop_swap (m : Memory) (a b : BitVec 32) (n : Nat) :
    memcmpLoop m b a n = -memcmpLoop m a b n := by
  induction n generalizing a b with
  | zero => rfl
  | succ n ih =>
    simp only [memcmpLoop]
    by_cases same : m a = m b
    · simp [same, ih (a + 1#32)]
    · rw [if_pos (Ne.symm same), if_pos same]
      omega

theorem Compares.le_iff {order : Int} {xs ys : List (BitVec 8)} (compares : Compares order xs ys) :
    order ≤ 0 ↔ xs ≤ ys := by
  rw [← Int.not_lt, compares.pos]
  exact List.not_lt

/-- `memcmp` answers as the order of the bytes says exactly when they agree. Otherwise it gives
the opposite sign, which is an order as well. -/
theorem memcmp_compares_iff (m : Memory) (ptr1 ptr2 num : BitVec 32) :
    (Compares (memcmp m ptr1 ptr2 num) (bytesAt m ptr1 num.toNat) (bytesAt m ptr2 num.toNat) ↔
      bytesAt m ptr1 num.toNat = bytesAt m ptr2 num.toNat) ∧
    memcmp m ptr2 ptr1 num = -memcmp m ptr1 ptr2 num ∧
    ∀ ptr3, memcmp m ptr1 ptr2 num ≤ 0 → memcmp m ptr2 ptr3 num ≤ 0 →
      memcmp m ptr1 ptr3 num ≤ 0 := by
  have compares (a b : BitVec 32) : Compares (memcmp m a b num) (bytesAt m b num.toNat)
      (bytesAt m a num.toNat) := memcmpLoop_compares m b a num.toNat
  obtain ⟨zero, neg, pos⟩ := compares ptr1 ptr2
  refine ⟨?_, memcmpLoop_swap m ptr2 ptr1 num.toNat, ?_⟩
  · constructor
    · intro right
      -- a sign on one side would be the opposite sign on the other side
      rcases Int.lt_trichotomy (memcmp m ptr1 ptr2 num) 0 with below | equal | above
      · exact absurd (right.neg.mp below) (List.lt_asymm (neg.mp below))
      · exact right.zero.mp equal
      · exact absurd (right.pos.mp above) (List.lt_asymm (pos.mp above))
    · intro same
      rw [same] at zero neg pos ⊢
      exact ⟨zero, neg, pos⟩
  · intro ptr3 first second
    rw [(compares _ _).le_iff] at *
    exact List.le_trans second first

/-- Two bytes that differ. -/
theorem memcmp_reversed : ¬∀ (m : Memory) (ptr1 ptr2 num : BitVec 32),
    Compares (memcmp m ptr1 ptr2 num) (bytesAt m ptr1 num.toNat) (bytesAt m ptr2 num.toNat) := by
  intro all
  have below := (all (BitVec.setWidth 8) 1 2 1).neg
  exact absurd (below.mpr (by decide)) (by decide)

end Treeos
