import Mathlib.Data.List.GetD
import Mathlib.Tactic.Common

/-!
# Bounded buffers

Objects of a fixed number of bytes. An access outside of an object has no result. What is
written in one piece is a list, so a series of stores is one longer list.
-/
namespace Buffer

/-- An object and its bytes; those from `size` on do not exist. -/
@[ext] structure Object where
  size : Nat
  bytes : Nat → BitVec 8

namespace Object

variable (b : Object)

def load (p : Nat) : Option (BitVec 8) := if p < b.size then some (b.bytes p) else none

/-- The bytes `ws` from `p` on -/
def put (p : Nat) (ws : List (BitVec 8)) : Object where
  size := b.size
  bytes := fun i => if p ≤ i ∧ i < p + ws.length then ws.getD (i - p) 0 else b.bytes i

def store (p : Nat) (w : BitVec 8) : Option Object :=
  if p < b.size then some (b.put p [w]) else none

/-- The object that a pointer into `b` sees: its bytes from `p` on. -/
def tail (p : Nat) : Object where
  size := b.size - p
  bytes := fun i => b.bytes (p + i)

def setTail (p : Nat) (rest : Object) : Object where
  size := b.size
  bytes := fun i => if i < p then b.bytes i else rest.bytes (i - p)

/-- A string from `p` on: bytes other than NUL, then NUL. -/
def Holds (b : Object) (p : Nat) : List (BitVec 8) → Prop
  | [] => b.load p = some 0
  | c :: cs => b.load p = some c ∧ c ≠ 0 ∧ b.Holds (p + 1) cs

instance decidableHolds : ∀ (p : Nat) (cs : List (BitVec 8)), Decidable (b.Holds p cs)
  | p, [] => inferInstanceAs (Decidable (b.load p = some 0))
  | p, c :: cs =>
    have := decidableHolds (p + 1) cs
    inferInstanceAs (Decidable (b.load p = some c ∧ c ≠ 0 ∧ b.Holds (p + 1) cs))

variable {b} {p q : Nat} {w : BitVec 8} {ws us : List (BitVec 8)}

theorem load_of_lt (inside : p < b.size) : b.load p = some (b.bytes p) := if_pos inside

theorem store_of_lt (inside : p < b.size) : b.store p w = some (b.put p [w]) := if_pos inside

@[simp] theorem size_put : (b.put p ws).size = b.size := rfl

theorem bytes_put (bound : q < ws.length) : (b.put p ws).bytes (p + q) = ws[q] := by
  simp only [put]
  rw [if_pos (by omega), Nat.add_sub_cancel_left, List.getD_eq_getElem?_getD,
    List.getElem?_eq_getElem bound, Option.getD_some]

theorem bytes_put_of_not (outside : q < p ∨ p + ws.length ≤ q) :
    (b.put p ws).bytes q = b.bytes q := if_neg (by omega)

/-- Two pieces, the second one behind the first. -/
theorem put_append : (b.put p ws).put (p + ws.length) us = b.put p (ws ++ us) := by
  refine Object.ext rfl (funext fun i => ?_)
  simp only [put, List.length_append]
  by_cases second : p + ws.length ≤ i ∧ i < p + ws.length + us.length
  · rw [if_pos second, if_pos (by omega), List.getD_append_right _ _ _ _ (by omega)]
    congr 1
    omega
  · rw [if_neg second]
    by_cases first : p ≤ i ∧ i < p + ws.length
    · rw [if_pos first, if_pos (by omega), List.getD_append _ _ _ _ (by omega)]
    · rw [if_neg first, if_neg (by omega)]

theorem put_cons : (b.put p [w]).put (p + 1) us = b.put p (w :: us) := put_append

/-- The later piece replaces the one before. -/
theorem put_put (covers : ws.length ≤ us.length) : (b.put p ws).put p us = b.put p us := by
  refine Object.ext rfl (funext fun i => ?_)
  simp only [put]
  by_cases inside : p ≤ i ∧ i < p + us.length
  · rw [if_pos inside, if_pos inside]
  · rw [if_neg inside, if_neg inside, if_neg (by omega)]

/-- A byte of a piece is replaced. -/
theorem put_set (bound : q < ws.length) : (b.put p ws).put (p + q) [w] = b.put p (ws.set q w) := by
  refine Object.ext rfl (funext fun i => ?_)
  simp only [put, List.length_set, List.length_singleton]
  by_cases here : i = p + q
  · rw [if_pos (by omega), if_pos (by omega), here, Nat.sub_self, Nat.add_sub_cancel_left,
      List.getD_eq_getElem?_getD, List.getD_eq_getElem?_getD, List.getElem?_set_self bound]
    rfl
  · rw [if_neg (by omega)]
    by_cases inside : p ≤ i ∧ i < p + ws.length
    · rw [if_pos inside, if_pos inside, List.getD_eq_getElem?_getD, List.getD_eq_getElem?_getD,
        List.getElem?_set_ne (by omega)]
    · rw [if_neg inside, if_neg inside]

/-- A piece behind another one, over the NUL that ends it. -/
theorem put_over (some : us ≠ []) :
    (b.put p (ws ++ [w])).put (p + ws.length) us = b.put p (ws ++ us) := by
  have long := List.length_pos_iff.mpr some
  rw [← put_append, put_put (by simp only [List.length_singleton]; omega), put_append]

/-- What is written through a pointer into `b`. -/
theorem setTail_put : b.setTail p ((b.tail p).put 0 ws) = b.put p ws := by
  refine Object.ext rfl (funext fun i => ?_)
  simp only [setTail, tail, put]
  by_cases front : i < p
  · rw [if_pos front, if_neg (by omega)]
  · rw [if_neg front]
    by_cases inside : i < p + ws.length
    · rw [if_pos (by omega), if_pos (by omega), Nat.sub_zero]
    · rw [if_neg (by omega), if_neg (by omega), Nat.add_sub_cancel' (Nat.le_of_not_lt front)]

theorem Holds.lt_size {cs : List (BitVec 8)} (holds : b.Holds p cs) : p + cs.length < b.size := by
  induction cs generalizing p with
  | nil =>
    by_contra outside
    rw [List.length_nil, Nat.add_zero] at outside
    rw [Holds, load, if_neg outside] at holds
    cases holds
  | cons c cs ih =>
    have rest := ih holds.2.2
    rw [List.length_cons]
    omega

theorem Holds.length_lt {cs : List (BitVec 8)} (holds : b.Holds 0 cs) : cs.length < b.size := by
  have fits := holds.lt_size
  rwa [Nat.zero_add] at fits

theorem Holds.text_ne_zero {cs : List (BitVec 8)} (holds : b.Holds p cs) : ∀ c ∈ cs, c ≠ 0 := by
  induction cs generalizing p with
  | nil => simp
  | cons c cs ih => exact List.forall_mem_cons.mpr ⟨holds.2.1, ih holds.2.2⟩

theorem holds_of_bytes {cs : List (BitVec 8)} (inside : p + cs.length < b.size)
    (text : ∀ c ∈ cs, c ≠ 0) (same : ∀ i ≤ cs.length, b.bytes (p + i) = cs.getD i 0) :
    b.Holds p cs := by
  induction cs generalizing p with
  | nil =>
    rw [Holds, load_of_lt (by simpa using inside)]
    exact congrArg some (same 0 (Nat.le_refl 0))
  | cons c cs ih =>
    rw [List.length_cons] at inside same
    rw [List.forall_mem_cons] at text
    refine ⟨?_, text.1, ih (by omega) text.2 fun i bound => ?_⟩
    · rw [load_of_lt (by omega)]
      exact congrArg some (same 0 (Nat.zero_le _))
    · rw [Nat.add_assoc, Nat.add_comm 1]
      exact same (i + 1) (Nat.succ_le_succ bound)

/-- What was written as a string is one. -/
theorem holds_put (inside : p + ws.length < b.size) (text : ∀ c ∈ ws, c ≠ 0) :
    (b.put p (ws ++ [0])).Holds p ws := by
  induction ws generalizing b p with
  | nil =>
    rw [Holds, load_of_lt (by simpa using inside)]
    exact congrArg some (bytes_put (q := 0) (by simp))
  | cons c ws ih =>
    rw [List.length_cons] at inside
    refine ⟨?_, text c List.mem_cons_self, ?_⟩
    · rw [load_of_lt (by rw [size_put]; omega)]
      exact congrArg some (bytes_put (q := 0) (by simp))
    · rw [List.cons_append, ← put_cons]
      exact ih (by rw [size_put]; omega) fun c member => text c (List.mem_cons_of_mem _ member)

/-- A string grows at its end, over its NUL. -/
theorem Holds.append {cs : List (BitVec 8)} (holds : b.Holds p cs) (text : ∀ c ∈ ws, c ≠ 0)
    (inside : p + cs.length + ws.length < b.size) :
    (b.put (p + cs.length) (ws ++ [0])).Holds p (cs ++ ws) := by
  induction cs generalizing p with
  | nil => exact holds_put inside text
  | cons c cs ih =>
    obtain ⟨first, char, rest⟩ := holds
    rw [List.length_cons] at inside ⊢
    have place : p + (cs.length + 1) = p + 1 + cs.length := by omega
    have behind := ih rest (by omega)
    rw [place]
    refine ⟨?_, char, behind⟩
    rw [load, size_put, bytes_put_of_not (.inl (by omega))]
    exact first

end Object

end Buffer
