import Mathlib.Algebra.GroupWithZero.Nat
import Mathlib.Algebra.Order.BigOperators.Group.List
import Mathlib.Tactic.Common

/-!
# Extents in an arena

Things with a first and a last position, in order and without overlap between `lo` and `hi`,
the gaps between them, and the first gap of a given size.
-/
namespace Extents

variable {α : Type} (start stop : α → Nat)

/-- The extents `xs` lie one behind the other between `lo` and `hi`. -/
def Packed (lo hi : Nat) : List α → Prop
  | [] => lo ≤ hi
  | x :: xs => lo ≤ start x ∧ start x ≤ stop x ∧ Packed (stop x) hi xs

/-- Where `xs` ends. -/
def finish (lo : Nat) : List α → Nat
  | [] => lo
  | x :: xs => finish (stop x) xs

/-- Where the gap in front of `xs` ends. -/
def begin (hi : Nat) : List α → Nat
  | [] => hi
  | x :: _ => start x

/-- The first gap of at least `need`: what lies in front of it, and what behind. -/
def firstFit (need lo hi : Nat) : List α → Option (List α × List α)
  | [] => if need ≤ hi - lo then some ([], []) else none
  | x :: xs => if need ≤ start x - lo then some ([], x :: xs)
    else (firstFit need (stop x) hi xs).map fun (front, back) => (x :: front, back)

variable {start stop} {lo hi need : Nat} {x y : α} {xs ys : List α}

@[simp] theorem packed_nil : Packed start stop lo hi [] ↔ lo ≤ hi := Iff.rfl

@[simp] theorem packed_cons : Packed start stop lo hi (x :: xs) ↔
    lo ≤ start x ∧ start x ≤ stop x ∧ Packed start stop (stop x) hi xs := Iff.rfl

@[simp] theorem finish_nil : finish stop lo [] = lo := rfl
@[simp] theorem finish_cons : finish stop lo (x :: xs) = finish stop (stop x) xs := rfl
@[simp] theorem begin_nil : begin start hi [] = hi := rfl
@[simp] theorem begin_cons : begin start hi (x :: xs) = start x := rfl

@[simp] theorem finish_append : finish stop lo (xs ++ ys) = finish stop (finish stop lo xs) ys := by
  induction xs generalizing lo with
  | nil => rfl
  | cons x xs ih => exact ih

theorem Packed.le (packed : Packed start stop lo hi xs) : lo ≤ hi := by
  induction xs generalizing lo with
  | nil => exact packed
  | cons x xs ih =>
    obtain ⟨low, order, rest⟩ := packed
    have high := ih rest
    omega

theorem Packed.begin_le (packed : Packed start stop lo hi xs) :
    lo ≤ begin start hi xs ∧ begin start hi xs ≤ hi := by
  cases xs with
  | nil => exact ⟨packed, Nat.le_refl hi⟩
  | cons x xs =>
    obtain ⟨low, order, rest⟩ := packed
    have high := rest.le
    exact ⟨low, by rw [begin_cons]; omega⟩

/-- The two parts of a list lie on both sides of where the first one ends. -/
theorem packed_append : Packed start stop lo hi (xs ++ ys) ↔
    Packed start stop lo (finish stop lo xs) xs ∧
      Packed start stop (finish stop lo xs) hi ys := by
  induction xs generalizing lo with
  | nil => simp
  | cons x xs ih => simp [ih, and_assoc]

theorem Packed.mono {lo' hi' : Nat} (packed : Packed start stop lo hi xs) (low : lo' ≤ lo)
    (high : hi ≤ hi') : Packed start stop lo' hi' xs := by
  induction xs generalizing lo lo' with
  | nil => exact Nat.le_trans low (Nat.le_trans packed high)
  | cons x xs ih =>
    obtain ⟨first, order, rest⟩ := packed
    exact ⟨Nat.le_trans low first, order, ih rest (Nat.le_refl _)⟩

/-- An extent fits between two lists if it begins behind the one and ends in front of the
other. -/
theorem Packed.insert (packed : Packed start stop lo hi (xs ++ ys))
    (low : finish stop lo xs ≤ start x) (order : start x ≤ stop x)
    (high : stop x ≤ begin start hi ys) : Packed start stop lo hi (xs ++ x :: ys) := by
  rw [packed_append] at packed ⊢
  obtain ⟨front, back⟩ := packed
  refine ⟨front, low, order, ?_⟩
  cases ys with
  | nil => exact high
  | cons y ys => exact ⟨high, back.2⟩

theorem Packed.erase (packed : Packed start stop lo hi (xs ++ x :: ys)) :
    Packed start stop lo hi (xs ++ ys) := by
  rw [packed_append] at packed ⊢
  obtain ⟨front, low, order, back⟩ := packed
  exact ⟨front, back.mono (by omega) (Nat.le_refl hi)⟩

/-- What lies on both sides of an extent. -/
theorem Packed.around (packed : Packed start stop lo hi (xs ++ x :: ys)) :
    (∀ y ∈ xs, stop y ≤ start x) ∧ ∀ y ∈ ys, stop x ≤ start y := by
  induction xs generalizing lo with
  | nil =>
    obtain ⟨low, order, rest⟩ := packed
    refine ⟨nofun, ?_⟩
    clear low order
    generalize stop x = lo at rest
    induction ys generalizing lo with
    | nil => nofun
    | cons z ys ih =>
      obtain ⟨first, order, rest⟩ := rest
      rintro y (_ | ⟨_, member⟩)
      · exact first
      · have behind := ih _ rest y member
        omega
  | cons z xs ih =>
    obtain ⟨low, order, rest⟩ := packed
    obtain ⟨front, back⟩ := ih rest
    refine ⟨?_, back⟩
    rintro y (_ | ⟨_, member⟩)
    · obtain ⟨before, here⟩ := packed_append.mp rest
      have first := before.le
      have second := here.1
      omega
    · exact front y member

theorem Packed.bounds (packed : Packed start stop lo hi xs) (member : x ∈ xs) :
    lo ≤ start x ∧ start x ≤ stop x ∧ stop x ≤ hi := by
  obtain ⟨front, back, rfl⟩ := List.append_of_mem member
  obtain ⟨before, here⟩ := packed_append.mp packed
  have low := before.le
  obtain ⟨first, order, rest⟩ := here
  have high := rest.le
  omega

theorem Packed.pairwise (packed : Packed start stop lo hi xs) :
    xs.Pairwise fun x y => stop x ≤ start y := by
  induction xs generalizing lo with
  | nil => exact List.Pairwise.nil
  | cons x xs ih =>
    have whole : Packed start stop lo hi ([] ++ x :: xs) := packed
    exact List.Pairwise.cons whole.around.2 (ih packed.2.2)

/-- What the extents take and the widths of the gaps make up the arena. -/
theorem Packed.total_le (packed : Packed start stop lo hi xs) :
    lo + (xs.map fun x => stop x - start x).sum ≤ hi := by
  induction xs generalizing lo with
  | nil => simpa using packed
  | cons x xs ih =>
    obtain ⟨low, order, rest⟩ := packed
    have total := ih rest
    simp only [List.map_cons, List.sum_cons]
    omega

/-! ### The first gap -/

variable {front back : List α}

theorem firstFit_append (found : firstFit start stop need lo hi xs = some (front, back)) :
    xs = front ++ back := by
  induction xs generalizing lo front with
  | nil =>
    rw [firstFit] at found
    split at found <;> simp_all
  | cons x xs ih =>
    rw [firstFit] at found
    split at found
    next => simp_all
    next =>
      obtain ⟨⟨before, behind⟩, rest, same⟩ := Option.map_eq_some_iff.mp found
      cases same
      rw [List.cons_append, ih rest]

/-- The gap that is found is large enough. -/
theorem firstFit_room (found : firstFit start stop need lo hi xs = some (front, back)) :
    need ≤ begin start hi back - finish stop lo front := by
  induction xs generalizing lo front with
  | nil =>
    rw [firstFit] at found
    split at found
    next room =>
      cases found
      exact room
    next => cases found
  | cons x xs ih =>
    rw [firstFit] at found
    split at found
    next room =>
      cases found
      exact room
    next =>
      obtain ⟨⟨before, behind⟩, rest, same⟩ := Option.map_eq_some_iff.mp found
      cases same
      rw [finish_cons]
      exact ih rest

/-- There is no gap of the size exactly when every gap is smaller. -/
theorem firstFit_none : firstFit start stop need lo hi xs = none ↔
    ∀ front back, xs = front ++ back → begin start hi back - finish stop lo front < need := by
  induction xs generalizing lo with
  | nil =>
    rw [firstFit]
    constructor
    · intro none front back split
      obtain ⟨rfl, rfl⟩ := List.append_eq_nil_iff.mp split.symm
      simp only [begin_nil, finish_nil]
      split at none
      next => cases none
      next full => omega
    · intro small
      have here := small [] [] rfl
      simp only [begin_nil, finish_nil] at here
      rw [if_neg (by omega)]
  | cons x xs ih =>
    rw [firstFit]
    constructor
    · intro none front back split
      split at none
      next => cases none
      next full =>
        cases front with
        | nil =>
          cases split
          exact Nat.lt_of_not_le full
        | cons y front =>
          cases split
          exact ih.mp (Option.map_eq_none_iff.mp none) front back rfl
    · intro small
      have here := small [] (x :: xs) rfl
      simp only [begin_cons, finish_nil] at here
      rw [if_neg (by omega), Option.map_eq_none_iff, ih]
      intro front back split
      exact small (x :: front) back (by rw [split]; rfl)

/-- When no gap is large enough, every place for `need` meets one of the extents. -/
theorem firstFit_none_meets (none : firstFit start stop need lo hi xs = none) {a : Nat}
    (low : lo ≤ a) (high : a + need ≤ hi) : ∃ x ∈ xs, start x < a + need ∧ a < stop x := by
  induction xs generalizing lo with
  | nil =>
    rw [firstFit] at none
    split at none
    · cases none
    · omega
  | cons x xs ih =>
    rw [firstFit] at none
    split at none
    · cases none
    · by_cases inside : a < stop x
      · exact ⟨x, List.mem_cons_self, by omega, inside⟩
      · obtain ⟨y, member, meets⟩ := ih (Option.map_eq_none_iff.mp none) (by omega)
        exact ⟨y, List.mem_cons_of_mem _ member, meets⟩

end Extents
