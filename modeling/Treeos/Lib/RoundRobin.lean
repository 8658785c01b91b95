import Treeos.Lib.Run
import Mathlib.Data.List.Cycle
import Mathlib.Data.List.Rotate

/-!
# Round robin

Turns pass along a list without repetition and wrap around at its end.
-/
namespace RoundRobin

variable {α : Type} [DecidableEq α] {xs : List α}

/-- One turn passes from an element of the list to the next one in the cycle. -/
inductive Turn (xs : List α) : α → α → α → Prop
  | pass {x : α} (member : x ∈ xs) : Turn xs x (xs.next x member) (xs.next x member)

/-- After `ts.length` turns from position `i` the turns taken are the cycle read from
the position after `i` on. -/
theorem turns_eq (distinct : xs.Nodup) {i : Nat} (bound : i < xs.length) {ts : List α} {y : α}
    (run : Run.From (Turn xs) xs[i] ts y) :
    (∀ k (inside : k < ts.length), xs[(i + 1 + k) % xs.length]? = some ts[k]) ∧
      xs[(i + ts.length) % xs.length]? = some y := by
  induction run with
  | nil => simp [Nat.mod_eq_of_lt bound, bound]
  | @snoc ts x z target before last ih =>
    obtain ⟨earlier, here⟩ := ih
    cases last with
    | pass member =>
      have position : (i + ts.length) % xs.length < xs.length := Nat.mod_lt _ (by omega)
      have current : xs[(i + ts.length) % xs.length] = x := by
        simpa [List.getElem?_eq_getElem position] using here
      have next : xs[(i + 1 + ts.length) % xs.length]? = some (xs.next x member) := by
        have moved := List.next_getElem xs distinct _ position
        have wraps : ((i + ts.length) % xs.length + 1) % xs.length = (i + 1 + ts.length) % xs.length := by
          rw [Nat.mod_add_mod, Nat.add_right_comm]
        simp only [current, wraps] at moved
        rw [moved, List.getElem?_eq_getElem]
      refine ⟨fun k inside => ?_, ?_⟩
      · rcases Nat.lt_or_ge k ts.length with old | new
        · rw [List.getElem_append_left old]
          exact earlier k old
        · rw [List.length_append, List.length_singleton] at inside
          obtain rfl : k = ts.length := by omega
          simpa using next
      · rw [List.length_append, List.length_singleton, ← Nat.add_assoc, Nat.add_right_comm]
        exact next

/-- As many turns as there are elements give each element one turn and come back to
the first. -/
theorem full_round (distinct : xs.Nodup) {x y : α} (member : x ∈ xs) {ts : List α}
    (run : Run.From (Turn xs) x ts y) (round : ts.length = xs.length) : ts.Perm xs ∧ y = x := by
  obtain ⟨i, bound, rfl⟩ := List.getElem_of_mem member
  have ⟨turns, last⟩ := turns_eq distinct bound run
  constructor
  · have rotated : ts = xs.rotate (i + 1) := by
      apply List.ext_getElem
      · rw [round, List.length_rotate]
      · intro k inside _
        have here := turns k inside
        rw [List.getElem_rotate, ← Option.some_inj, ← here, Nat.add_comm k,
          List.getElem?_eq_getElem]
    exact rotated ▸ List.rotate_perm xs (i + 1)
  · rw [round, Nat.add_mod_right, Nat.mod_eq_of_lt bound, List.getElem?_eq_getElem bound] at last
    exact (Option.some.inj last).symm

end RoundRobin
