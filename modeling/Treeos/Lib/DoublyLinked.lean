import Mathlib.Data.List.Basic

/-!
# Doubly linked lists

`cell prev next x` says that the node `x` is in memory with these two links. A segment is a
list of nodes in which every node is linked to its neighbours, and the outer two to `prev`
and `next`. Two edits of a list concern the nodes on both sides of a seam only.
-/
namespace DoublyLinked

variable {α ρ : Type} (addr : α → ρ)

/-- What a link to the front of `xs` holds, in front of `next`. -/
def first (next : ρ) : List α → ρ
  | [] => next
  | x :: _ => addr x

/-- What a link to the end of `xs` holds, behind `prev`. -/
def last (prev : ρ) : List α → ρ
  | [] => prev
  | x :: xs => last (addr x) xs

/-- The nodes `xs` are linked to each other, and to `prev` and `next`. -/
def Seg (cell : ρ → ρ → α → Prop) (prev next : ρ) : List α → Prop
  | [] => True
  | x :: xs => cell prev (first addr next xs) x ∧ Seg cell (addr x) next xs

variable {addr} {cell cell' : ρ → ρ → α → Prop} {prev next : ρ} {x : α} {xs ys : List α}

@[simp] theorem first_nil : first addr next [] = next := rfl
@[simp] theorem first_cons : first addr next (x :: xs) = addr x := rfl
@[simp] theorem last_nil : last addr prev [] = prev := rfl
@[simp] theorem last_cons : last addr prev (x :: xs) = last addr (addr x) xs := rfl
@[simp] theorem seg_nil : Seg addr cell prev next [] := trivial

@[simp] theorem seg_cons : Seg addr cell prev next (x :: xs) ↔
    cell prev (first addr next xs) x ∧ Seg addr cell (addr x) next xs := Iff.rfl

@[simp] theorem first_append :
    first addr next (xs ++ ys) = first addr (first addr next ys) xs := by
  cases xs with
  | nil => rfl
  | cons x xs => rfl

@[simp] theorem last_append : last addr prev (xs ++ ys) = last addr (last addr prev xs) ys := by
  induction xs generalizing prev with
  | nil => rfl
  | cons x xs ih => exact ih

/-- Two segments are one if each is linked to the other. -/
@[simp] theorem seg_append : Seg addr cell prev next (xs ++ ys) ↔
    Seg addr cell prev (first addr next ys) xs ∧ Seg addr cell (last addr prev xs) next ys := by
  induction xs generalizing prev with
  | nil => simp
  | cons x xs ih => simp [ih, and_assoc]

/-- A segment stays one in a memory that has kept its nodes. -/
theorem Seg.imp (kept : ∀ x ∈ xs, ∀ p n, cell p n x → cell' p n x)
    (seg : Seg addr cell prev next xs) : Seg addr cell' prev next xs := by
  induction xs generalizing prev with
  | nil => trivial
  | cons x xs ih =>
    constructor
    · exact kept x List.mem_cons_self _ _ seg.1
    · exact ih (fun y member => kept y (List.mem_cons_of_mem x member)) seg.2

/-- The last node gets another link. -/
theorem Seg.relink_last {next' : ρ} (seg : Seg addr cell prev next xs)
    (inner : ∀ zs b, xs = zs ++ [b] → ∀ e ∈ zs, ∀ p n, cell p n e → cell' p n e)
    (edge : ∀ zs b, xs = zs ++ [b] → cell (last addr prev zs) next b →
      cell' (last addr prev zs) next' b) : Seg addr cell' prev next' xs := by
  rcases List.eq_nil_or_concat' xs with rfl | ⟨zs, b, rfl⟩
  · trivial
  · rw [seg_append] at seg ⊢
    obtain ⟨front, here, -⟩ := seg
    refine ⟨?_, edge zs b rfl here, trivial⟩
    exact front.imp (inner zs b rfl)

/-- The first node gets another link. -/
theorem Seg.relink_first {prev' : ρ} (seg : Seg addr cell prev next xs)
    (edge : ∀ d ws, xs = d :: ws → cell prev (first addr next ws) d →
      cell' prev' (first addr next ws) d)
    (inner : ∀ d ws, xs = d :: ws → ∀ e ∈ ws, ∀ p n, cell p n e → cell' p n e) :
    Seg addr cell' prev' next xs := by
  cases xs with
  | nil => trivial
  | cons d ws =>
    obtain ⟨here, back⟩ := seg
    exact ⟨edge d ws rfl here, back.imp (inner d ws rfl)⟩

/-- A node of a segment, with some links. -/
theorem Seg.mem (seg : Seg addr cell prev next xs) (member : x ∈ xs) : ∃ p n, cell p n x := by
  obtain ⟨front, back, rfl⟩ := List.append_of_mem member
  exact ⟨_, _, (seg_append.mp seg).2.1⟩

end DoublyLinked
