import Mathlib.Data.Fintype.EquivFin
import Mathlib.Data.List.Nodup
import Mathlib.Logic.Function.Basic
import Mathlib.Logic.Relation

/-!
# Intrusive singly linked lists

A heap is a map from references to successor fields. `Chain next head xs` says
that following the fields from `head` visits exactly `xs` and ends in NULL.
-/
namespace Linked

variable {α : Type}

/-- The NULL-terminated list of references reached from a link field. -/
def Chain (next : α → Option α) : Option α → List α → Prop
  | head, [] => head = none
  | head, x :: xs => head = some x ∧ Chain next (next x) xs

@[simp] theorem chain_nil {next : α → Option α} {head : Option α} :
    Chain next head [] ↔ head = none := Iff.rfl

@[simp] theorem chain_cons {next : α → Option α} {head : Option α} {x : α} {xs : List α} :
    Chain next head (x :: xs) ↔ head = some x ∧ Chain next (next x) xs := Iff.rfl

/-- The visited list is a function of the heap. -/
theorem Chain.unique {next : α → Option α} {head : Option α} {xs ys : List α}
    (left : Chain next head xs) (right : Chain next head ys) : xs = ys := by
  induction xs generalizing head ys with
  | nil =>
    cases ys with
    | nil => rfl
    | cons y ys => simp_all
  | cons x xs ih =>
    cases ys with
    | nil => simp_all
    | cons y ys =>
      obtain ⟨rfl, left⟩ := left
      obtain ⟨same, right⟩ := right
      cases same
      rw [ih left right]

/-- The part of a chain from one of its elements on. -/
theorem Chain.suffix {next : α → Option α} {head : Option α} {xs ys : List α} {x : α}
    (chain : Chain next head (xs ++ x :: ys)) : Chain next (some x) (x :: ys) := by
  induction xs generalizing head with
  | nil => exact ⟨rfl, chain.2⟩
  | cons y xs ih => exact ih chain.2

/-- A NULL-terminated chain never visits a reference twice. -/
theorem Chain.nodup {next : α → Option α} {head : Option α} {xs : List α}
    (chain : Chain next head xs) : xs.Nodup := by
  induction xs generalizing head with
  | nil => exact List.nodup_nil
  | cons x xs ih =>
    refine List.nodup_cons.mpr ⟨?_, ih chain.2⟩
    intro again
    -- A second visit of `x` would make the rest of the chain as long as the chain itself.
    obtain ⟨front, back, rfl⟩ := List.append_of_mem again
    have tail := chain.2.suffix
    have whole : Chain next (some x) (x :: (front ++ x :: back)) := ⟨rfl, chain.2⟩
    have same := congrArg List.length (whole.unique tail)
    simp only [List.length_cons, List.length_append] at same
    omega

/-- Only the fields of visited references matter. -/
theorem Chain.congr {next next' : α → Option α} {head : Option α} {xs : List α}
    (same : ∀ x ∈ xs, next' x = next x) (chain : Chain next head xs) : Chain next' head xs := by
  induction xs generalizing head with
  | nil => exact chain
  | cons x xs ih =>
    refine ⟨chain.1, ?_⟩
    rw [same x List.mem_cons_self]
    exact ih (fun y member => same y (List.mem_cons_of_mem x member)) chain.2

theorem Chain.head_eq {next : α → Option α} {head : Option α} {xs : List α}
    (chain : Chain next head xs) : head = xs[0]? := by
  cases xs with
  | nil => exact chain
  | cons x xs => exact chain.1

/-- The field of an element holds the element after it, NULL at the end. -/
theorem Chain.next_getElem {next : α → Option α} {head : Option α} {xs : List α}
    (chain : Chain next head xs) {i : Nat} (bound : i < xs.length) : next xs[i] = xs[i + 1]? := by
  induction xs generalizing head i with
  | nil => simp at bound
  | cons x xs ih =>
    cases i with
    | zero => simpa using chain.2.head_eq
    | succ i => simpa using ih chain.2 (i := i) (by simpa using bound)

/-! ### References that lead to others -/

/-- The field of `x` holds `y`. -/
def Leads (next : α → Option α) (x y : α) : Prop := next x = some y

/-- Following the fields from a link field leads to `x`. -/
def Reaches (next : α → Option α) (head : Option α) (x : α) : Prop :=
  ∃ first, head = some first ∧ Relation.ReflTransGen (Leads next) first x

theorem Reaches.next {next : α → Option α} {head : Option α} {x y : α}
    (reached : Reaches next head x) (leads : Leads next x y) : Reaches next head y := by
  obtain ⟨first, start, path⟩ := reached
  exact ⟨first, start, path.tail leads⟩

theorem Chain.mem_next {next : α → Option α} {head : Option α} {xs : List α} {x y : α}
    (chain : Chain next head xs) (member : x ∈ xs) (leads : Leads next x y) : y ∈ xs := by
  obtain ⟨i, bound, rfl⟩ := List.getElem_of_mem member
  have after := chain.next_getElem bound
  rw [leads] at after
  exact List.mem_of_getElem? after.symm

/-- A chain visits every reference that is reached, and no other one. -/
theorem Chain.reaches_iff {next : α → Option α} {head : Option α} {xs : List α}
    (chain : Chain next head xs) (x : α) : Reaches next head x ↔ x ∈ xs := by
  constructor
  · rintro ⟨first, rfl, path⟩
    induction path with
    | refl => exact List.mem_of_getElem? chain.head_eq.symm
    | tail _ leads ih => exact chain.mem_next ih leads
  · intro member
    induction xs generalizing head with
    | nil => cases member
    | cons y xs ih =>
      obtain ⟨rfl, rest⟩ := chain
      rcases List.mem_cons.mp member with rfl | later
      · exact ⟨x, rfl, .refl⟩
      · obtain ⟨z, leads, path⟩ := ih rest later
        exact ⟨y, rfl, path.head leads⟩

/-- No reference of a chain leads back to itself. -/
theorem Chain.not_leads_self {next : α → Option α} {head : Option α} {xs : List α} {x : α}
    (chain : Chain next head xs) (member : x ∈ xs) : ¬Relation.TransGen (Leads next) x x := by
  intro back
  obtain ⟨front, rest, rfl⟩ := List.append_of_mem member
  have tail := chain.suffix
  obtain ⟨y, leads, path⟩ := Relation.TransGen.head'_iff.mp back
  have again : x ∈ rest := (tail.2.reaches_iff x).mp ⟨y, leads, path⟩
  exact (List.nodup_cons.mp tail.nodup).1 again

/-- Where there are finitely many references, following the fields ends unless some reference
leads back to itself. -/
theorem exists_chain_iff [Finite α] {next : α → Option α} {head : Option α} :
    (∃ xs, Chain next head xs) ↔
      ∀ x, Reaches next head x → ¬Relation.TransGen (Leads next) x x := by
  constructor
  · rintro ⟨xs, chain⟩ x reached
    exact chain.not_leads_self ((chain.reaches_iff x).mp reached)
  · intro acyclic
    -- the references that are reached, ordered by how they lead to each other
    let later (x y : {x // Reaches next head x}) : Prop := Relation.TransGen (Leads next) y x
    have : IsTrans _ later := ⟨fun _ _ _ first second => second.trans first⟩
    have : Std.Irrefl later := ⟨fun x => acyclic x x.2⟩
    have : Finite {x // Reaches next head x} := Finite.of_injective _ Subtype.val_injective
    have order : WellFounded later := Finite.wellFounded_of_trans_of_irrefl later
    have ends (x : {x // Reaches next head x}) : ∃ xs, Chain next (some x.1) xs := by
      induction x using order.induction with
      | h x ih =>
        cases after : next x.1 with
        | none => exact ⟨[x.1], rfl, after⟩
        | some y =>
          obtain ⟨xs, chain⟩ := ih ⟨y, x.2.next after⟩ (.single after)
          exact ⟨x.1 :: xs, rfl, by rwa [after]⟩
    cases head with
    | none => exact ⟨[], rfl⟩
    | some first => exact ends ⟨first, first, rfl, .refl⟩

variable [DecidableEq α]

/-- Storing into the last field appends a reference whose own field is NULL. -/
theorem Chain.append {next : α → Option α} {head : Option α} {xs : List α} {x y : α}
    (chain : Chain next head (xs ++ [x])) (fresh : y ∉ xs ++ [x]) (ends : next y = none) :
    Chain (Function.update next x (some y)) head (xs ++ [x] ++ [y]) := by
  have distinct := chain.nodup
  induction xs generalizing head with
  | nil =>
    obtain ⟨rfl, _⟩ := chain
    have apart : y ≠ x := by simpa using fresh
    exact ⟨rfl, by simp, by simp [Function.update_of_ne apart, ends]⟩
  | cons z xs ih =>
    simp only [List.cons_append, List.mem_cons, not_or, List.nodup_cons] at fresh distinct
    have apart : z ≠ x := fun same => distinct.1 (by simp [same])
    refine ⟨chain.1, ?_⟩
    rw [Function.update_of_ne apart]
    exact ih chain.2 fresh.2 distinct.2

end Linked
