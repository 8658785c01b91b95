import Treeos.Lib.Run
import Mathlib.Order.Bounds.Basic
import Mathlib.Data.List.Nodup
import Mathlib.Data.Set.Card

/-!
# First-fit pools

A pool hands out the least element that is neither reserved nor held, and takes
back elements that are held.
-/
namespace FirstFit

variable {α : Type} [LinearOrder α] {pool reserved : Set α}

/-- The elements the pool can still hand out. -/
def free (pool reserved : Set α) (held : List α) : Set α :=
  {a | a ∈ pool ∧ a ∉ reserved ∧ a ∉ held}

inductive Op (α : Type) where
  | take (a : α)
  | exhausted
  | give (a : α)

/-- The held elements, latest first. -/
inductive Step (pool reserved : Set α) : List α → Op α → List α → Prop
  | take {held : List α} {a : α} (least : IsLeast (free pool reserved held) a) :
      Step pool reserved held (.take a) (a :: held)
  | exhausted {held : List α} : Step pool reserved held .exhausted held
  | give {held : List α} {a : α} (member : a ∈ held) :
      Step pool reserved held (.give a) (held.erase a)

/-- Nobody holds an element twice, and only unreserved elements of the pool are held. -/
structure Sound (pool reserved : Set α) (held : List α) : Prop where
  nodup : held.Nodup
  inside : ∀ a ∈ held, a ∈ pool ∧ a ∉ reserved

theorem Step.sound {held held' : List α} {op : Op α} (sound : Sound pool reserved held)
    (step : Step pool reserved held op held') : Sound pool reserved held' := by
  cases step with
  | @take a least =>
    obtain ⟨⟨member, unreserved, unheld⟩, _⟩ := least
    refine ⟨List.nodup_cons.mpr ⟨unheld, sound.nodup⟩, ?_⟩
    intro b present
    rcases List.mem_cons.mp present with rfl | old
    · exact ⟨member, unreserved⟩
    · exact sound.inside b old
  | exhausted => exact sound
  | give member =>
    exact ⟨sound.nodup.erase _, fun b present => sound.inside b (List.mem_of_mem_erase present)⟩

/-! ### Without returns -/

/-- What a pool hands out when nothing comes back: the least element that is left, each time. -/
inductive Takes : Set α → List α → Prop
  | nil {s : Set α} : Takes s []
  | cons {s : Set α} {a : α} {as : List α} (least : IsLeast s a) (rest : Takes (s \ {a}) as) :
      Takes s (a :: as)

/-- What has been taken is an initial part of the pool. -/
theorem Takes.mem_iff {s : Set α} {as : List α} (takes : Takes s as) {b : α} :
    b ∈ as ↔ b ∈ s ∧ {c | c ∈ s ∧ c < b}.encard < as.length := by
  induction takes with
  | nil => simp
  | @cons s a as least rest ih =>
    rw [List.mem_cons, ih, List.length_cons, Nat.cast_succ]
    by_cases first : b = a
    · have none : {c | c ∈ s ∧ c < a} = ∅ := by
        refine Set.eq_empty_of_forall_notMem fun c below => ?_
        exact absurd below.2 (not_lt_of_ge (least.2 below.1))
      subst first
      refine iff_of_true (.inl rfl) ⟨least.1, ?_⟩
      rw [none, Set.encard_empty]
      exact_mod_cast Nat.succ_pos as.length
    · rw [or_iff_right first, Set.mem_sdiff, Set.mem_singleton_iff, and_iff_left first]
      refine and_congr_right fun member => ?_
      -- the element taken first is one more below
      have above : a < b := lt_of_le_of_ne (least.2 member) (Ne.symm first)
      have below : {c | c ∈ s ∧ c < b} = insert a {c | c ∈ s \ {a} ∧ c < b} := by
        ext c
        by_cases same : c = a
        · simp [same, least.1, above]
        · simp [same]
      have apart : a ∉ {c | c ∈ s \ {a} ∧ c < b} := fun inside => inside.1.2 rfl
      rw [below, Set.encard_insert_of_notMem apart]
      exact (ENat.add_lt_add_iff_right (ENat.natCast_ne_top 1)).symm

end FirstFit
