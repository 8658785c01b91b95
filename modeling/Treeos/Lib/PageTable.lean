import Mathlib.Logic.Function.Basic
import Mathlib.Tactic.Common

/-!
# Two-level page tables

Frames of entries, of which one is the directory, and the translation of a page through a
directory entry and the entry of a table. Which translations a store to the directory or
to a table changes depends only on who uses the table.
-/
namespace PageTable

variable {F I E : Type}

/-- The entries in every frame. -/
abbrev Mem (F I E : Type) := F → I → E

/-- How an entry refers to a frame. -/
structure Format (F E : Type) where
  present : E → Bool
  frame : E → F

section
variable [DecidableEq F] (m : Mem F I E) {f g : F} {i j : I} {e e' : E}

/-- A store to all entries of frame `f`. -/
def fill (m : Mem F I E) (f : F) (e : E) : Mem F I E :=
  fun g j => if g = f then e else m g j

@[simp] theorem fill_self : fill m f e f i = e := if_pos rfl

theorem fill_of_ne (apart : g ≠ f) : fill m f e g i = m g i := if_neg apart

variable [DecidableEq I]

/-- A store to entry `i` of frame `f`. -/
def write (m : Mem F I E) (f : F) (i : I) (e : E) : Mem F I E :=
  fun g j => if g = f ∧ j = i then e else m g j

@[simp] theorem write_self : write m f i e f i = e := if_pos ⟨rfl, rfl⟩

theorem write_of_frame_ne (apart : g ≠ f) : write m f i e g j = m g j :=
  if_neg fun same => apart same.1

theorem write_of_index_ne (apart : j ≠ i) : write m f i e g j = m g j :=
  if_neg fun same => apart same.2

@[simp] theorem write_write : write (write m f i e) f i e' = write m f i e' := by
  funext g j
  unfold write
  split <;> rfl

end

variable (fmt : Format F E)

/-- The entry that a page is translated with, if there is one. -/
def lookup (m : Mem F I E) (dir : F) (page : I × I) : Option E :=
  if fmt.present (m dir page.1) then
    if fmt.present (m (fmt.frame (m dir page.1)) page.2)
      then some (m (fmt.frame (m dir page.1)) page.2) else none
  else none

/-- Directory entry `i` is present and refers to frame `f`. -/
def Uses (m : Mem F I E) (dir : F) (i : I) (f : F) : Prop :=
  fmt.present (m dir i) = true ∧ fmt.frame (m dir i) = f

variable {fmt} {m m' : Mem F I E} {dir f : F} {i : I} {e : E} {page : I × I}

theorem lookup_of_uses (uses : Uses fmt m dir page.1 f) :
    lookup fmt m dir page = if fmt.present (m f page.2) then some (m f page.2) else none := by
  rw [lookup, if_pos uses.1, uses.2]

theorem lookup_of_absent (absent : fmt.present (m dir page.1) = false) :
    lookup fmt m dir page = none := by
  rw [lookup, absent]
  rfl

theorem lookup_eq_some (uses : Uses fmt m dir page.1 f) :
    lookup fmt m dir page = some e ↔ fmt.present e = true ∧ m f page.2 = e := by
  rw [lookup_of_uses uses]
  split
  next present =>
    rw [Option.some.injEq]
    exact ⟨fun same => ⟨same ▸ present, same⟩, fun same => same.2⟩
  next absent =>
    refine ⟨nofun, fun same => ?_⟩
    rw [same.2] at absent
    exact absurd same.1 absent

theorem lookup_some (found : lookup fmt m dir page = some e) :
    Uses fmt m dir page.1 (fmt.frame (m dir page.1)) ∧
      m (fmt.frame (m dir page.1)) page.2 = e ∧ fmt.present e = true := by
  cases present : fmt.present (m dir page.1) with
  | false =>
    rw [lookup_of_absent present] at found
    cases found
  | true =>
    have uses : Uses fmt m dir page.1 (fmt.frame (m dir page.1)) := ⟨present, rfl⟩
    have ⟨here, same⟩ := (lookup_eq_some uses).mp found
    exact ⟨uses, same, here⟩

/-- Two memories translate a page alike when they agree on the entries it goes through. -/
theorem lookup_congr (directory : m' dir page.1 = m dir page.1)
    (table : m' (fmt.frame (m dir page.1)) page.2 = m (fmt.frame (m dir page.1)) page.2) :
    lookup fmt m' dir page = lookup fmt m dir page := by
  rw [lookup, lookup, directory, table]

section
variable [DecidableEq F]

/-- A fill of a frame that is no table changes no translation. -/
theorem lookup_fill (apart : dir ≠ f) (unused : ¬Uses fmt m dir page.1 f) :
    lookup fmt (fill m f e) dir page = lookup fmt m dir page := by
  cases present : fmt.present (m dir page.1) with
  | false => rw [lookup_of_absent present, lookup_of_absent (by rw [fill_of_ne m apart, present])]
  | true =>
    exact lookup_congr (fill_of_ne m apart) (fill_of_ne m fun same => unused ⟨present, same⟩)

variable [DecidableEq I]

/-- A store to another frame than the directory changes no use. -/
theorem uses_write {g : F} {j : I} (apart : dir ≠ f) :
    Uses fmt (write m f i e) dir j g ↔ Uses fmt m dir j g := by
  unfold Uses
  rw [write_of_frame_ne m apart]

/-- A store to a table changes the one entry, for every page that uses the table. -/
theorem lookup_write (apart : dir ≠ f) (uses : Uses fmt m dir page.1 f) (same : page.2 = i) :
    lookup fmt (write m f i e) dir page = if fmt.present e then some e else none := by
  rw [lookup_of_uses ((uses_write apart).mpr uses), same, write_self]

theorem lookup_write_of_not (apart : dir ≠ f) (other : ¬(Uses fmt m dir page.1 f ∧ page.2 = i)) :
    lookup fmt (write m f i e) dir page = lookup fmt m dir page := by
  cases present : fmt.present (m dir page.1) with
  | false =>
    rw [lookup_of_absent present, lookup_of_absent (by rw [write_of_frame_ne m apart, present])]
  | true =>
    refine lookup_congr (write_of_frame_ne m apart) (if_neg fun same => other ?_)
    exact ⟨⟨present, same.1⟩, same.2⟩

/-- A store to entry `i` of the directory concerns the pages of that entry, and the page at
index `i` of whoever uses the directory as a table. -/
theorem lookup_write_dir (other : page.1 ≠ i) (window : ¬(Uses fmt m dir page.1 dir ∧ page.2 = i)) :
    lookup fmt (write m dir i e) dir page = lookup fmt m dir page := by
  cases present : fmt.present (m dir page.1) with
  | false =>
    rw [lookup_of_absent present, lookup_of_absent (by rw [write_of_index_ne m other, present])]
  | true =>
    refine lookup_congr (write_of_index_ne m other) (if_neg fun same => window ?_)
    exact ⟨⟨present, same.1⟩, same.2⟩

end

end PageTable
