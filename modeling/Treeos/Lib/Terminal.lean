import Mathlib.Tactic.Common

/-!
# A page without end

A writer fills the rows of a page one after the other. A screen of fixed height shows
the last rows of the page, and follows the writer by scrolling.
-/
namespace Terminal

variable {α : Type}

/-- The characters of a page, and where the writer is. -/
structure Page (α : Type) where
  cell : Nat → Nat → α
  row : Nat
  col : Nat

/-- What a writer is given. -/
inductive Key (α : Type) where
  | newline
  | tab
  | char (a : α)

namespace Page

variable (p : Page α)

def blank (a : α) : Page α := ⟨fun _ _ => a, 0, 0⟩

def nextRow : Page α := { p with row := p.row + 1, col := 0 }

def write (a : α) : Page α :=
  { p with cell := fun r c => if r = p.row ∧ c = p.col then a else p.cell r c }

/-- To column `col`, or to the next row when the row ends before it. -/
def moveTo (width col : Nat) : Page α := if col < width then { p with col := col } else p.nextRow

/-- A row has `width` columns, and a tab advances by `tab` of them. -/
def put (width tab : Nat) (p : Page α) : Key α → Page α
  | .newline => p.nextRow
  | .tab => p.moveTo width (p.col + tab)
  | .char a => (p.write a).moveTo width (p.col + 1)

def print (width tab : Nat) (p : Page α) (keys : List (Key α)) : Page α :=
  keys.foldl (put width tab) p

/-- The first row on a screen of the given height. -/
def top (height : Nat) : Nat := p.row + 1 - height

end Page

/-- The screen shows the page from its top on, and rows that the writer has not reached
are blank. -/
structure Window (height width : Nat) (blank : α) (cell : Nat → Nat → α) (row col : Nat)
    (p : Page α) : Prop where
  row : row = p.row - p.top height
  col : col = p.col
  inside : p.col < width
  fresh : ∀ r c, p.row < r → p.cell r c = blank
  cells : ∀ r < height, ∀ c < width, cell r c = p.cell (p.top height + r) c

namespace Window

variable {height width : Nat} {blank a : α} {cell cell' : Nat → Nat → α} {row col : Nat}
  {p : Page α}

theorem start (some : 0 < width) (clear : ∀ r < height, ∀ c < width, cell r c = blank) :
    Window height width blank cell 0 0 (Page.blank blank) where
  row := (Nat.zero_sub _).symm
  col := rfl
  inside := some
  fresh _ _ _ := rfl
  cells := clear

theorem row_lt (window : Window height width blank cell row col p) (some : 0 < height) :
    row < height := by
  have row := window.row
  unfold Page.top at row
  omega

/-- A character goes to the place of the writer. -/
theorem write (window : Window height width blank cell row col p)
    (same : ∀ r < height, ∀ c < width,
      cell' r c = if r = row ∧ c = col then a else cell r c) :
    Window height width blank cell' row col (p.write a) where
  row := window.row
  col := window.col
  inside := window.inside
  fresh r c below := by
    have other : ¬(r = p.row ∧ c = p.col) := fun here => Nat.ne_of_gt below here.1
    exact (if_neg other).trans (window.fresh r c below)
  cells r inside c bound := by
    have here := window.row
    rw [same r inside c bound, window.cells r inside c bound, window.col]
    -- The same row, counted from the top of the screen and of the page.
    have place : r = row ∧ c = p.col ↔ p.top height + r = p.row ∧ c = p.col := by
      unfold Page.top at *
      omega
    exact if_congr place rfl rfl

theorem right (window : Window height width blank cell row col p) {next : Nat}
    (inside : next < width) :
    Window height width blank cell row next { p with col := next } :=
  ⟨window.row, rfl, inside, window.fresh, window.cells⟩

/-- The next row is on the screen. -/
theorem down (window : Window height width blank cell row col p) (more : row + 1 < height) :
    Window height width blank cell (row + 1) 0 p.nextRow := by
  have row := window.row
  have top : p.nextRow.top height = p.top height := by
    unfold Page.top Page.nextRow at *
    simp only
    omega
  refine ⟨?_, rfl, Nat.zero_lt_of_lt window.inside, fun r c below => ?_, ?_⟩
  · rw [top]
    unfold Page.top Page.nextRow at *
    simp only
    omega
  · exact window.fresh r c (Nat.lt_of_succ_lt below)
  · rw [top]
    exact window.cells

/-- The screen moves up by a row, and its last row becomes blank. -/
theorem scroll (window : Window height width blank cell row col p) (last : row + 1 = height)
    (moved : ∀ r, r + 1 < height → ∀ c < width, cell' r c = cell (r + 1) c)
    (cleared : ∀ c < width, cell' row c = blank) :
    Window height width blank cell' row 0 p.nextRow := by
  have place := window.row
  have top : p.nextRow.top height = p.top height + 1 := by
    unfold Page.top Page.nextRow at *
    simp only
    omega
  refine ⟨?_, rfl, Nat.zero_lt_of_lt window.inside, fun r c below => ?_, fun r inside c bound => ?_⟩
  · rw [top]
    unfold Page.top Page.nextRow at *
    simp only
    omega
  · exact window.fresh r c (Nat.lt_of_succ_lt below)
  · rw [top]
    by_cases more : r + 1 < height
    · rw [moved r more c bound, window.cells (r + 1) more c bound,
        show p.top height + (r + 1) = p.top height + 1 + r by omega]
      rfl
    · have here : r = row := by omega
      rw [here, cleared c bound]
      exact (window.fresh _ c (by unfold Page.top at *; omega)).symm

end Window

end Terminal
