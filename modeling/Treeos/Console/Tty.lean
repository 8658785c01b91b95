import Treeos.Lib.Terminal
import Treeos.Panic

/-!
# The console

`arch/i386/tty.c`: text on the screen of the VGA adapter, 80 columns by 24 rows.
-/
namespace Treeos

open Terminal

def vgaWidth : Nat := 80
def vgaHeight : Nat := 24
def ttyColorScreen : BitVec 8 := 0x1F

/-- The text buffer, by cells, and the variables of the driver. -/
structure Tty where
  buf : Nat → BitVec 16
  row : Nat
  col : Nat
  -- the registers of the display controller
  crtc : BitVec 8 → BitVec 8
  -- which cells have been stored to
  written : List Nat

namespace Tty

def store (t : Tty) (cell : Nat) (value : BitVec 16) : Tty :=
  { t with buf := fun i => if i = cell then value else t.buf i, written := cell :: t.written }

/-- A loop of `n` stores. -/
def stores (place : Nat → Nat) (value : Tty → Nat → BitVec 16) (n : Nat) (t : Tty) : Tty :=
  (List.range n).foldl (fun t i => t.store (place i) (value t i)) t

-- `ioport_outb` to 0x3D4, then to 0x3D5
def outCrtc (t : Tty) (register value : BitVec 8) : Tty :=
  { t with crtc := fun r => if r = register then value else t.crtc r }

/-- `update_cursor` -/
def updateCursor (t : Tty) : Tty :=
  let location := BitVec.ofNat 16 (t.row * vgaWidth + t.col)
  (t.outCrtc 14 ((location >>> 8).setWidth 8)).outCrtc 15 (location.setWidth 8)

def clearChar : BitVec 16 := 0x20 ||| ttyColorScreen.setWidth 16 <<< 8

-- the inner loop of `tty_clear`
def clearRow (t : Tty) (y : Nat) : Tty :=
  t.stores (fun x => y * vgaWidth + x) (fun _ _ => clearChar) vgaWidth

/-- `tty_clear` -/
def ttyClear (t : Tty) : Tty :=
  let t := updateCursor { t with row := 0, col := 0 }
  -- Loop over every "letter" of the screen and "blank" it
  (List.range vgaHeight).foldl clearRow t

/-- `scroll` -/
def scroll (t : Tty) : Tty :=
  -- Move everything in the screen up one line
  let t := t.stores (fun line => line) (fun t line => t.buf (line + vgaWidth))
    (vgaWidth * vgaHeight)
  let t := t.stores (fun x => vgaWidth * (vgaHeight - 1) + x) (fun _ _ => clearChar) vgaWidth
  { t with row := t.row - 1 }

-- `if (++tty_row == VGA_HEIGHT) scroll();`
def advanceRow (t : Tty) : Tty :=
  if t.row + 1 = vgaHeight then scroll { t with row := t.row + 1 } else { t with row := t.row + 1 }

/-- `tty_putchar_color`, which returns its argument -/
def ttyPutcharColor (c : BitVec 32) (color : BitVec 8) (t : Tty) : BitVec 32 × Tty :=
  let encodedChar := c.setWidth 16 ||| color.setWidth 16 <<< 8
  let t :=
    if c = 10 then advanceRow { t with col := 0 }
    else if c = 9 then
      if vgaWidth ≤ t.col + 4 then advanceRow { t with col := 0 } else { t with col := t.col + 4 }
    else
      let t := t.store (t.row * vgaWidth + t.col) encodedChar
      if t.col + 1 = vgaWidth then advanceRow { t with col := 0 } else { t with col := t.col + 1 }
  (c, updateCursor t)

/-- `tty_puts_color`, for the bytes of a string before its NUL. A `char` has a sign. -/
def ttyPutsColor (str : Option (List (BitVec 8))) (color : BitVec 8) (newline : Bool) (t : Tty) :
    Except Panic (BitVec 32 × Tty) :=
  match str with
  | none => .error (.kassert "str != NULL")
  | some str =>
    let t := str.foldl (fun t counter => (ttyPutcharColor (counter.signExtend 32) color t).2) t
    let t := if newline then (ttyPutcharColor 10 color t).2 else t
    .ok (BitVec.ofNat 32 (str.length + if newline then 1 else 0), t)

/-! ### Loops of stores -/

variable {t : Tty} {place : Nat → Nat} {value : Tty → Nat → BitVec 16} {n : Nat}

theorem stores_succ : t.stores place value (n + 1) =
    (t.stores place value n).store (place n) (value (t.stores place value n) n) := by
  rw [stores, List.range_succ, List.foldl_append]
  rfl

/-- Stores change the buffer only. -/
theorem stores_frame : (t.stores place value n).row = t.row ∧ (t.stores place value n).col = t.col := by
  induction n with
  | zero => exact ⟨rfl, rfl⟩
  | succ n ih =>
    rw [stores_succ]
    exact ih

theorem stores_written {a : Nat} : a ∈ (t.stores place value n).written ↔
    (∃ i < n, place i = a) ∨ a ∈ t.written := by
  induction n with
  | zero => simp [stores]
  | succ n ih =>
    rw [stores_succ]
    simp only [store, List.mem_cons, ih, Nat.lt_succ_iff_lt_or_eq, or_and_right, exists_or,
      exists_eq_left, eq_comm (a := a)]
    exact or_left_comm.trans or_assoc.symm

/-- A loop that stores one value. -/
theorem stores_fill {v : BitVec 16} (a : Nat) : (t.stores place (fun _ _ => v) n).buf a =
    if ∃ i < n, place i = a then v else t.buf a := by
  induction n with
  | zero => simp [stores]
  | succ n ih =>
    rw [stores_succ]
    simp only [store]
    by_cases here : a = place n
    · rw [if_pos here, if_pos ⟨n, Nat.lt_succ_self n, here.symm⟩]
    · rw [if_neg here, ih]
      refine if_congr ⟨?_, ?_⟩ rfl rfl
      · rintro ⟨i, bound, same⟩
        exact ⟨i, Nat.lt_succ_of_lt bound, same⟩
      · rintro ⟨i, bound, same⟩
        rcases Nat.lt_succ_iff_lt_or_eq.mp bound with before | rfl
        · exact ⟨i, before, same⟩
        · exact absurd same.symm here

/-- The loop of `scroll` reads a cell before it stores to it. -/
theorem stores_move (a : Nat) :
    (t.stores (fun line => line) (fun t line => t.buf (line + vgaWidth)) n).buf a =
      if a < n then t.buf (a + vgaWidth) else t.buf a := by
  induction n generalizing a with
  | zero => rfl
  | succ n ih =>
    rw [stores_succ]
    simp only [store]
    by_cases here : a = n
    · rw [if_pos here, ih, if_neg (by omega), if_pos (by omega), here]
    · rw [if_neg here, ih]
      exact if_congr (by omega) rfl rfl

/-! ### The screen as a window -/

-- the character in a cell
def character (cell : BitVec 16) : BitVec 8 := cell.setWidth 8

/-- The character at row `r` and column `c` of the screen -/
def shown (t : Tty) (r c : Nat) : BitVec 8 := character (t.buf (r * vgaWidth + c))

theorem character_encoded (c : BitVec 32) (color : BitVec 8) :
    character (c.setWidth 16 ||| color.setWidth 16 <<< 8) = c.setWidth 8 := by
  ext i bound
  simp [character]

theorem character_clear : character clearChar = 0x20 := by decide

/-- What `tty_putchar_color` takes its argument for. -/
def key (c : BitVec 32) : Key (BitVec 8) :=
  if c = 10 then .newline else if c = 9 then .tab else .char (c.setWidth 8)

def Shows (t : Tty) (p : Page (BitVec 8)) : Prop :=
  Window vgaHeight vgaWidth 0x20 t.shown t.row t.col p

/-- Since `before`, only cells of the screen have been stored to. -/
def Inside (before : List Nat) (t : Tty) : Prop :=
  ∀ a ∈ t.written, a ∈ before ∨ a < vgaWidth * vgaHeight

variable {p : Page (BitVec 8)} {before : List Nat}

theorem Inside.stores (inside : t.Inside before)
    (places : ∀ i < n, place i < vgaWidth * vgaHeight) :
    (t.stores place value n).Inside before := by
  intro a member
  rcases stores_written.mp member with ⟨i, bound, rfl⟩ | old
  · exact .inr (places i bound)
  · exact inside a old

/-- All rows but the last get the contents of the row below. -/
theorem scroll_buf {a : Nat} (above : a < vgaWidth * (vgaHeight - 1)) :
    (scroll t).buf a = t.buf (a + vgaWidth) := by
  simp only [scroll]
  rw [stores_fill, stores_move]
  unfold vgaHeight vgaWidth at *
  have kept : ¬∃ i < 80, 80 * (24 - 1) + i = a := by
    rintro ⟨i, -, same⟩
    omega
  rw [if_neg kept, if_pos (by omega)]

theorem scroll_shown (r c : Nat) (inside : r < vgaHeight) (bound : c < vgaWidth) :
    (scroll t).shown r c = if r + 1 < vgaHeight then t.shown (r + 1) c else 0x20 := by
  simp only [shown]
  by_cases more : r + 1 < vgaHeight
  · have below : r * vgaWidth + c + vgaWidth = (r + 1) * vgaWidth + c := by
      unfold vgaWidth
      omega
    have above : r * vgaWidth + c < vgaWidth * (vgaHeight - 1) := by
      unfold vgaHeight vgaWidth at *
      omega
    rw [if_pos more, scroll_buf above, below]
  · have last : ∃ x < vgaWidth, vgaWidth * (vgaHeight - 1) + x = r * vgaWidth + c := by
      refine ⟨c, bound, ?_⟩
      unfold vgaHeight vgaWidth at *
      omega
    simp only [scroll]
    rw [stores_fill, if_pos last, if_neg more, character_clear]

theorem scroll_frame : (scroll t).row = t.row - 1 ∧ (scroll t).col = t.col := by
  simp only [scroll]
  rw [stores_frame.1, stores_frame.1, stores_frame.2, stores_frame.2]
  exact ⟨rfl, rfl⟩

theorem scroll_inside (inside : t.Inside before) : (scroll t).Inside before := by
  have moved (value : Tty → Nat → BitVec 16) :
      (t.stores (fun line => line) value (vgaWidth * vgaHeight)).Inside before :=
    inside.stores fun i bound => bound
  intro a member
  simp only [scroll] at member
  refine (moved _).stores (fun i bound => ?_) a member
  unfold vgaWidth vgaHeight at *
  omega

/-- The screen follows the page to its next row. -/
theorem advanceRow_shows {col : Nat}
    (shows : Window vgaHeight vgaWidth 0x20 t.shown t.row col p) :
    (advanceRow { t with col := 0 }).Shows p.nextRow := by
  have bound : t.row < vgaHeight := shows.row_lt (by decide)
  by_cases last : t.row + 1 = vgaHeight
  · have frame := scroll_frame (t := { t with col := 0, row := t.row + 1 })
    have scrolled : Window vgaHeight vgaWidth 0x20
        (scroll { t with col := 0, row := t.row + 1 }).shown t.row 0 p.nextRow := by
      apply shows.scroll last
      · intro r more c small
        rw [scroll_shown r c (by omega) small, if_pos more]
        rfl
      · intro c small
        rw [scroll_shown t.row c bound small, if_neg (by omega)]
    rw [advanceRow, if_pos last, Shows, frame.1, frame.2]
    exact scrolled
  · rw [advanceRow, if_neg last]
    exact shows.down (by omega)

theorem advanceRow_inside (inside : t.Inside before) : (advanceRow t).Inside before := by
  unfold advanceRow
  split
  next last => exact scroll_inside inside
  next more => exact inside

theorem store_shown {r c : Nat} {v : BitVec 16} (inside : t.col < vgaWidth) (bound : c < vgaWidth) :
    (t.store (t.row * vgaWidth + t.col) v).shown r c =
      if r = t.row ∧ c = t.col then character v else t.shown r c := by
  unfold vgaWidth at *
  simp only [shown, store]
  rw [apply_ite character]
  exact if_congr (by unfold vgaWidth; omega) rfl rfl

/-- A character on the screen and on the page. -/
theorem putchar_shows (shows : t.Shows p) (c : BitVec 32) (color : BitVec 8) :
    (ttyPutcharColor c color t).2.Shows (p.put vgaWidth 4 (key c)) := by
  show Shows (if c = 10 then _ else _) _
  unfold key
  by_cases newline : c = 10
  · rw [if_pos newline, if_pos newline]
    exact advanceRow_shows shows
  rw [if_neg newline, if_neg newline]
  have inside := shows.inside
  have col := shows.col
  by_cases tab : c = 9
  · rw [if_pos tab, if_pos tab, Page.put, Page.moveTo, ← col]
    by_cases room : t.col + 4 < vgaWidth
    · rw [if_neg (Nat.not_le.mpr room), if_pos room]
      exact shows.right room
    · rw [if_pos (Nat.not_lt.mp room), if_neg room]
      exact advanceRow_shows shows
  rw [if_neg tab, if_neg tab, Page.put, Page.moveTo, ← col]
  have stored : Window vgaHeight vgaWidth (0x20 : BitVec 8) (t.store (t.row * vgaWidth + t.col)
      (c.setWidth 16 ||| color.setWidth 16 <<< 8)).shown t.row t.col (p.write (c.setWidth 8)) := by
    apply shows.write
    intro r _ c' bound
    rw [store_shown (col ▸ inside) bound, character_encoded]
  show Shows (if t.col + 1 = vgaWidth then _ else _) _
  by_cases room : t.col + 1 = vgaWidth
  · rw [if_pos room, if_neg (by omega)]
    exact advanceRow_shows stored
  · have more : t.col + 1 < vgaWidth := by omega
    rw [if_neg room, if_pos more]
    exact stored.right more

theorem putchar_inside (shows : t.Shows p) (inside : t.Inside before) (c : BitVec 32)
    (color : BitVec 8) : (ttyPutcharColor c color t).2.Inside before := by
  have bound := shows.inside
  have row : t.row < vgaHeight := shows.row_lt (by decide)
  have col := shows.col
  have stored : (t.store (t.row * vgaWidth + t.col)
      (c.setWidth 16 ||| color.setWidth 16 <<< 8)).Inside before := by
    intro a member
    rcases List.mem_cons.mp member with rfl | old
    · right
      unfold vgaHeight vgaWidth at *
      omega
    · exact inside a old
  show Inside before (if c = 10 then _ else if c = 9 then _ else _)
  split
  next newline => exact advanceRow_inside inside
  next other =>
    split
    next tab =>
      split
      next wrap => exact advanceRow_inside inside
      next room => exact inside
    next visible =>
      show Inside before (if t.col + 1 = vgaWidth then _ else _)
      split
      next wrap => exact advanceRow_inside stored
      next room => exact stored

/-! ### Printing -/

/-- The `int` that a character of a string is passed as, where `char` has a sign or not. -/
def widen (signed : Bool) (b : BitVec 8) : BitVec 32 :=
  if signed then b.signExtend 32 else b.setWidth 32

/-- Bytes printed one after the other, each with its colors. -/
def ttyPrint (signed : Bool) (t : Tty) (text : List (BitVec 8 × BitVec 8)) : Tty :=
  text.foldl (fun t b => (ttyPutcharColor (widen signed b.1) b.2 t).2) t

/-- What a byte of a text is. -/
def byteKey (b : BitVec 8) : Key (BitVec 8) :=
  if b = 10 then .newline else if b = 9 then .tab else .char b

theorem setWidth_widen (signed : Bool) (b : BitVec 8) : (widen signed b).setWidth 8 = b := by
  cases signed with
  | false =>
    show (b.setWidth 32).setWidth 8 = b
    simp
  | true =>
    show (b.signExtend 32).setWidth 8 = b
    apply BitVec.eq_of_getLsbD_eq
    intro i bound
    rw [BitVec.getLsbD_setWidth, BitVec.getLsbD_signExtend]
    simp [bound, show i < 32 by omega]

theorem widen_eq_iff (signed : Bool) (b k : BitVec 8) : widen signed b = widen signed k ↔ b = k := by
  refine ⟨fun same => ?_, congrArg _⟩
  have low := congrArg (BitVec.setWidth 8) same
  rwa [setWidth_widen, setWidth_widen] at low

theorem key_widen (signed : Bool) (b : BitVec 8) : key (widen signed b) = byteKey b := by
  have newline : widen signed b = 10 ↔ b = 10 := by
    rw [show (10 : BitVec 32) = widen signed 10 by cases signed <;> decide, widen_eq_iff]
  have tab : widen signed b = 9 ↔ b = 9 := by
    rw [show (9 : BitVec 32) = widen signed 9 by cases signed <;> decide, widen_eq_iff]
  rw [key, byteKey, setWidth_widen]
  exact if_congr newline rfl (if_congr tab rfl rfl)

/-- Row by row, `tty_clear` makes the screen blank. -/
theorem clearRows_spec (t : Tty) (rows : Nat) (height : rows ≤ vgaHeight) :
    ((List.range rows).foldl clearRow t).row = t.row ∧
      ((List.range rows).foldl clearRow t).col = t.col ∧
      (∀ r < rows, ∀ c < vgaWidth, ((List.range rows).foldl clearRow t).shown r c = 0x20) ∧
      ((List.range rows).foldl clearRow t).Inside t.written := by
  induction rows with
  | zero => exact ⟨rfl, rfl, fun r none => absurd none (Nat.not_lt_zero r), fun _ => .inl⟩
  | succ rows ih =>
    obtain ⟨row, col, blank, inside⟩ := ih (Nat.le_of_succ_le height)
    rw [List.range_succ, List.foldl_append, List.foldl_cons, List.foldl_nil]
    generalize (List.range rows).foldl clearRow t = u at *
    refine ⟨stores_frame.1.trans row, stores_frame.2.trans col, fun r bound c small => ?_,
      inside.stores fun x small => ?_⟩
    · simp only [shown, clearRow]
      rw [stores_fill]
      by_cases here : r = rows
      · rw [if_pos ⟨c, small, by rw [here]⟩, character_clear]
      · have other : ¬∃ x < vgaWidth, rows * vgaWidth + x = r * vgaWidth + c := by
          rintro ⟨x, -, same⟩
          unfold vgaWidth at *
          omega
        rw [if_neg other]
        exact blank r (by omega) c small
    · unfold vgaWidth vgaHeight at *
      omega

theorem ttyClear_shows (t : Tty) :
    (ttyClear t).Shows (Page.blank 0x20) ∧ (ttyClear t).Inside t.written := by
  obtain ⟨row, col, blank, inside⟩ :=
    clearRows_spec (updateCursor { t with row := 0, col := 0 }) vgaHeight (Nat.le_refl _)
  refine ⟨?_, inside⟩
  unfold Shows ttyClear
  rw [row, col]
  exact Window.start (by decide) blank

theorem ttyPrint_shows (shows : t.Shows p) (inside : t.Inside before) (signed : Bool)
    (text : List (BitVec 8 × BitVec 8)) :
    (ttyPrint signed t text).Shows (p.print vgaWidth 4 (text.map fun b => byteKey b.1)) ∧
      (ttyPrint signed t text).Inside before := by
  induction text generalizing t p with
  | nil => exact ⟨shows, inside⟩
  | cons b text ih =>
    have next := putchar_shows shows (widen signed b.1) b.2
    rw [key_widen] at next
    exact ih next (putchar_inside shows inside (widen signed b.1) b.2)

/-- After `tty_clear`, the screen shows the last rows of an unbounded page, whatever is
printed, and only its cells are written. -/
theorem ttyPrint_page (t : Tty) (signed : Bool) (text : List (BitVec 8 × BitVec 8)) :
    ∃ (s : Tty) (p : Page (BitVec 8)), s = ttyPrint signed (ttyClear t) text ∧
      p = (Page.blank 0x20).print 80 4 (text.map fun b => byteKey b.1) ∧
      (∀ r < 24, ∀ c < 80, (s.buf (r * 80 + c)).setWidth 8 = p.cell (p.row - 23 + r) c) ∧
      s.row = p.row - (p.row - 23) ∧ s.row < 24 ∧ s.col = p.col ∧ s.col < 80 ∧
      ∀ a ∈ s.written, a ∈ t.written ∨ a < 80 * 24 := by
  obtain ⟨clear, inside⟩ := ttyClear_shows t
  obtain ⟨shows, inside⟩ := ttyPrint_shows clear inside signed text
  refine ⟨_, _, rfl, rfl, ?_, ?_, shows.row_lt (by decide), shows.col, ?_, inside⟩
  · intro r row c col
    have cell := shows.cells r row c col
    rw [Page.top] at cell
    exact cell
  · have row := shows.row
    rw [Page.top] at row
    exact row
  · exact shows.col ▸ shows.inside

/-- A string is printed byte by byte. -/
theorem ttyPutsColor_eq (t : Tty) (str : List (BitVec 8)) (color : BitVec 8) (newline : Bool) :
    ttyPutsColor (some str) color newline t =
      .ok (BitVec.ofNat 32 (str.length + if newline then 1 else 0),
        ttyPrint true t ((str ++ if newline then [10] else []).map fun b => (b, color))) := by
  cases newline
  · simp [ttyPutsColor, ttyPrint, widen, List.foldl_map]
  · simp [ttyPutsColor, ttyPrint, List.foldl_map]
    rfl

/-- The controller gets the place of the writer. -/
theorem updateCursor_location (t : Tty) :
    (updateCursor t).crtc 14 ++ (updateCursor t).crtc 15 =
      BitVec.ofNat 16 (t.row * vgaWidth + t.col) := by
  have halves (location : BitVec 16) :
      ((location >>> 8).setWidth 8 ++ location.setWidth 8 : BitVec 16) = location := by
    apply BitVec.eq_of_getLsbD_eq
    intro i bound
    rw [BitVec.getLsbD_append, BitVec.getLsbD_setWidth, BitVec.getLsbD_setWidth,
      BitVec.getLsbD_ushiftRight]
    by_cases low : i < 8
    · simp [low]
    · simp [low, show i - 8 < 8 by omega, show 8 + (i - 8) = i by omega]
  exact halves _

end Tty

end Treeos
