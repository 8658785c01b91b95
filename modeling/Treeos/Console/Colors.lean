import Mathlib.Tactic.Common
import Treeos.Console.Tty

/-!
# Colored text

The cells that `tty_puts_color` of `arch/i386/tty.c` writes for the bytes of its string.
-/
namespace Treeos.Tty

/-- The colors of a cell -/
def cellColors (cell : BitVec 16) : BitVec 8 := (cell >>> 8).setWidth 8

/-- Where the character that `tty_putchar_color` prints is when it returns. Scrolling takes it
to the row above. -/
def landed (t : Tty) : Nat :=
  let cell := t.row * vgaWidth + t.col
  if t.col + 1 = vgaWidth ∧ t.row + 1 = vgaHeight then cell - vgaWidth else cell

/-- `tty_puts_color(str, color, newline)` prints each byte of `str` that is not a control
character in `color`. `u` and `v` are the screens that the call comes through before and after
the byte `b`. -/
def PrintsColor (t : Tty) (str : List (BitVec 8)) (color : BitVec 8) (newline : Bool) : Prop :=
  ∃ n last, ttyPutsColor (some str) color newline t = .ok (n, last) ∧
    ∀ front b back, str = front ++ b :: back → b ≠ 10 → b ≠ 9 →
      ∃ u v, (∃ n, ttyPutsColor (some front) color false t = .ok (n, u)) ∧
        ttyPutcharColor (b.signExtend 32) color u = (b.signExtend 32, v) ∧
        (∃ n, ttyPutsColor (some back) color newline v = .ok (n, last)) ∧
        character (v.buf (landed u)) = b ∧ cellColors (v.buf (landed u)) = color

/-! ### One character -/

theorem cellColors_encoded (c : BitVec 32) (color : BitVec 8) :
    cellColors (c.setWidth 16 ||| color.setWidth 16 <<< 8) = (c >>> 8).setWidth 8 ||| color := by
  apply BitVec.eq_of_getLsbD_eq
  intro i bound
  simp [cellColors, bound, show 8 + i < 16 by omega, show ¬8 + i < 8 by omega]

-- the eight bits that a `char` gets in front of it
theorem high_signExtend (b : BitVec 8) :
    (b.signExtend 32 >>> 8).setWidth 8 = if b < 0x80 then 0#8 else 0xFF#8 := by
  revert b
  decide

/-- The sign of a byte reaches its colors. -/
theorem cellColors_signExtend (b color : BitVec 8) :
    cellColors ((b.signExtend 32).setWidth 16 ||| color.setWidth 16 <<< 8) = color ↔
      b < 0x80 ∨ color = 0xFF := by
  rw [cellColors_encoded, high_signExtend]
  by_cases ascii : b < 0x80
  · rw [if_pos ascii, BitVec.zero_or]
    exact iff_of_true rfl (.inl ascii)
  · have all : 0xFF#8 ||| color = 0xFF#8 := BitVec.allOnes_or
    rw [if_neg ascii, all, or_iff_right ascii]
    exact eq_comm

/-- A character that is not a control character is stored with its colors. -/
theorem putchar_landed (t : Tty) {c : BitVec 32} (color : BitVec 8) (newline : c ≠ 10)
    (tab : c ≠ 9) : (ttyPutcharColor c color t).2.buf (landed t) =
      c.setWidth 16 ||| color.setWidth 16 <<< 8 := by
  generalize stores : t.store (t.row * vgaWidth + t.col)
    (c.setWidth 16 ||| color.setWidth 16 <<< 8) = u
  have here : u.buf (t.row * vgaWidth + t.col) = c.setWidth 16 ||| color.setWidth 16 <<< 8 := by
    rw [← stores]
    exact if_pos rfl
  have frame : u.row = t.row ∧ u.col = t.col := by
    rw [← stores]
    exact ⟨rfl, rfl⟩
  have step : (ttyPutcharColor c color t).2.buf = (if t.col + 1 = vgaWidth then
      advanceRow { u with col := 0 } else { u with col := u.col + 1 }).buf := by
    simp only [ttyPutcharColor, if_neg newline, if_neg tab, stores, frame.2]
    rfl
  rw [step, ← here]
  have row : u.row + 1 = t.row + 1 := by rw [frame.1]
  unfold landed
  by_cases wrap : t.col + 1 = vgaWidth
  · rw [if_pos wrap, advanceRow]
    by_cases last : t.row + 1 = vgaHeight
    · have place : t.row * vgaWidth + t.col - vgaWidth + vgaWidth = t.row * vgaWidth + t.col := by
        unfold vgaHeight vgaWidth at *
        omega
      have above : t.row * vgaWidth + t.col - vgaWidth < vgaWidth * (vgaHeight - 1) := by
        unfold vgaHeight vgaWidth at *
        omega
      rw [if_pos (row.trans last), if_pos ⟨wrap, last⟩, scroll_buf above, place]
    · rw [if_neg (fun same => last (row.symm.trans same)), if_neg (fun both => last both.2)]
  · rw [if_neg wrap, if_neg (fun both => wrap both.1)]

/-- A byte keeps its place as a character, and its sign is all that can change its colors. -/
theorem putchar_byte (t : Tty) (b color : BitVec 8) (newline : b ≠ 10) (tab : b ≠ 9) :
    character ((ttyPutcharColor (b.signExtend 32) color t).2.buf (landed t)) = b ∧
      (cellColors ((ttyPutcharColor (b.signExtend 32) color t).2.buf (landed t)) = color ↔
        b < 0x80 ∨ color = 0xFF) := by
  have control (k : BitVec 8) (other : b ≠ k) : b.signExtend 32 ≠ k.signExtend 32 := by
    intro same
    exact other ((widen_eq_iff true b k).mp same)
  rw [putchar_landed t color (control 10 newline) (control 9 tab), character_encoded]
  exact ⟨setWidth_widen true b, cellColors_signExtend b color⟩

/-! ### A string -/

/-- The call for a string comes through the calls for its parts. -/
theorem ttyPutsColor_split (t : Tty) (front : List (BitVec 8)) (b : BitVec 8)
    (back : List (BitVec 8)) (color : BitVec 8) (newline : Bool) {n : BitVec 32} {last : Tty}
    (call : ttyPutsColor (some (front ++ b :: back)) color newline t = .ok (n, last)) :
    ∃ u, (∃ n, ttyPutsColor (some front) color false t = .ok (n, u)) ∧
      ∃ n, ttyPutsColor (some back) color newline
        (ttyPutcharColor (b.signExtend 32) color u).2 = .ok (n, last) := by
  rw [ttyPutsColor_eq] at call
  cases call
  refine ⟨ttyPrint true t (front.map fun b => (b, color)), ?_, ?_⟩
  · simp [ttyPutsColor_eq]
  · simp [ttyPutsColor_eq, ttyPrint, widen]

/-- `tty_puts_color` keeps to its colors exactly where a `char` has no sign that shows: `char`
is signed, and the sign of a byte from 0x80 on sets all bits of its colors. -/
theorem ttyPutsColor_colors_iff (t : Tty) (str : List (BitVec 8)) (color : BitVec 8)
    (newline : Bool) : PrintsColor t str color newline ↔
      color = 0xFF ∨ ∀ b ∈ str, b ≠ 10 → b ≠ 9 → b < 0x80 := by
  constructor
  · rintro ⟨n, last, -, prints⟩
    by_contra broken
    push Not at broken
    obtain ⟨mixed, b, member, line, tab, high⟩ := broken
    obtain ⟨front, back, split⟩ := List.append_of_mem member
    obtain ⟨u, v, -, step, -, -, colors⟩ := prints front b back split line tab
    have after : v = (ttyPutcharColor (b.signExtend 32) color u).2 := by rw [step]
    rw [after, (putchar_byte u b color line tab).2] at colors
    rcases colors with ascii | all
    · exact high ascii
    · exact mixed all
  · intro condition
    have call := ttyPutsColor_eq t str color newline
    refine ⟨_, _, call, ?_⟩
    rintro front b back rfl line tab
    obtain ⟨u, before, rest⟩ := ttyPutsColor_split t front b back color newline call
    obtain ⟨same, colors⟩ := putchar_byte u b color line tab
    refine ⟨u, _, before, rfl, rest, same, colors.mpr ?_⟩
    rcases condition with all | ascii
    · exact .inr all
    · exact .inl (ascii b (by simp) line tab)

/-- The byte 0xE9 in white on blue is white on white. -/
theorem ttyPutsColor_bright : ¬∀ (t : Tty) (str : List (BitVec 8)) (color : BitVec 8)
    (newline : Bool), 0 ∉ str → PrintsColor t str color newline := by
  intro all
  obtain ⟨n, last, -, prints⟩ :=
    all ⟨fun _ => clearChar, 0, 0, fun _ => 0, []⟩ [0xE9] 0x1F false (by decide)
  obtain ⟨u, v, ⟨m, before⟩, step, -, -, colors⟩ := prints [] 0xE9 [] rfl (by decide) (by decide)
  cases before
  cases step
  exact absurd colors (by decide)

end Treeos.Tty
