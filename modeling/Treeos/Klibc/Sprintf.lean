import Treeos.Klibc.Vsprintf

/-!
# `sprintf`

Formatted output into a part of a buffer, and a bound for the length of a text that depends
on the format and the strings alone.
-/
namespace Treeos

open Buffer

/-- `sprintf(buf + pos, format, ...)`: the buffer and the value it returns. -/
def sprintf (buf : Object) (pos : Nat) (format : String) (args : List Arg)
    (garbage : Nat → BitVec 8) : Option (Object × Nat) := do
  let (dest, ret, _) ← vsprintf (buf.tail pos) (Printer.literal format) args garbage
  some (buf.setTail pos dest, ret)

variable {values rest : List Value} {fmt text : List (BitVec 8)}

/-- With enough room, the text of the format stands behind the place, with a NUL. -/
theorem sprintf_renders {buf : Object} {pos : Nat} {format : String} {args : List Arg}
    (string : (Printer.literal format).Holds 0 (format.toList.map ch))
    (kinds : List.Forall₂ ArgHolds args values)
    (rendered : render (format.toList.map ch) values = some (text, rest))
    (room : pos + text.length < buf.size) (garbage : Nat → BitVec 8) :
    sprintf buf pos format args garbage = some (buf.put pos (text ++ [0]), text.length) := by
  have inside : text.length < (buf.tail pos).size := by
    rw [Object.tail]
    dsimp only
    omega
  have printed := (vsprintf_renders string kinds rendered inside garbage).2
  simp only [sprintf, printed, Option.bind_eq_bind, Option.bind_some, Object.setTail_put]

/-! ### Pieces of a text -/

/-- How a format renders, piece by piece. -/
inductive Renders : List (BitVec 8) → List Value → List (BitVec 8) → List Value → Prop
  | nil {values : List Value} : Renders [] values [] values
  | percent {values : List Value} : Renders [ch '%'] values [] values
  | plain {c : BitVec 8} {fmt text : List (BitVec 8)} {values rest : List Value}
      (plain : c ≠ ch '%') (next : Renders fmt values text rest) :
      Renders (c :: fmt) values (c :: text) rest
  | directive {k : BitVec 8} {fmt piece text : List (BitVec 8)} {value : Value}
      {values rest : List Value} (member : k ∈ directives) (shown : shownAs k value = some piece)
      (next : Renders fmt values text rest) :
      Renders (ch '%' :: k :: fmt) (value :: values) (piece ++ text) rest
  | other {k : BitVec 8} {fmt text : List (BitVec 8)} {values rest : List Value}
      (other : k ∉ directives) (next : Renders fmt values text rest) :
      Renders (ch '%' :: k :: fmt) values (k :: text) rest

theorem renders_of_render (rendered : render fmt values = some (text, rest)) :
    Renders fmt values text rest := by
  induction fmt using argCount.induct generalizing values text with
  | case1 =>
    cases rendered
    exact .nil
  | case2 c =>
    rw [render] at rendered
    split at rendered
    next percent =>
      cases rendered
      rw [percent]
      exact .percent
    next plain =>
      cases rendered
      exact .plain plain .nil
  | case3 c k fmt plain ih =>
    rw [render_plain plain, Option.map_eq_some_iff] at rendered
    obtain ⟨⟨after, left⟩, inner, same⟩ := rendered
    cases same
    exact .plain plain (ih inner)
  | case4 c k fmt percent ih =>
    cases not_not.mp percent
    by_cases member : k ∈ directives
    · obtain _ | ⟨value, values⟩ := values
      · rw [render_missing member] at rendered
        cases rendered
      simp only [render_directive member, Option.bind_eq_some_iff] at rendered
      obtain ⟨piece, shown, ⟨after, left⟩, inner, same⟩ := rendered
      cases same
      exact .directive member shown (ih inner)
    · rw [render_other member, Option.map_eq_some_iff] at rendered
      obtain ⟨⟨after, left⟩, inner, same⟩ := rendered
      cases same
      exact .other member (ih inner)

/-! ### The length of a text -/

theorem numeral_length_le {base n k : Nat} (two : 1 < base) (digits : 0 < k) (small : n < base ^ k) :
    (numeral base n).length ≤ k := by
  rw [numeral, List.length_map]
  exact (Nat.length_toDigits_le_iff two digits).mpr small

theorem numeral_decimal_le (w : BitVec 32) : (numeral 10 w.toNat).length ≤ 10 :=
  numeral_length_le (by decide) (by decide) (by have word := w.isLt; omega)

theorem numeral_hex_le (w : BitVec 32) : (numeral 16 w.toNat).length ≤ 8 :=
  numeral_length_le (by decide) (by decide) (by have word := w.isLt; omega)

theorem signedNumeral_le (w : BitVec 32) : (signedNumeral w).length ≤ 11 := by
  have magnitude : w.toInt.natAbs < 10 ^ 10 := by
    have high := BitVec.toInt_lt (x := w)
    have low := BitVec.le_toInt w
    omega
  have digits : (numeral 10 w.toInt.natAbs).length ≤ 10 :=
    numeral_length_le (by decide) (by decide) magnitude
  unfold signedNumeral
  split
  · rw [List.length_cons]
    omega
  · omega

/-- The most characters that directive `k` shows, whatever the word. -/
def pieceBound (k : BitVec 8) : Value → Nat
  | .text cs => cs.length
  | .word _ => if k = ch 'c' then 1 else if k = ch 'd' ∨ k = ch 'i' then 11 else 10

theorem shownAs_length {k : BitVec 8} {value : Value} {piece : List (BitVec 8)}
    (member : k ∈ directives) (shown : shownAs k value = some piece) :
    piece.length ≤ pieceBound k value := by
  cases value with
  | text cs =>
    simp only [shownAs, Option.ite_none_right_eq_some, Option.some.injEq] at shown
    rw [← shown.2]
    exact Nat.le_refl _
  | word w =>
    cases wordShown member shown with
    | char => exact Nat.le_refl 1
    | signed either =>
      have bound : pieceBound k (.word w) = 11 := by rcases either with rfl | rfl <;> rfl
      rw [bound]
      exact signedNumeral_le w
    | unsigned => exact numeral_decimal_le w
    | hexadecimal either =>
      have bound : pieceBound k (.word w) = 10 := by rcases either with rfl | rfl <;> rfl
      have digits := numeral_hex_le w
      rw [bound, List.length_cons, List.length_cons]
      omega
    | bool =>
      have bound : pieceBound (ch 'b') (.word w) = 10 := rfl
      rw [bound]
      split <;> decide

/-- The most characters of a text. -/
def textBound : List (BitVec 8) → List Value → Nat
  | [], _ => 0
  | [_], _ => 1
  | c :: k :: fmt, values =>
    if c ≠ ch '%' then 1 + textBound (k :: fmt) values
    else if k ∈ directives then
      match values with
      | [] => 0
      | value :: values => pieceBound k value + textBound fmt values
    else 1 + textBound fmt values

theorem textBound_plain {c : BitVec 8} (plain : c ≠ ch '%') :
    textBound (c :: fmt) values = 1 + textBound fmt values := by
  cases fmt with
  | nil => rfl
  | cons k fmt => exact if_pos plain

theorem textBound_directive {k : BitVec 8} {value : Value} (member : k ∈ directives) :
    textBound (ch '%' :: k :: fmt) (value :: values) =
      pieceBound k value + textBound fmt values :=
  (if_neg (not_not.mpr rfl)).trans (if_pos member)

theorem textBound_other {k : BitVec 8} (other : k ∉ directives) :
    textBound (ch '%' :: k :: fmt) values = 1 + textBound fmt values :=
  (if_neg (not_not.mpr rfl)).trans (if_neg other)

theorem Renders.length_le (renders : Renders fmt values text rest) :
    text.length ≤ textBound fmt values := by
  induction renders with
  | nil => exact Nat.le_refl 0
  | percent => exact Nat.zero_le 1
  | plain c _ ih =>
    rw [textBound_plain c, List.length_cons]
    omega
  | directive member shown _ ih =>
    have piece := shownAs_length member shown
    rw [textBound_directive member, List.length_append]
    omega
  | other member _ ih =>
    rw [textBound_other member, List.length_cons]
    omega

/-! ### Formats for numbers -/

theorem textBound_words (ws : List (BitVec 32)) :
    textBound fmt (ws.map .word) = textBound fmt (List.replicate ws.length (.word 0)) := by
  induction fmt using argCount.induct generalizing ws with
  | case1 => rfl
  | case2 c => rfl
  | case3 c k fmt plain ih => rw [textBound_plain plain, textBound_plain plain, ih]
  | case4 c k fmt percent ih =>
    cases not_not.mp percent
    by_cases member : k ∈ directives
    · cases ws with
      | nil => rfl
      | cons w ws =>
        rw [List.map_cons, textBound_directive member, ih, List.length_cons,
          List.replicate_succ, textBound_directive member]
        rfl
    · rw [textBound_other member, textBound_other member, ih]

/-- No directive of the format takes a string. -/
def noStrings : List (BitVec 8) → Bool
  | [] => true
  | [_] => true
  | c :: k :: fmt => if c ≠ ch '%' then noStrings (k :: fmt) else k ≠ ch 's' && noStrings fmt

theorem shownAs_word {k : BitVec 8} (number : k ≠ ch 's') (w : BitVec 32) :
    ∃ piece, shownAs k (.word w) = some piece := by
  rw [shownAs, if_neg number]
  split
  · exact ⟨_, rfl⟩
  split
  · exact ⟨_, rfl⟩
  split
  · exact ⟨_, rfl⟩
  split <;> exact ⟨_, rfl⟩

/-- A format for numbers renders any numbers, one for each directive. -/
theorem render_words (numbers : noStrings fmt = true) {ws : List (BitVec 32)}
    (count : ws.length = argCount fmt) : ∃ text, render fmt (ws.map .word) = some (text, []) := by
  induction fmt using argCount.induct generalizing ws with
  | case1 =>
    cases List.length_eq_zero_iff.mp count
    exact ⟨[], rfl⟩
  | case2 c =>
    cases List.length_eq_zero_iff.mp count
    rw [List.map_nil, render]
    split <;> exact ⟨_, rfl⟩
  | case3 c k fmt plain ih =>
    have numbers' : noStrings (k :: fmt) = true := (if_pos plain).symm.trans numbers
    rw [argCount_plain plain] at count
    obtain ⟨text, inner⟩ := ih numbers' count
    rw [render_plain plain, inner]
    exact ⟨_, rfl⟩
  | case4 c k fmt percent ih =>
    have both : (k ≠ ch 's' && noStrings fmt) = true := (if_neg percent).symm.trans numbers
    rw [Bool.and_eq_true, decide_eq_true_eq] at both
    cases not_not.mp percent
    rw [argCount_percent] at count
    by_cases member : k ∈ directives
    · rw [if_pos member] at count
      obtain _ | ⟨w, ws⟩ := ws
      · rw [List.length_nil] at count
        omega
      rw [List.length_cons] at count
      obtain ⟨piece, shown⟩ := shownAs_word both.1 w
      obtain ⟨text, inner⟩ := ih both.2 (by omega : ws.length = argCount fmt)
      rw [List.map_cons, render_directive member, shown, Option.bind_some, inner]
      exact ⟨_, rfl⟩
    · rw [if_neg member, Nat.zero_add] at count
      obtain ⟨text, inner⟩ := ih both.2 count
      rw [render_other member, inner]
      exact ⟨_, rfl⟩

/-! ### Texts without a NUL -/

/-- No directive of the format shows a byte as it is. -/
def noBytes : List (BitVec 8) → Bool
  | [] => true
  | [_] => true
  | c :: k :: fmt => if c ≠ ch '%' then noBytes (k :: fmt) else k ≠ ch 'c' && noBytes fmt

theorem noBytes_plain {c : BitVec 8} (plain : c ≠ ch '%') : noBytes (c :: fmt) = noBytes fmt := by
  cases fmt with
  | nil => rfl
  | cons k fmt => exact if_pos plain

theorem noBytes_percent {k : BitVec 8} :
    noBytes (ch '%' :: k :: fmt) = (k ≠ ch 'c' && noBytes fmt) :=
  if_neg (not_not.mpr rfl)

/-- The strings among the values -/
def Strings (values : List Value) : Prop :=
  ∀ cs, .text cs ∈ values → ∀ c ∈ cs, c ≠ 0

theorem shownAs_text {k : BitVec 8} {value : Value} {piece : List (BitVec 8)}
    (member : k ∈ directives) (noByte : k ≠ ch 'c') (strings : Strings [value])
    (shown : shownAs k value = some piece) : ∀ c ∈ piece, c ≠ 0 := by
  cases value with
  | text cs =>
    simp only [shownAs, Option.ite_none_right_eq_some, Option.some.injEq] at shown
    rw [← shown.2]
    exact strings cs List.mem_cons_self
  | word w =>
    cases wordShown member shown with
    | char => exact absurd rfl noByte
    | signed either => exact (ltoa_converts w).2.1
    | unsigned => exact (ultoa_converts w).2.1
    | hexadecimal either => exact (ultox_converts w).2.1
    | bool => split <;> decide

theorem Renders.text_ne_zero (renders : Renders fmt values text rest) (string : ∀ c ∈ fmt, c ≠ 0)
    (bytes : noBytes fmt = true) (strings : Strings values) : ∀ c ∈ text, c ≠ 0 := by
  induction renders with
  | nil => simp
  | percent => simp
  | plain notPercent next ih =>
    rw [noBytes_plain notPercent] at bytes
    have rest := ih (fun c member => string c (List.mem_cons_of_mem _ member)) bytes strings
    exact List.forall_mem_cons.mpr ⟨string _ List.mem_cons_self, rest⟩
  | directive member shown next ih =>
    rw [noBytes_percent, Bool.and_eq_true, decide_eq_true_eq] at bytes
    have first := shownAs_text member bytes.1
      (fun cs only => strings cs (List.mem_cons.mpr (.inl (List.mem_singleton.mp only)))) shown
    have rest := ih
      (fun c member => string c (List.mem_cons_of_mem _ (List.mem_cons_of_mem _ member))) bytes.2
      fun cs member => strings cs (List.mem_cons_of_mem _ member)
    exact List.forall_mem_append.mpr ⟨first, rest⟩
  | other member next ih =>
    rw [noBytes_percent, Bool.and_eq_true] at bytes
    have rest := ih
      (fun c member => string c (List.mem_cons_of_mem _ (List.mem_cons_of_mem _ member))) bytes.2
      strings
    exact List.forall_mem_cons.mpr
      ⟨string _ (List.mem_cons_of_mem _ List.mem_cons_self), rest⟩

end Treeos
