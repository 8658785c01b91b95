import Mathlib.Data.List.TakeWhile
import Treeos.Console.Tty
import Treeos.Klibc.Vsprintf

/-!
# `vprintf`

Formatted output on the console. The text goes through a buffer of `BUF_LEN` bytes, which is
filled without regard to its size and read again up to its first NUL.
-/
namespace Treeos

open Buffer

/-- The bytes that the loop of `tty_puts_color` visits -/
def untilNulLoop (str : Object) : Nat → Nat → Option (List (BitVec 8))
  | 0, _ => none
  | fuel + 1, counter => do
    let c ← str.load counter
    if c = 0 then some [] else (untilNulLoop str fuel (counter + 1)).map (c :: ·)

def untilNul (str : Object) : Option (List (BitVec 8)) := untilNulLoop str str.size 0

/-- `vprintf`. Its buffer starts with the contents `buf`, that of `vsprintf` with `garbage`. -/
def vprintf (format : Object) (args : List Arg) (buf garbage : Nat → BitVec 8) (t : Tty) :
    Option (Except Panic (BitVec 32 × Tty)) := do
  let (buf, _, _) ← vsprintf ⟨bufLen, buf⟩ format args garbage
  let str ← untilNul buf
  some (Tty.ttyPutsColor (some str) ttyColorScreen false t)

/-- `printf` -/
def printf (format : Object) (args : List Arg) (buf garbage : Nat → BitVec 8) (t : Tty) :
    Option (Except Panic (BitVec 32 × Tty)) :=
  vprintf format args buf garbage t

/-! ### How far the printer gets -/

variable {dest src : Object} {d s : Nat}

theorem strcpyLoop_size {fuel next : Nat} {dest' : Object}
    (copied : strcpyLoop src fuel s dest d = some (dest', next)) : dest'.size = dest.size := by
  induction fuel generalizing s d dest with
  | zero => cases copied
  | succ fuel ih =>
    simp only [strcpyLoop, Option.bind_eq_bind, Option.bind_eq_some_iff] at copied
    obtain ⟨c, -, stored, store, copied⟩ := copied
    have size : stored.size = dest.size := by
      rw [Object.store, Option.ite_none_right_eq_some] at store
      cases store.2
      rfl
    split at copied
    · cases copied
      exact size
    · exact (ih copied).trans size

namespace Printer

variable {t t' : Printer} {piece : List (BitVec 8)} {k : BitVec 8}

/-- Where the printer stands behind `piece`, whether or not the piece was in bounds. -/
structure Advances (t : Printer) (piece : List (BitVec 8)) (used : Nat) (t' : Printer) :
    Prop where
  size : t'.dest.size = t.dest.size
  str : t'.str = t.str + piece.length
  buf : t'.buf.size = t.buf.size
  args : t'.args = t.args.drop used

theorem Advances.goesOn {t'' : Printer} {used : Nat} {text : List (BitVec 8)}
    (advances : Advances t piece used t')
    (rest : t''.dest.size = t'.dest.size ∧ t''.str = t'.str + text.length) :
    t''.dest.size = t.dest.size ∧ t''.str = t.str + (piece ++ text).length := by
  refine ⟨rest.1.trans advances.size, ?_⟩
  rw [rest.2, advances.str, List.length_append, Nat.add_assoc]

theorem putByte_advances {c : BitVec 8} (done : t.putByte c = some t') : Advances t [c] 0 t' := by
  rw [putByte, Object.store] at done
  split at done
  · cases done
    exact ⟨rfl, rfl, rfl, rfl⟩
  · cases done

theorem copyString_advances {s : Object} {cs : List (BitVec 8)} (holds : s.Holds 0 cs)
    (done : t.copyString s = some t') : Advances t cs 0 t' := by
  have length := strlenLoop_eq holds holds.length_lt
  rw [Nat.zero_add] at length
  simp only [copyString, Option.bind_eq_bind, Option.bind_eq_some_iff] at done
  obtain ⟨⟨dest, next⟩, copied, n, measured, same⟩ := done
  rw [strlen, length] at measured
  cases measured
  cases same
  exact ⟨strcpyLoop_size copied, rfl, rfl, rfl⟩

theorem number_advances {convert : BitVec 32 → Object → Nat → Option Object}
    {text : BitVec 32 → List (BitVec 8)} (converts : Converts convert text)
    (size : t.buf.size = bufLen) {w : BitVec 32} {args : List Arg} (next : t.args = .word w :: args)
    (done : t.number convert = some t') : Advances t (text w) 1 t' := by
  obtain ⟨fits, chars, converted⟩ := converts w
  obtain ⟨clean, cleared⟩ : ∃ clean, clean = t.buf.put 0 (List.replicate bufLen 0) := ⟨_, rfl⟩
  have bound : clean.size = bufLen := by rw [cleared, Object.size_put, size]
  have holds : (clean.put 0 (text w ++ [0])).Holds 0 (text w) :=
    Object.holds_put (by rw [bound, Nat.zero_add]; exact fits) chars
  rw [number, clearBuf, if_pos (Nat.le_of_eq size.symm), ← cleared] at done
  simp only [Option.bind_eq_bind, Option.bind_some, next, vaWord] at done
  rw [converted clean bound] at done
  simp only [Option.bind_some] at done
  have copied := copyString_advances holds done
  refine ⟨copied.size, copied.str, copied.buf.trans (bound.trans size.symm), ?_⟩
  rw [copied.args, next]
  rfl

/-- A directive that returns advances by what it shows of its argument. -/
theorem directive_advances (size : t.buf.size = bufLen) {arg : Arg} {args : List Arg}
    {value : Value} (next : t.args = arg :: args) (kind : ArgHolds arg value)
    (member : k ∈ directives) (shown : shownAs k value = some piece)
    (done : t.directive k = some t') : Advances t piece 1 t' := by
  -- only %s takes a string, and all other directives a word
  cases kind with
  | @text s cs holds =>
    simp only [shownAs, Option.ite_none_right_eq_some, Option.some.injEq] at shown
    obtain ⟨rfl, rfl⟩ := shown
    rw [directive_string, next, vaPointer] at done
    have copied := copyString_advances holds done
    refine ⟨copied.size, copied.str, copied.buf, ?_⟩
    rw [copied.args, next]
    rfl
  | word w =>
    cases wordShown member shown with
    | char =>
      rw [directive_char, next, vaWord] at done
      have put := putByte_advances done
      refine ⟨put.size, put.str, put.buf, ?_⟩
      rw [put.args, next]
      rfl
    | signed either =>
      rw [directive_signed t either] at done
      exact number_advances ltoa_converts size next done
    | unsigned =>
      rw [directive_unsigned] at done
      exact number_advances ultoa_converts size next done
    | hexadecimal either =>
      rw [directive_hexadecimal t either] at done
      exact number_advances ultox_converts size next done
    | bool =>
      rw [directive_bool, clearBuf, if_pos (Nat.le_of_eq size.symm)] at done
      simp only [Option.bind_some, next, vaWord, Option.bind_eq_some_iff] at done
      obtain ⟨⟨dest, place⟩, copied, same⟩ := done
      cases same
      have length : ((if w ≠ 0 then "true" else "false").toList.map ch).length =
          if w ≠ 0 then 4 else 5 := by
        split <;> decide
      refine ⟨strcpyLoop_size copied, ?_, Object.size_put, ?_⟩
      · rw [length]
      · rw [next]
        rfl

/-- A loop that returns has advanced by the text of the format. -/
theorem vsprintfLoop_advances {format : Object} {fmt : List (BitVec 8)} {f fuel : Nat}
    (holds : format.Holds f fmt) (size : t.buf.size = bufLen) {values rest : List Value}
    (kinds : List.Forall₂ ArgHolds t.args values) {text : List (BitVec 8)}
    (rendered : render fmt values = some (text, rest))
    (loop : vsprintfLoop format fuel f t = some t') :
    t'.dest.size = t.dest.size ∧ t'.str = t.str + text.length := by
  obtain _ | fuel := fuel
  · cases loop
  -- the format is read as argCount does: its end, a last character, plain ones, directives
  induction fmt using argCount.induct generalizing f fuel t values text with
  | case1 =>
    rw [Object.Holds] at holds
    cases rendered
    rw [vsprintfLoop_nul holds] at loop
    cases loop
    exact ⟨rfl, rfl⟩
  | case2 c =>
    obtain ⟨first, char, last⟩ := holds
    rw [Object.Holds] at last
    rw [render] at rendered
    split at rendered
    next percent =>
      cases rendered
      rw [percent] at first
      rw [vsprintfLoop_percent first last] at loop
      cases loop
      exact ⟨rfl, rfl⟩
    next plain =>
      cases rendered
      rw [vsprintfLoop_plain first char plain] at loop
      obtain ⟨u, put, loop⟩ := Option.bind_eq_some_iff.mp loop
      obtain _ | fuel := fuel
      · cases loop
      rw [vsprintfLoop_nul last] at loop
      cases loop
      have advances := putByte_advances put
      exact ⟨advances.size, advances.str⟩
  | case3 c k fmt plain ih =>
    obtain ⟨first, char, last⟩ := holds
    rw [render_plain plain, Option.map_eq_some_iff] at rendered
    obtain ⟨⟨after, left⟩, inner, same⟩ := rendered
    cases same
    rw [vsprintfLoop_plain first char plain] at loop
    obtain ⟨u, put, loop⟩ := Option.bind_eq_some_iff.mp loop
    have advances := putByte_advances put
    have kinds' : List.Forall₂ ArgHolds u.args values := by rw [advances.args]; exact kinds
    obtain _ | fuel := fuel
    · cases loop
    exact advances.goesOn (ih last (advances.buf.trans size) kinds' inner fuel loop)
  | case4 c k fmt percent ih =>
    obtain ⟨first, -, next, char, last⟩ := holds
    cases not_not.mp percent
    rw [vsprintfLoop_directive first next char] at loop
    obtain ⟨u, done, loop⟩ := Option.bind_eq_some_iff.mp loop
    obtain _ | fuel := fuel
    · cases loop
    by_cases member : k ∈ directives
    · obtain _ | ⟨value, values⟩ := values
      · rw [render_missing member] at rendered
        cases rendered
      obtain ⟨arg, args, kind, others, given⟩ := List.forall₂_cons_right_iff.mp kinds
      simp only [render_directive member, Option.bind_eq_some_iff] at rendered
      obtain ⟨piece, shown, ⟨after, left⟩, inner, same⟩ := rendered
      cases same
      have advances := directive_advances size given kind member shown done
      have kinds' : List.Forall₂ ArgHolds u.args values := by
        rw [advances.args, given]
        exact others
      exact advances.goesOn (ih last (advances.buf.trans size) kinds' inner fuel loop)
    · rw [render_other member, Option.map_eq_some_iff] at rendered
      obtain ⟨⟨after, left⟩, inner, same⟩ := rendered
      cases same
      rw [directive_other t member] at done
      have advances := putByte_advances done
      have kinds' : List.Forall₂ ArgHolds u.args values := by rw [advances.args]; exact kinds
      exact advances.goesOn (ih last (advances.buf.trans size) kinds' inner fuel loop)

end Printer

/-- Where `vsprintf` returns, its text was in bounds with the NUL. -/
theorem vsprintf_fits {dest format : Object} {fmt : List (BitVec 8)} {args : List Arg}
    {values rest : List Value} {text : List (BitVec 8)} (string : format.Holds 0 fmt)
    (kinds : List.Forall₂ ArgHolds args values) (rendered : render fmt values = some (text, rest))
    {garbage : Nat → BitVec 8} {result : Object × Nat × List Arg}
    (returned : vsprintf dest format args garbage = some result) : text.length < dest.size := by
  simp only [vsprintf, Option.bind_eq_bind, Option.bind_eq_some_iff] at returned
  obtain ⟨t', loop, stored, store, -⟩ := returned
  obtain ⟨size, place⟩ := Printer.vsprintfLoop_advances
    (t := ⟨dest, 0, ⟨bufLen, garbage⟩, args⟩) string rfl kinds rendered loop
  rw [Object.store, Option.ite_none_right_eq_some, size, place, Nat.zero_add] at store
  exact store.1

/-! ### What the console gets -/

/-- The console gets the text up to its first NUL. -/
theorem untilNulLoop_put {b : Object} {p fuel : Nat} {text : List (BitVec 8)}
    (room : p + text.length < b.size) (enough : text.length < fuel) :
    untilNulLoop (b.put p (text ++ [0])) fuel p = some (text.takeWhile (· ≠ 0)) := by
  induction text generalizing b p fuel with
  | nil =>
    obtain _ | fuel := fuel
    · cases enough
    rw [List.length_nil, Nat.add_zero] at room
    have first : (b.put p [0]).load p = some 0 := by
      rw [Object.load_of_lt (by rw [Object.size_put]; exact room)]
      exact congrArg some (Object.bytes_put (q := 0) (by simp))
    simp only [List.nil_append, untilNulLoop, first, Option.bind_eq_bind, Option.bind_some, if_true,
      List.takeWhile_nil]
  | cons c text ih =>
    obtain _ | fuel := fuel
    · cases enough
    rw [List.length_cons] at room enough
    have first : (b.put p (c :: text ++ [0])).load p = some c := by
      rw [Object.load_of_lt (by rw [Object.size_put]; omega)]
      exact congrArg some (Object.bytes_put (q := 0) (by simp))
    have next := ih (b := b.put p [c]) (p := p + 1) (by rw [Object.size_put]; omega)
      (Nat.lt_of_succ_lt_succ enough)
    rw [Object.put_cons] at next
    simp only [untilNulLoop, first, Option.bind_eq_bind, Option.bind_some]
    by_cases zero : c = 0
    · rw [if_pos zero, List.takeWhile_cons_of_neg (by simpa using zero)]
    · rw [if_neg zero, List.cons_append, next, List.takeWhile_cons_of_pos (by simpa using zero)]
      rfl

/-- `vprintf`, for a text that fits -/
theorem vprintf_eq {format : Object} {fmt : List (BitVec 8)} {args : List Arg}
    {values rest : List Value} {text : List (BitVec 8)} (string : format.Holds 0 fmt)
    (kinds : List.Forall₂ ArgHolds args values) (rendered : render fmt values = some (text, rest))
    (fits : text.length < bufLen) (buf garbage : Nat → BitVec 8) (t : Tty) :
    vprintf format args buf garbage t = some (Tty.ttyPutsColor (some (text.takeWhile (· ≠ 0)))
      ttyColorScreen false t) := by
  obtain ⟨b, object⟩ : ∃ b : Object, b = ⟨bufLen, buf⟩ := ⟨_, rfl⟩
  have size : b.size = bufLen := by rw [object]
  have inside : 0 + text.length < b.size := by rwa [size, Nat.zero_add]
  have fits' : text.length < b.size := by rwa [size]
  have printed := (vsprintf_renders string kinds rendered fits' garbage).2
  have seen := untilNulLoop_put inside fits'
  rw [object] at printed seen
  simp only [vprintf, printed, Option.bind_eq_bind, Option.bind_some, untilNul, Object.size_put,
    seen]

namespace Tty

variable {t : Tty}

theorem stores_length {place : Nat → Nat} {value : Tty → Nat → BitVec 16} {n : Nat} :
    (t.stores place value n).written.length = t.written.length + n := by
  induction n with
  | zero => rfl
  | succ n ih =>
    rw [stores_succ, store, List.length_cons, ih, Nat.add_assoc]

theorem advanceRow_length : t.written.length ≤ (advanceRow t).written.length := by
  rw [advanceRow]
  split
  · simp only [scroll, stores_length]
    omega
  · exact Nat.le_refl _

theorem updateCursor_written : (updateCursor t).written = t.written := rfl

/-- A character that is stored, at most with a new row behind it. -/
theorem putchar_stored_length {c : BitVec 32} (newline : c ≠ 10) (tab : c ≠ 9)
    (color : BitVec 8) : t.written.length < (ttyPutcharColor c color t).2.written.length := by
  rw [ttyPutcharColor, if_neg newline, if_neg tab, updateCursor_written]
  generalize c.setWidth 16 ||| color.setWidth 16 <<< 8 = value
  have stored : (t.store (t.row * vgaWidth + t.col) value).written.length =
      t.written.length + 1 := rfl
  generalize t.store (t.row * vgaWidth + t.col) value = u at stored ⊢
  dsimp only
  split
  · have row := advanceRow_length (t := { u with col := 0 })
    dsimp only at row
    omega
  · dsimp only
    omega

theorem putchar_length (c : BitVec 32) (color : BitVec 8) :
    t.written.length ≤ (ttyPutcharColor c color t).2.written.length := by
  by_cases newline : c = 10
  · rw [ttyPutcharColor, if_pos newline, updateCursor_written]
    exact advanceRow_length (t := { t with col := 0 })
  by_cases tab : c = 9
  · rw [ttyPutcharColor, if_neg newline, if_pos tab, updateCursor_written]
    split
    · exact advanceRow_length (t := { t with col := 0 })
    · exact Nat.le_refl _
  · exact Nat.le_of_lt (putchar_stored_length newline tab color)

theorem ttyPrint_length (signed : Bool) (text : List (BitVec 8 × BitVec 8)) :
    t.written.length ≤ (ttyPrint signed t text).written.length := by
  induction text generalizing t with
  | nil => exact Nat.le_refl _
  | cons b text ih => exact Nat.le_trans (putchar_length _ _) ih

theorem ttyPrint_append (signed : Bool) (text more : List (BitVec 8 × BitVec 8)) :
    ttyPrint signed t (text ++ more) = ttyPrint signed (ttyPrint signed t text) more :=
  List.foldl_append

/-- What stops in front of a NUL shows less than the whole text. -/
theorem ttyPrint_cut {text : List (BitVec 8)} (nul : 0 ∈ text) (color : BitVec 8) :
    ttyPrint true t ((text.takeWhile (· ≠ 0)).map fun b => (b, color)) ≠
      ttyPrint true t (text.map fun b => (b, color)) := by
  obtain ⟨front, after, rfl, first⟩ := List.eq_append_cons_of_mem nul
  have stops : (front ++ 0 :: after).takeWhile (· ≠ 0) = front := by
    rw [List.takeWhile_append_of_pos, List.takeWhile_cons_of_neg (by simp), List.append_nil]
    intro c member
    exact decide_eq_true fun zero => first (zero ▸ member)
  intro same
  rw [stops, List.map_append, ttyPrint_append, List.map_cons] at same
  generalize ttyPrint true t (front.map fun b => (b, color)) = u at same
  -- the NUL would have been stored into one more cell
  have stored : u.written.length < (ttyPutcharColor 0 color u).2.written.length :=
    putchar_stored_length (by decide) (by decide) color
  have later := ttyPrint_length true (after.map fun b => (b, color))
    (t := (ttyPutcharColor 0 color u).2)
  have lengths := congrArg (fun t => t.written.length) same
  have zero : widen true 0 = 0 := by decide
  simp only [ttyPrint, List.foldl_cons, zero] at lengths later
  omega

end Tty

/-- `printf` stays inside of its buffer and shows its text byte by byte exactly when the text
is shorter than the buffer and has no NUL. -/
theorem printf_shows_iff {format : Object} {fmt : List (BitVec 8)} {args : List Arg}
    {values rest : List Value} {text : List (BitVec 8)} (string : format.Holds 0 fmt)
    (kinds : List.Forall₂ ArgHolds args values) (rendered : render fmt values = some (text, rest))
    (buf garbage : Nat → BitVec 8) (t : Tty) :
    (∃ n, printf format args buf garbage t =
      some (.ok (n, Tty.ttyPrint true t (text.map fun b => (b, ttyColorScreen))))) ↔
      text.length < 512 ∧ 0 ∉ text := by
  constructor
  · rintro ⟨n, shown⟩
    have returned := shown
    simp only [printf, vprintf, Option.bind_eq_bind, Option.bind_eq_some_iff] at returned
    obtain ⟨result, printed, -⟩ := returned
    have fits := vsprintf_fits string kinds rendered printed
    refine ⟨fits, fun nul => Tty.ttyPrint_cut (t := t) nul ttyColorScreen ?_⟩
    rw [printf, vprintf_eq string kinds rendered fits, Tty.ttyPutsColor_eq] at shown
    simp only [Option.some.injEq, Except.ok.injEq, Prod.mk.injEq] at shown
    simpa using shown.2
  · rintro ⟨fits, plain⟩
    have whole : text.takeWhile (· ≠ 0) = text :=
      List.takeWhile_eq_self_iff.mpr fun c member =>
        decide_eq_true fun zero => plain (zero ▸ member)
    refine ⟨BitVec.ofNat 32 (text.length + 0), ?_⟩
    rw [printf, vprintf_eq string kinds rendered fits, Tty.ttyPutsColor_eq, whole]
    simp

/-- A screen as the boot loader may leave it -/
def bootScreen : Tty := ⟨fun _ => 0, 0, 0, fun _ => 0, []⟩

-- the amount of lower memory, as `pmm_init` prints it
theorem printf_memLower :
    ∃ n, printf (Printer.literal "mem_lower = %u KiB\n") [.word 639] (fun _ => 0) (fun _ => 0)
      bootScreen = some (.ok (n, Tty.ttyPrint true bootScreen
        (("mem_lower = 639 KiB\n".toList.map ch).map fun b => (b, ttyColorScreen)))) := by
  have string : (Printer.literal "mem_lower = %u KiB\n").Holds 0
      ("mem_lower = %u KiB\n".toList.map ch) := by decide
  have rendered : render ("mem_lower = %u KiB\n".toList.map ch) [.word 639] =
      some ("mem_lower = 639 KiB\n".toList.map ch, []) := by decide
  exact (printf_shows_iff string (.cons (.word _) .nil) rendered _ _ _).mpr (by decide)

/-- The text for a module's command line, in `module_table_init` -/
def cmdlineFormat : String := "      cmdline   = %p (\"%s\")\n"

theorem render_cmdline (line : List (BitVec 8)) :
    render (cmdlineFormat.toList.map ch) [.word 0x10000, .text line] =
      some ("      cmdline   = 0x10000 (\"".toList.map ch ++ (line ++ "\")\n".toList.map ch), []) := by
  rfl

-- a command line of 512 characters leaves the buffer
theorem printf_longLine :
    let line := List.replicate 512 (ch 'x')
    let cmdline : Object := (⟨513, fun _ => 0⟩ : Object).put 0 (line ++ [0])
    cmdline.Holds 0 line ∧
      render (cmdlineFormat.toList.map ch) [.word 0x10000, .text line] =
        some ("      cmdline   = 0x10000 (\"".toList.map ch ++ (line ++ "\")\n".toList.map ch), []) ∧
      printf (Printer.literal cmdlineFormat) [.word 0x10000, .pointer cmdline] (fun _ => 0)
        (fun _ => 0) bootScreen = none := by
  intro line cmdline
  have length : line.length = 512 := List.length_replicate
  have text : ∀ c ∈ line, c ≠ 0 := by
    intro c member
    rw [List.eq_of_mem_replicate member]
    decide
  have holds : cmdline.Holds 0 line :=
    Object.holds_put (by rw [length]; exact Nat.lt_succ_self 512) text
  have string : (Printer.literal cmdlineFormat).Holds 0 (cmdlineFormat.toList.map ch) := by decide
  refine ⟨holds, render_cmdline line, ?_⟩
  by_contra some
  obtain ⟨result, shown⟩ := Option.ne_none_iff_exists'.mp some
  simp only [printf, vprintf, Option.bind_eq_bind, Option.bind_eq_some_iff] at shown
  obtain ⟨result, printed, -⟩ := shown
  have fits := vsprintf_fits string (.cons (.word _) (.cons (.text holds) .nil))
    (render_cmdline line) printed
  rw [List.length_append, List.length_append, length] at fits
  unfold bufLen at fits
  dsimp only at fits
  omega

end Treeos
