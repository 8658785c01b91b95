import Mathlib.Algebra.Group.Nat.Defs
import Mathlib.Data.List.Forall2
import Treeos.Lib.Buffer

/-!
# `vsprintf`

The formatter of `klibc`, with the string functions it calls. Every buffer is an object of
its own, and an access outside of it has no result.
-/
namespace Treeos

open Buffer

-- a character constant
def ch (c : Char) : BitVec 8 := BitVec.ofNat 8 c.toNat

/-! ### Strings -/

/-- The loop of `strcpy`, from place `s` of the source to place `d` -/
def strcpyLoop (src : Object) : Nat → Nat → Object → Nat → Option (Object × Nat)
  | 0, _, _, _ => none
  | fuel + 1, s, dest, d => do
    let c ← src.load s
    let dest ← dest.store d c
    if c = 0 then some (dest, d + 1) else strcpyLoop src fuel (s + 1) dest (d + 1)

/-- `strcpy`, which returns the place behind the NUL -/
def strcpy (dest : Object) (d : Nat) (src : Object) : Option (Object × Nat) :=
  strcpyLoop src src.size 0 dest d

def strlenLoop (str : Object) : Nat → Nat → Option Nat
  | 0, _ => none
  | fuel + 1, tmp => do
    let c ← str.load tmp
    if c = 0 then some tmp else strlenLoop str fuel (tmp + 1)

/-- `strlen` -/
def strlen (str : Object) : Option Nat := strlenLoop str str.size 0

/-! ### Numbers -/

/-- The digits of `value` from place `p` on, the last one first. The loop may take `fuel`
rounds. -/
def digitLoop (base : BitVec 32) (digit : BitVec 32 → BitVec 8) (p : Nat) :
    Nat → BitVec 32 → Nat → Object → Option (Nat × Object)
  | 0, _, _, _ => none
  | fuel + 1, value, numDigits, buf => do
    let buf ← buf.store (p + numDigits) (digit (value % base))
    if 0 < value / base then digitLoop base digit p fuel (value / base) (numDigits + 1) buf
    else some (numDigits + 1, buf)

-- one exchange of the loop behind it
def swapDigits (p numDigits : Nat) (buf : Object) (i : Nat) : Option Object := do
  let swap := numDigits - (i + 1)
  let tmp ← buf.load (p + i)
  let other ← buf.load (p + swap)
  let buf ← buf.store (p + i) other
  buf.store (p + swap) tmp

/-- What `ultoa` and `ultox` have in common. A 32-bit value has at most 32 digits. -/
def writeDigits (base : BitVec 32) (digit : BitVec 32 → BitVec 8) (value : BitVec 32)
    (buf : Object) (p : Nat) : Option Object := do
  let (numDigits, buf) ← digitLoop base digit p 32 value 0 buf
  let buf ← (List.range (numDigits / 2)).foldlM (swapDigits p numDigits) buf
  buf.store (p + numDigits) 0

/-- `ultoa` -/
def ultoa (value : BitVec 32) (buf : Object) (p : Nat) : Option Object :=
  writeDigits 10 (fun d => (d + 48).setWidth 8) value buf p

def hexArray : List (BitVec 8) := "0123456789ABCDEF".toList.map ch

/-- `ultox` -/
def ultox (value : BitVec 32) (buf : Object) (p : Nat) : Option Object := do
  let buf ← buf.store p (ch '0')
  let buf ← buf.store (p + 1) (ch 'x')
  writeDigits 16 (fun d => hexArray.getD d.toNat 0) value buf (p + 2)

/-- `ltoa`, with a negation that wraps around -/
def ltoa (value : BitVec 32) (buf : Object) (p : Nat) : Option Object :=
  if value.slt 0 then do
    let buf ← buf.store p (ch '-')
    ultoa (-value) buf (p + 1)
  else ultoa value buf p

/-! ### The formatter -/

/-- An argument: a word, or a pointer to the first byte of an object. -/
inductive Arg where
  | word (w : BitVec 32)
  | pointer (s : Object)

def vaWord : List Arg → Option (BitVec 32 × List Arg)
  | .word w :: args => some (w, args)
  | _ => none

def vaPointer : List Arg → Option (Object × List Arg)
  | .pointer s :: args => some (s, args)
  | _ => none

def bufLen : Nat := 512

/-- What the loop of `vsprintf` works on: `str` is the next place of the destination. -/
structure Printer where
  dest : Object
  str : Nat
  buf : Object
  args : List Arg

namespace Printer

-- `memset(buf, 0, BUF_LEN)`
def clearBuf (t : Printer) : Option Printer :=
  if bufLen ≤ t.buf.size then some { t with buf := t.buf.put 0 (List.replicate bufLen 0) } else none

-- `strcpy(str, s); str += strlen(s);`
def copyString (t : Printer) (s : Object) : Option Printer := do
  let (dest, _) ← strcpy t.dest t.str s
  let length ← strlen s
  some { t with dest := dest, str := t.str + length }

-- `*str++ = c`
def putByte (t : Printer) (c : BitVec 8) : Option Printer := do
  let dest ← t.dest.store t.str c
  some { t with dest := dest, str := t.str + 1 }

/-- A number, through the local buffer -/
def number (t : Printer) (convert : BitVec 32 → Object → Nat → Option Object) :
    Option Printer := do
  let t ← t.clearBuf
  let (value, args) ← vaWord t.args
  let buf ← convert value t.buf 0
  copyString { t with buf := buf, args := args } buf

-- a string constant
def literal (s : String) : Object where
  size := s.length + 1
  bytes := fun i => (s.toList.map ch).getD i 0

/-- The `switch` of `vsprintf` -/
def directive (t : Printer) (k : BitVec 8) : Option Printer :=
  if k = ch 's' then do
    let (s, args) ← vaPointer t.args
    copyString { t with args := args } s
  else if k = ch 'c' then do
    let (c, args) ← vaWord t.args
    putByte { t with args := args } (c.setWidth 8)
  else if k = ch 'd' ∨ k = ch 'i' then t.number ltoa
  else if k = ch 'u' then t.number ultoa
  else if k = ch 'x' ∨ k = ch 'p' then t.number ultox
  else if k = ch 'b' then do
    let t ← t.clearBuf
    let (b, args) ← vaWord t.args
    let (dest, _) ← strcpy t.dest t.str (literal (if b ≠ 0 then "true" else "false"))
    some { t with dest := dest, str := t.str + (if b ≠ 0 then 4 else 5), args := args }
  else t.putByte k

end Printer

/-- The loop of `vsprintf`, at place `f` of the format -/
def vsprintfLoop (format : Object) : Nat → Nat → Printer → Option Printer
  | 0, _, _ => none
  | fuel + 1, f, t => do
    let c ← format.load f
    if c = 0 then some t
    else if c = ch '%' then
      let k ← format.load (f + 1)
      -- Read this condition carefully!
      if k = 0 then some t
      else
        let t ← t.directive k
        vsprintfLoop format fuel (f + 2) t
    else
      let t ← t.putByte c
      vsprintfLoop format fuel (f + 1) t

/-- `vsprintf`: the destination, the value it returns, and the arguments that are left. The
local buffer starts with any contents. -/
def vsprintf (dest format : Object) (args : List Arg) (garbage : Nat → BitVec 8) :
    Option (Object × Nat × List Arg) := do
  let t ← vsprintfLoop format format.size 0 ⟨dest, 0, ⟨bufLen, garbage⟩, args⟩
  let dest ← t.dest.store t.str 0
  some (dest, t.str, t.args)

/-! ### What the string functions do -/

variable {b dest src : Object} {p d s : Nat} {cs ws : List (BitVec 8)}

theorem strcpyLoop_eq {fuel : Nat} (holds : src.Holds s cs) (enough : cs.length < fuel)
    (room : d + cs.length < dest.size) :
    strcpyLoop src fuel s dest d = some (dest.put d (cs ++ [0]), d + cs.length + 1) := by
  induction cs generalizing fuel s d dest with
  | nil =>
    obtain _ | fuel := fuel
    · cases enough
    · rw [Object.Holds] at holds
      rw [List.length_nil, Nat.add_zero] at room
      simp [strcpyLoop, holds, Object.store_of_lt room]
  | cons c cs ih =>
    obtain _ | fuel := fuel
    · cases enough
    · obtain ⟨first, text, rest⟩ := holds
      rw [List.length_cons] at enough room
      have room' : d + 1 + cs.length < (dest.put d [c]).size := by
        rw [Object.size_put]
        omega
      have next := ih rest (Nat.lt_of_succ_lt_succ enough) room'
      rw [Object.put_cons] at next
      simp only [strcpyLoop, first, Object.store_of_lt (show d < dest.size by omega),
        Option.bind_eq_bind, Option.bind_some, if_neg text, next]
      simp only [List.length_cons, List.cons_append]
      rw [show d + 1 + cs.length + 1 = d + (cs.length + 1) + 1 by omega]

theorem strlenLoop_eq {fuel : Nat} (holds : src.Holds s cs) (enough : cs.length < fuel) :
    strlenLoop src fuel s = some (s + cs.length) := by
  induction cs generalizing fuel s with
  | nil =>
    obtain _ | fuel := fuel
    · cases enough
    · rw [Object.Holds] at holds
      simp [strlenLoop, holds]
  | cons c cs ih =>
    obtain _ | fuel := fuel
    · cases enough
    · obtain ⟨first, text, rest⟩ := holds
      rw [List.length_cons] at enough
      simp only [strlenLoop, first, Option.bind_eq_bind, Option.bind_some, if_neg text,
        ih rest (Nat.lt_of_succ_lt_succ enough), List.length_cons]
      rw [show s + 1 + cs.length = s + (cs.length + 1) by omega]

/-! ### Numerals -/

/-- The canonical numeral of `n`, in upper case -/
def numeral (base n : Nat) : List (BitVec 8) := (Nat.toDigits base n).map fun c => ch c.toUpper

theorem numeral_of_lt {base n : Nat} (small : n < base) :
    numeral base n = [ch (Nat.digitChar n).toUpper] := by
  rw [numeral, Nat.toDigits_of_lt_base small]
  rfl

theorem numeral_of_le {base n : Nat} (two : 1 < base) (large : base ≤ n) :
    numeral base n = numeral base (n / base) ++ [ch (Nat.digitChar (n % base)).toUpper] := by
  rw [numeral, Nat.toDigits_of_base_le two large, List.map_append]
  rfl

theorem digit_ne_zero {n : Nat} (small : n < 16) : ch (Nat.digitChar n).toUpper ≠ 0 := by
  revert n
  decide

theorem numeral_text {base : Nat} (two : 1 < base) (sixteen : base ≤ 16) (n : Nat) :
    ∀ c ∈ numeral base n, c ≠ 0 := by
  induction n using Nat.strongRecOn with
  | ind n ih =>
    intro c member
    rcases Nat.lt_or_ge n base with small | large
    · rw [numeral_of_lt small, List.mem_singleton] at member
      exact member ▸ digit_ne_zero (by omega)
    · rw [numeral_of_le two large, List.mem_append, List.mem_singleton] at member
      rcases member with front | rfl
      · exact ih (n / base) (Nat.div_lt_self (by omega) two) c front
      · have last := Nat.mod_lt n (show base > 0 by omega)
        exact digit_ne_zero (by omega)

/-- The digits of a value come out last one first. -/
theorem digitLoop_eq {base : BitVec 32} {digit : BitVec 32 → BitVec 8} (two : 1 < base.toNat)
    (digits : ∀ v : BitVec 32, v.toNat < base.toNat →
      digit v = ch (Nat.digitChar v.toNat).toUpper)
    {fuel numDigits : Nat} {value : BitVec 32} (enough : value.toNat < base.toNat ^ fuel)
    (room : p + numDigits + (numeral base.toNat value.toNat).length ≤ b.size) :
    digitLoop base digit p (fuel + 1) value numDigits b =
      some (numDigits + (numeral base.toNat value.toNat).length,
        b.put (p + numDigits) (numeral base.toNat value.toNat).reverse) := by
  -- every round divides the value, which is below a power of the base
  induction fuel generalizing value numDigits b with
  | zero =>
    have zero : value.toNat = 0 := by simpa using enough
    have small : value.toNat < base.toNat := by omega
    have quotient : (value / base).toNat = 0 := by
      rw [BitVec.toNat_udiv, Nat.div_eq_of_lt small]
    have remainder : value % base = value := by
      apply BitVec.eq_of_toNat_eq
      rw [BitVec.toNat_umod, Nat.mod_eq_of_lt small]
    rw [numeral_of_lt small] at room ⊢
    rw [List.length_singleton] at room
    have done : ¬0 < value / base := by
      rw [BitVec.lt_def, quotient]
      decide
    rw [digitLoop, remainder, Object.store_of_lt (by omega), digits value small]
    simp only [Option.bind_eq_bind, Option.bind_some]
    rw [if_neg done]
    rfl
  | succ fuel ih =>
    have quotient : (value / base).toNat = value.toNat / base.toNat := BitVec.toNat_udiv
    have remainder : (value % base).toNat = value.toNat % base.toNat := BitVec.toNat_umod
    have last := digits (value % base) (by rw [remainder]; exact Nat.mod_lt _ (by omega))
    rw [remainder] at last
    have pos : 0 < (numeral base.toNat value.toNat).length := by
      rw [numeral, List.length_map]
      exact Nat.length_toDigits_pos
    rw [digitLoop, last, Object.store_of_lt (by omega)]
    simp only [Option.bind_eq_bind, Option.bind_some]
    rcases Nat.lt_or_ge value.toNat base.toNat with small | large
    · have done : ¬0 < value / base := by
        rw [BitVec.lt_def, quotient, Nat.div_eq_of_lt small]
        decide
      rw [if_neg done, numeral_of_lt small, Nat.mod_eq_of_lt small]
      rfl
    · have more : 0 < value / base := by
        rw [BitVec.lt_def, quotient]
        exact Nat.div_pos large (by omega)
      rw [numeral_of_le two large, List.length_append, List.length_singleton] at room ⊢
      rw [if_pos more, ← quotient, ih]
      · rw [List.reverse_append, List.reverse_singleton, List.singleton_append, ← Nat.add_assoc p]
        rw [Object.put_cons, show numDigits + 1 + (numeral base.toNat (value / base).toNat).length =
          numDigits + ((numeral base.toNat (value / base).toNat).length + 1) by omega]
      · rw [quotient]
        exact Nat.div_lt_of_lt_mul (by rwa [Nat.pow_succ, Nat.mul_comm] at enough)
      · rw [Object.size_put, quotient]
        omega

/-! ### The reversal in place -/

/-- The list `ws` with its first and last `i` elements exchanged -/
def swapped (ws : List (BitVec 8)) (i : Nat) : List (BitVec 8) :=
  (List.range ws.length).map fun j =>
    if j < i ∨ ws.length - i ≤ j then ws.getD (ws.length - 1 - j) 0 else ws.getD j 0

theorem swapped_length (i : Nat) : (swapped ws i).length = ws.length := by
  rw [swapped, List.length_map, List.length_range]

theorem swapped_getElem {i j : Nat} (bound : j < (swapped ws i).length) :
    (swapped ws i)[j] =
      if j < i ∨ ws.length - i ≤ j then ws.getD (ws.length - 1 - j) 0 else ws.getD j 0 := by
  simp only [swapped, List.getElem_map, List.getElem_range]

theorem swapped_zero : swapped ws 0 = ws := by
  apply List.ext_getElem (swapped_length 0)
  intro j bound inside
  rw [swapped_getElem, if_neg (by omega), List.getD_eq_getElem _ _ inside]

/-- In the middle, everything is exchanged. -/
theorem swapped_half : swapped ws (ws.length / 2) = ws.reverse := by
  apply List.ext_getElem (by rw [swapped_length, List.length_reverse])
  intro j bound inside
  rw [List.length_reverse] at inside
  rw [swapped_getElem, List.getElem_reverse]
  split
  next out => exact List.getD_eq_getElem _ _ (by omega)
  next middle =>
    rw [List.getD_eq_getElem _ _ inside]
    congr 1
    omega

/-- One round of the loop exchanges one more pair. -/
theorem swapDigits_eq {i : Nat} (pair : i < ws.length / 2) (room : p + ws.length ≤ b.size) :
    swapDigits p ws.length (b.put p (swapped ws i)) i = some (b.put p (swapped ws (i + 1))) := by
  have size : (swapped ws i).length = ws.length := swapped_length i
  have low : i < (swapped ws i).length := by omega
  have high : ws.length - (i + 1) < (swapped ws i).length := by omega
  have load {j : Nat} (bound : j < (swapped ws i).length) (middle : i ≤ j ∧ j < ws.length - i) :
      (b.put p (swapped ws i)).load (p + j) = some (ws.getD j 0) := by
    rw [Object.load_of_lt (by rw [Object.size_put]; omega), Object.bytes_put bound,
      swapped_getElem, if_neg (by omega)]
  have pairs : ((swapped ws i).set i (ws.getD (ws.length - (i + 1)) 0)).set
      (ws.length - (i + 1)) (ws.getD i 0) = swapped ws (i + 1) := by
    apply List.ext_getElem
    · rw [List.length_set, List.length_set, size, swapped_length]
    · intro j bound inside
      rw [List.getElem_set, List.getElem_set]
      by_cases upper : ws.length - (i + 1) = j
      · rw [if_pos upper, swapped_getElem, if_pos (by omega),
          show ws.length - 1 - j = i by omega]
      · rw [if_neg upper]
        by_cases lower : i = j
        · rw [if_pos lower, swapped_getElem, if_pos (by omega),
            show ws.length - 1 - j = ws.length - (i + 1) by omega]
        · rw [List.length_set, List.length_set, size] at bound
          rw [if_neg lower, swapped_getElem, swapped_getElem]
          exact if_congr (by omega) rfl rfl
  rw [swapDigits, load low (by omega)]
  simp only [Option.bind_eq_bind, Option.bind_some]
  rw [load high (by omega)]
  simp only [Option.bind_some]
  rw [Object.store_of_lt (by rw [Object.size_put]; omega)]
  simp only [Option.bind_some]
  rw [Object.put_set low, Object.store_of_lt (by rw [Object.size_put]; omega),
    Object.put_set (by rw [List.length_set]; exact high), pairs]

theorem swapLoop_eq (room : p + ws.length ≤ b.size) :
    (List.range (ws.length / 2)).foldlM (swapDigits p ws.length) (b.put p ws) =
      some (b.put p ws.reverse) := by
  have rounds (n : Nat) (half : n ≤ ws.length / 2) :
      (List.range n).foldlM (swapDigits p ws.length) (b.put p ws) =
        some (b.put p (swapped ws n)) := by
    induction n with
    | zero => rw [swapped_zero]; rfl
    | succ n ih =>
      rw [List.range_succ, List.foldlM_append, ih (by omega)]
      simp only [Option.bind_eq_bind, Option.bind_some, List.foldlM_cons, List.foldlM_nil]
      rw [swapDigits_eq (by omega) room]
      rfl
  rw [rounds _ (Nat.le_refl _), swapped_half]

/-! ### The conversions -/

variable {value : BitVec 32}

theorem writeDigits_eq {base : BitVec 32} {digit : BitVec 32 → BitVec 8} (two : 1 < base.toNat)
    (large : 2 ^ 32 ≤ base.toNat ^ 31)
    (digits : ∀ n < base.toNat, digit (BitVec.ofNat 32 n) = ch (Nat.digitChar n).toUpper)
    (room : p + (numeral base.toNat value.toNat).length < b.size) :
    writeDigits base digit value b p = some (b.put p (numeral base.toNat value.toNat ++ [0])) := by
  have each (v : BitVec 32) (small : v.toNat < base.toNat) :
      digit v = ch (Nat.digitChar v.toNat).toUpper := by
    rw [← digits v.toNat small, BitVec.ofNat_toNat, BitVec.setWidth_eq]
  have loop := digitLoop_eq (b := b) (p := p) two each (Nat.lt_of_lt_of_le value.isLt large)
    (show p + 0 + _ ≤ _ by omega)
  have reversed : p + (numeral base.toNat value.toNat).reverse.length ≤ b.size := by
    rw [List.length_reverse]
    omega
  have exchange := swapLoop_eq reversed
  rw [List.length_reverse, List.reverse_reverse] at exchange
  simp only [Nat.zero_add, Nat.add_zero] at loop
  rw [writeDigits, loop]
  simp only [Option.bind_eq_bind, Option.bind_some]
  rw [exchange]
  simp only [Option.bind_some]
  rw [Object.store_of_lt (by rw [Object.size_put]; exact room), Object.put_append]

theorem ultoa_eq (room : p + (numeral 10 value.toNat).length < b.size) :
    ultoa value b p = some (b.put p (numeral 10 value.toNat ++ [0])) :=
  writeDigits_eq (by decide) (by decide) (by decide) room

theorem ultox_eq (room : p + 2 + (numeral 16 value.toNat).length < b.size) :
    ultox value b p =
      some (b.put p (ch '0' :: ch 'x' :: numeral 16 value.toNat ++ [0])) := by
  have digits : writeDigits 16 (fun d => hexArray.getD d.toNat 0) value
      ((b.put p [ch '0']).put (p + 1) [ch 'x']) (p + 2) = _ :=
    writeDigits_eq (by decide) (by decide) (by decide) room
  -- the two characters in front, and the digits behind them
  have front : (b.put p [ch '0']).put (p + 1) [ch 'x'] = b.put p [ch '0', ch 'x'] :=
    Object.put_cons
  have behind : (b.put p [ch '0', ch 'x']).put (p + 2) (numeral 16 value.toNat ++ [0]) =
      b.put p (ch '0' :: ch 'x' :: numeral 16 value.toNat ++ [0]) :=
    Object.put_append
  rw [front] at digits
  rw [ultox, Object.store_of_lt (by omega)]
  simp only [Option.bind_eq_bind, Option.bind_some]
  rw [Object.store_of_lt (by rw [Object.size_put]; omega)]
  simp only [Option.bind_some]
  rw [front, digits]
  exact congrArg some behind

/-- The canonical numeral of a two's complement number -/
def signedNumeral (value : BitVec 32) : List (BitVec 8) :=
  if value.toInt < 0 then ch '-' :: numeral 10 value.toInt.natAbs
  else numeral 10 value.toInt.natAbs

theorem ltoa_eq (room : p + (signedNumeral value).length < b.size) :
    ltoa value b p = some (b.put p (signedNumeral value ++ [0])) := by
  have bound := value.isLt
  have sign : value.slt 0 = decide (value.toInt < 0) := by
    rw [BitVec.slt_eq_decide]
    rfl
  unfold ltoa signedNumeral at *
  rw [sign]
  by_cases negative : value.toInt < 0
  · rw [if_pos negative] at room ⊢
    rw [List.length_cons] at room
    have magnitude : (-value).toNat = value.toInt.natAbs := by
      rw [BitVec.toNat_neg]
      rw [BitVec.toInt_eq_toNat_cond] at *
      split at negative <;> omega
    rw [if_pos (decide_eq_true negative), Object.store_of_lt (by omega)]
    simp only [Option.bind_eq_bind, Option.bind_some]
    rw [ultoa_eq (by rw [Object.size_put, magnitude]; omega), magnitude]
    rw [Object.put_cons]
    rfl
  · have magnitude : value.toNat = value.toInt.natAbs := by
      rw [BitVec.toInt_eq_toNat_cond] at *
      split at negative <;> omega
    rw [if_neg negative] at room ⊢
    rw [if_neg (by simpa using negative), ultoa_eq (by rw [magnitude]; exact room), magnitude]

theorem numeral_length {base n : Nat} (two : 1 < base) (word : n < 2 ^ 32) :
    (numeral base n).length ≤ 32 := by
  rw [numeral, List.length_map, Nat.length_toDigits_le_iff two (by decide)]
  exact Nat.lt_of_lt_of_le word (Nat.pow_le_pow_left two 32)

/-- A conversion writes a short text into the local buffer. -/
def Converts (convert : BitVec 32 → Object → Nat → Option Object)
    (text : BitVec 32 → List (BitVec 8)) : Prop :=
  ∀ value, (text value).length < bufLen ∧ (∀ c ∈ text value, c ≠ 0) ∧
    ∀ b : Object, b.size = bufLen → convert value b 0 = some (b.put 0 (text value ++ [0]))

theorem ultoa_converts : Converts ultoa fun value => numeral 10 value.toNat := by
  intro value
  have short : (numeral 10 value.toNat).length ≤ 32 := numeral_length (by decide) value.isLt
  have fits : (numeral 10 value.toNat).length < bufLen := by unfold bufLen; omega
  refine ⟨fits, numeral_text (by decide) (by decide) _, fun b size => ultoa_eq ?_⟩
  rw [size, Nat.zero_add]
  exact fits

theorem ltoa_converts : Converts ltoa signedNumeral := by
  intro value
  have short : (signedNumeral value).length ≤ 33 := by
    have word : value.toInt.natAbs < 2 ^ 32 := by
      have range := BitVec.toInt_lt (x := value)
      have low := BitVec.le_toInt value
      omega
    have digits : (numeral 10 value.toInt.natAbs).length ≤ 32 := numeral_length (by decide) word
    unfold signedNumeral
    split
    · rw [List.length_cons]
      omega
    · omega
  have fits : (signedNumeral value).length < bufLen := by unfold bufLen; omega
  refine ⟨fits, fun c member => ?_, fun b size => ltoa_eq ?_⟩
  · have digits : c ∈ numeral 10 value.toInt.natAbs → c ≠ 0 :=
      numeral_text (by decide) (by decide) value.toInt.natAbs c
    unfold signedNumeral at member
    split at member
    · rcases List.mem_cons.mp member with rfl | rest
      · decide
      · exact digits rest
    · exact digits member
  · rw [size, Nat.zero_add]
    exact fits

theorem ultox_converts :
    Converts ultox fun value => ch '0' :: ch 'x' :: numeral 16 value.toNat := by
  intro value
  have short : (numeral 16 value.toNat).length ≤ 32 := numeral_length (by decide) value.isLt
  have fits : (ch '0' :: ch 'x' :: numeral 16 value.toNat).length < bufLen := by
    rw [List.length_cons, List.length_cons]
    unfold bufLen
    omega
  refine ⟨fits, fun c member => ?_, fun b size => ultox_eq ?_⟩
  · rcases List.mem_cons.mp member with rfl | rest
    · decide
    · rcases List.mem_cons.mp rest with rfl | rest
      · decide
      · exact numeral_text (by decide) (by decide) _ c rest
  · rw [List.length_cons, List.length_cons] at fits
    rw [size]
    omega

/-! ### The format language -/

/-- What an argument means: a word or a text. -/
inductive Value where
  | word (w : BitVec 32)
  | text (cs : List (BitVec 8))
deriving DecidableEq

/-- An argument with its meaning; texts are strings in memory. -/
inductive ArgHolds : Arg → Value → Prop
  | word (w : BitVec 32) : ArgHolds (.word w) (.word w)
  | text {s : Object} {cs : List (BitVec 8)} (holds : s.Holds 0 cs) :
      ArgHolds (.pointer s) (.text cs)

/-- The directives that consume an argument -/
def directives : List (BitVec 8) :=
  [ch 's', ch 'c', ch 'd', ch 'i', ch 'u', ch 'x', ch 'p', ch 'b']

/-- What directive `k` shows for an argument of its kind. -/
def shownAs (k : BitVec 8) : Value → Option (List (BitVec 8))
  | .text cs => if k = ch 's' then some cs else none
  | .word w =>
    if k = ch 's' then none
    else if k = ch 'c' then some [w.setWidth 8]
    else if k = ch 'd' ∨ k = ch 'i' then some (signedNumeral w)
    else if k = ch 'u' then some (numeral 10 w.toNat)
    else if k = ch 'x' ∨ k = ch 'p' then some (ch '0' :: ch 'x' :: numeral 16 w.toNat)
    else some ((if w ≠ 0 then "true" else "false").toList.map ch)

/-- The directives for words, and what they show -/
inductive WordShown (w : BitVec 32) : BitVec 8 → List (BitVec 8) → Prop
  | char : WordShown w (ch 'c') [w.setWidth 8]
  | signed {k : BitVec 8} (either : k = ch 'd' ∨ k = ch 'i') : WordShown w k (signedNumeral w)
  | unsigned : WordShown w (ch 'u') (numeral 10 w.toNat)
  | hexadecimal {k : BitVec 8} (either : k = ch 'x' ∨ k = ch 'p') :
      WordShown w k (ch '0' :: ch 'x' :: numeral 16 w.toNat)
  | bool : WordShown w (ch 'b') ((if w ≠ 0 then "true" else "false").toList.map ch)

theorem wordShown {k : BitVec 8} {w : BitVec 32} {piece : List (BitVec 8)} (member : k ∈ directives)
    (shown : shownAs k (.word w) = some piece) : WordShown w k piece := by
  rw [shownAs] at shown
  split at shown
  next => cases shown
  next noString =>
  split at shown
  next char =>
    cases shown
    rw [char]
    exact .char
  next noChar =>
  split at shown
  next either =>
    cases shown
    exact .signed either
  next noSigned =>
  split at shown
  next unsigned =>
    cases shown
    rw [unsigned]
    exact .unsigned
  next noUnsigned =>
  split at shown
  next either =>
    cases shown
    exact .hexadecimal either
  next noHexadecimal =>
    -- only one directive is left
    cases shown
    have bool : k = ch 'b' := by
      simp only [directives, List.mem_cons, List.not_mem_nil, or_false] at member
      tauto
    rw [bool]
    exact .bool

/-- The text of a format, and the arguments behind those it consumes; nothing when an argument
is missing or of the wrong kind. -/
def render : List (BitVec 8) → List Value → Option (List (BitVec 8) × List Value)
  | [], values => some ([], values)
  | [c], values => if c = ch '%' then some ([], values) else some ([c], values)
  | c :: k :: fmt, values =>
    if c ≠ ch '%' then (render (k :: fmt) values).map fun (text, rest) => (c :: text, rest)
    else if k ∈ directives then
      match values with
      | [] => none
      | value :: values => do
        let piece ← shownAs k value
        let (text, rest) ← render fmt values
        some (piece ++ text, rest)
    else (render fmt values).map fun (text, rest) => (k :: text, rest)

/-- The number of directives in a format that consume an argument -/
def argCount : List (BitVec 8) → Nat
  | [] => 0
  | [_] => 0
  | c :: k :: fmt =>
    if c ≠ ch '%' then argCount (k :: fmt)
    else (if k ∈ directives then 1 else 0) + argCount fmt

theorem render_plain {c k : BitVec 8} {fmt : List (BitVec 8)} {values : List Value}
    (plain : c ≠ ch '%') : render (c :: k :: fmt) values =
      (render (k :: fmt) values).map fun (text, rest) => (c :: text, rest) :=
  if_pos plain

theorem render_other {k : BitVec 8} {fmt : List (BitVec 8)} {values : List Value}
    (other : k ∉ directives) : render (ch '%' :: k :: fmt) values =
      (render fmt values).map fun (text, rest) => (k :: text, rest) :=
  (if_neg (not_not.mpr rfl)).trans (if_neg other)

theorem render_directive {k : BitVec 8} {fmt : List (BitVec 8)} {value : Value}
    {values : List Value} (member : k ∈ directives) :
    render (ch '%' :: k :: fmt) (value :: values) = (shownAs k value).bind fun piece =>
      (render fmt values).bind fun (text, rest) => some (piece ++ text, rest) :=
  (if_neg (not_not.mpr rfl)).trans (if_pos member)

theorem render_missing {k : BitVec 8} {fmt : List (BitVec 8)} (member : k ∈ directives) :
    render (ch '%' :: k :: fmt) [] = none :=
  (if_neg (not_not.mpr rfl)).trans (if_pos member)

theorem argCount_plain {c k : BitVec 8} {fmt : List (BitVec 8)} (plain : c ≠ ch '%') :
    argCount (c :: k :: fmt) = argCount (k :: fmt) :=
  if_pos plain

theorem argCount_percent {k : BitVec 8} {fmt : List (BitVec 8)} :
    argCount (ch '%' :: k :: fmt) = (if k ∈ directives then 1 else 0) + argCount fmt :=
  if_neg (not_not.mpr rfl)

/-- A format that can be rendered has an argument for each directive that takes one. -/
theorem render_count {fmt text : List (BitVec 8)} {values rest : List Value}
    (rendered : render fmt values = some (text, rest)) :
    values.length = argCount fmt + rest.length := by
  induction fmt using argCount.induct generalizing values text with
  | case1 =>
    cases rendered
    rw [argCount, Nat.zero_add]
  | case2 c =>
    rw [render] at rendered
    split at rendered <;> cases rendered <;> rw [argCount, Nat.zero_add]
  | case3 c k fmt plain ih =>
    rw [render_plain plain, Option.map_eq_some_iff] at rendered
    obtain ⟨⟨after, left⟩, inner, same⟩ := rendered
    cases same
    rw [argCount_plain plain, ih inner]
  | case4 c k fmt percent ih =>
    cases not_not.mp percent
    rw [argCount_percent]
    by_cases member : k ∈ directives
    · rw [if_pos member]
      obtain _ | ⟨value, values⟩ := values
      · rw [render_missing member] at rendered
        cases rendered
      simp only [render_directive member, Option.bind_eq_some_iff] at rendered
      obtain ⟨piece, shown, ⟨after, left⟩, inner, same⟩ := rendered
      cases same
      rw [List.length_cons, ih inner]
      omega
    · rw [render_other member, Option.map_eq_some_iff] at rendered
      obtain ⟨⟨after, left⟩, inner, same⟩ := rendered
      cases same
      rw [if_neg member, ih inner, Nat.zero_add]

/-! ### What a directive prints -/

namespace Printer

variable {t t' : Printer} {piece : List (BitVec 8)} {k : BitVec 8}

/-- `piece` is printed, with or without a NUL behind it, and `used` arguments are consumed. -/
structure Prints (t : Printer) (piece : List (BitVec 8)) (used : Nat) (t' : Printer) : Prop where
  dest : t'.dest = t.dest.put t.str piece ∨ t'.dest = t.dest.put t.str (piece ++ [0])
  str : t'.str = t.str + piece.length
  buf : t'.buf.size = t.buf.size
  args : t'.args = t.args.drop used

/-- What is printed next continues the piece. -/
theorem Prints.next {used : Nat} (prints : Prints t piece used t') {ws : List (BitVec 8)}
    (some : ws ≠ []) : t'.dest.put t'.str ws = t.dest.put t.str (piece ++ ws) := by
  rw [prints.str]
  rcases prints.dest with same | same
  · rw [same, Object.put_append]
  · rw [same, Object.put_over some]

theorem putByte_prints (room : t.str < t.dest.size) (c : BitVec 8) :
    ∃ t', t.putByte c = some t' ∧ Prints t [c] 0 t' := by
  refine ⟨{ t with dest := t.dest.put t.str [c], str := t.str + 1 }, ?_, .inl rfl, rfl, rfl, rfl⟩
  rw [putByte, Object.store_of_lt room]
  rfl

theorem copyString_eq {s : Object} {cs : List (BitVec 8)} (holds : s.Holds 0 cs)
    (room : t.str + cs.length < t.dest.size) : t.copyString s =
      some { t with dest := t.dest.put t.str (cs ++ [0]), str := t.str + cs.length } := by
  have copied := strcpyLoop_eq holds holds.length_lt room
  have length := strlenLoop_eq holds holds.length_lt
  rw [Nat.zero_add] at length
  rw [copyString, strcpy, copied, strlen, length]
  rfl

/-- A number goes through the local buffer. -/
theorem number_prints {convert : BitVec 32 → Object → Nat → Option Object}
    {text : BitVec 32 → List (BitVec 8)} (converts : Converts convert text)
    (size : t.buf.size = bufLen) {w : BitVec 32} {args : List Arg} (next : t.args = .word w :: args)
    (room : t.str + (text w).length < t.dest.size) :
    ∃ t', t.number convert = some t' ∧ Prints t (text w) 1 t' := by
  obtain ⟨fits, chars, converted⟩ := converts w
  obtain ⟨clean, cleared⟩ : ∃ clean, clean = t.buf.put 0 (List.replicate bufLen 0) := ⟨_, rfl⟩
  have bound : clean.size = bufLen := by rw [cleared, Object.size_put, size]
  have holds : (clean.put 0 (text w ++ [0])).Holds 0 (text w) :=
    Object.holds_put (by rw [bound, Nat.zero_add]; exact fits) chars
  have copied := copyString_eq
    (t := { t with buf := clean.put 0 (text w ++ [0]), args := args }) holds room
  refine ⟨{ t with dest := t.dest.put t.str (text w ++ [0]), str := t.str + (text w).length,
                   buf := clean.put 0 (text w ++ [0]), args := args },
    ?_, .inr rfl, rfl, bound.trans size.symm, by simp [next]⟩
  rw [number, clearBuf, if_pos (Nat.le_of_eq size.symm), ← cleared]
  simp only [Option.bind_eq_bind, Option.bind_some]
  rw [next, vaWord]
  simp only [Option.bind_some]
  rw [converted clean bound]
  simp only [Option.bind_some]
  exact copied

/-- A string constant without NULs is the string that it says. -/
theorem literal_holds {s : String} (text : ∀ c ∈ s.toList.map ch, c ≠ 0) :
    (literal s).Holds 0 (s.toList.map ch) := by
  refine Object.holds_of_bytes ?_ text fun i _ => ?_
  · rw [Nat.zero_add, List.length_map, String.length_toList]
    exact Nat.lt_succ_self _
  · rw [Nat.zero_add]
    rfl

theorem literal_true : (literal "true").Holds 0 ("true".toList.map ch) := by decide

theorem literal_false : (literal "false").Holds 0 ("false".toList.map ch) := by decide

/-! ### The branches of the `switch` -/

theorem directive_string (t : Printer) : t.directive (ch 's') =
    (vaPointer t.args).bind fun arg => copyString { t with args := arg.2 } arg.1 := rfl

theorem directive_char (t : Printer) : t.directive (ch 'c') =
    (vaWord t.args).bind fun arg => putByte { t with args := arg.2 } (arg.1.setWidth 8) := rfl

theorem directive_signed (t : Printer) (either : k = ch 'd' ∨ k = ch 'i') :
    t.directive k = t.number ltoa := by
  rcases either with rfl | rfl <;> rfl

theorem directive_unsigned (t : Printer) : t.directive (ch 'u') = t.number ultoa := rfl

theorem directive_hexadecimal (t : Printer) (either : k = ch 'x' ∨ k = ch 'p') :
    t.directive k = t.number ultox := by
  rcases either with rfl | rfl <;> rfl

theorem directive_bool (t : Printer) : t.directive (ch 'b') =
    t.clearBuf.bind fun t => (vaWord t.args).bind fun arg =>
      (strcpy t.dest t.str (literal (if arg.1 ≠ 0 then "true" else "false"))).bind fun copied =>
        some { t with dest := copied.1, str := t.str + (if arg.1 ≠ 0 then 4 else 5),
                      args := arg.2 } := rfl

theorem bool_prints (size : t.buf.size = bufLen) {w : BitVec 32} {args : List Arg}
    (next : t.args = .word w :: args)
    (room : t.str + ((if w ≠ 0 then "true" else "false").toList.map ch).length < t.dest.size) :
    ∃ t', t.directive (ch 'b') = some t' ∧
      Prints t ((if w ≠ 0 then "true" else "false").toList.map ch) 1 t' := by
  have text : (literal (if w ≠ 0 then "true" else "false")).Holds 0
      ((if w ≠ 0 then "true" else "false").toList.map ch) := by
    split
    · exact literal_true
    · exact literal_false
  have length : ((if w ≠ 0 then "true" else "false").toList.map ch).length =
      if w ≠ 0 then 4 else 5 := by
    split <;> decide
  have copied := strcpyLoop_eq text text.length_lt room
  refine ⟨{ t with dest := t.dest.put t.str ((if w ≠ 0 then "true" else "false").toList.map ch ++ [0]),
                   str := t.str + (if w ≠ 0 then 4 else 5),
                   buf := t.buf.put 0 (List.replicate bufLen 0), args := args },
    ?_, .inr rfl, by rw [length], Object.size_put, by simp [next]⟩
  rw [directive_bool, clearBuf, if_pos (Nat.le_of_eq size.symm)]
  simp only [Option.bind_some]
  rw [next, vaWord]
  simp only [Option.bind_some]
  rw [strcpy, copied]
  rfl

/-- A directive prints what it shows of its argument. -/
theorem directive_prints (size : t.buf.size = bufLen) {arg : Arg} {args : List Arg} {value : Value}
    (next : t.args = arg :: args) (kind : ArgHolds arg value) (member : k ∈ directives)
    (shown : shownAs k value = some piece) (room : t.str + piece.length < t.dest.size) :
    ∃ t', t.directive k = some t' ∧ Prints t piece 1 t' := by
  cases kind with
  | @text s cs holds =>
    simp only [shownAs, Option.ite_none_right_eq_some, Option.some.injEq] at shown
    obtain ⟨rfl, rfl⟩ := shown
    refine ⟨{ t with dest := t.dest.put t.str (cs ++ [0]), str := t.str + cs.length, args := args },
      ?_, .inr rfl, rfl, rfl, by simp [next]⟩
    rw [directive_string, next, vaPointer]
    exact copyString_eq holds room
  | word w =>
    cases wordShown member shown with
    | char =>
      obtain ⟨t', put, printed⟩ := putByte_prints (t := { t with args := args })
        (Nat.lt_of_le_of_lt (Nat.le_add_right _ _) room) (w.setWidth 8)
      rw [directive_char, next, vaWord]
      exact ⟨t', put, printed.dest, printed.str, printed.buf, by rw [printed.args, next]; rfl⟩
    | signed either =>
      rw [directive_signed t either]
      exact number_prints ltoa_converts size next room
    | unsigned =>
      rw [directive_unsigned]
      exact number_prints ultoa_converts size next room
    | hexadecimal either =>
      rw [directive_hexadecimal t either]
      exact number_prints ultox_converts size next room
    | bool => exact bool_prints size next room

/-- Another character stands for itself. -/
theorem directive_other (t : Printer) (other : k ∉ directives) : t.directive k = t.putByte k := by
  simp only [directives, List.mem_cons, List.not_mem_nil, or_false, not_or] at other
  obtain ⟨s, c, d, i, u, x, p, b⟩ := other
  rw [directive, if_neg s, if_neg c, if_neg (not_or.mpr ⟨d, i⟩), if_neg u,
    if_neg (not_or.mpr ⟨x, p⟩), if_neg b]

/-! ### The branches of the loop -/

section Loop

variable {format : Object} {f fuel : Nat} {c : BitVec 8}

theorem vsprintfLoop_nul (nul : format.load f = some 0) :
    vsprintfLoop format (fuel + 1) f t = some t := by
  rw [vsprintfLoop, nul]
  rfl

theorem vsprintfLoop_plain (first : format.load f = some c) (char : c ≠ 0) (plain : c ≠ ch '%') :
    vsprintfLoop format (fuel + 1) f t =
      (t.putByte c).bind (vsprintfLoop format fuel (f + 1)) := by
  simp only [vsprintfLoop, first, Option.bind_eq_bind, Option.bind_some, if_neg char, if_neg plain]

/-- The character behind the percent sign is the NUL. -/
theorem vsprintfLoop_percent (first : format.load f = some (ch '%'))
    (last : format.load (f + 1) = some 0) : vsprintfLoop format (fuel + 1) f t = some t := by
  rw [vsprintfLoop, first]
  simp only [Option.bind_eq_bind, Option.bind_some, last]
  rfl

theorem vsprintfLoop_directive (first : format.load f = some (ch '%'))
    (next : format.load (f + 1) = some k) (char : k ≠ 0) :
    vsprintfLoop format (fuel + 1) f t =
      (t.directive k).bind (vsprintfLoop format fuel (f + 2)) := by
  rw [vsprintfLoop, first]
  simp only [Option.bind_eq_bind, Option.bind_some, next, if_neg char]
  rfl

end Loop

/-- What holds when the loop ends: only the final NUL is missing. -/
structure Printed (t : Printer) (text : List (BitVec 8)) (used : Nat) (t' : Printer) : Prop where
  dest : t'.dest.put t'.str [0] = t.dest.put t.str (text ++ [0])
  size : t'.dest.size = t.dest.size
  str : t'.str = t.str + text.length
  args : t'.args = t.args.drop used

theorem Printed.nothing : Printed t [] 0 t := ⟨rfl, rfl, rfl, rfl⟩

theorem Prints.size {used : Nat} (prints : Prints t piece used t') :
    t'.dest.size = t.dest.size := by
  rcases prints.dest with same | same <;> rw [same, Object.size_put]

theorem Prints.printed {t'' : Printer} {used more : Nat} {text : List (BitVec 8)}
    (prints : Prints t piece used t') (printed : Printed t' text more t'') :
    Printed t (piece ++ text) (used + more) t'' where
  dest := by rw [printed.dest, prints.next (by simp), List.append_assoc]
  size := printed.size.trans prints.size
  str := by rw [printed.str, prints.str, List.length_append, Nat.add_assoc]
  args := by rw [printed.args, prints.args, List.drop_drop]

/-- What is left of the destination after a piece -/
theorem Prints.room {used : Nat} {text : List (BitVec 8)} (prints : Prints t piece used t')
    (room : t.str + (piece ++ text).length < t.dest.size) :
    t'.str + text.length < t'.dest.size := by
  rw [List.length_append] at room
  rw [prints.str, prints.size]
  omega

/-- The loop prints what the format language says. -/
theorem vsprintfLoop_printed {format : Object} {fmt : List (BitVec 8)} {f fuel : Nat}
    (holds : format.Holds f fmt) (enough : fmt.length < fuel) (size : t.buf.size = bufLen)
    {values rest : List Value} (kinds : List.Forall₂ ArgHolds t.args values)
    {text : List (BitVec 8)} (rendered : render fmt values = some (text, rest))
    (room : t.str + text.length < t.dest.size) :
    ∃ t', vsprintfLoop format fuel f t = some t' ∧ Printed t text (argCount fmt) t' := by
  -- the format is read as argCount does: its end, a last character, plain ones, directives
  induction fmt using argCount.induct generalizing f fuel t values text with
  | case1 =>
    obtain _ | fuel := fuel
    · cases enough
    rw [Object.Holds] at holds
    cases rendered
    exact ⟨t, vsprintfLoop_nul holds, .nothing⟩
  | case2 c =>
    obtain ⟨first, char, last⟩ := holds
    rw [Object.Holds] at last
    obtain _ | fuel := fuel
    · cases enough
    rw [render] at rendered
    split at rendered
    next percent =>
      cases rendered
      rw [percent] at first
      exact ⟨t, vsprintfLoop_percent first last, .nothing⟩
    next plain =>
      cases rendered
      obtain ⟨t', put, prints⟩ := putByte_prints (Nat.lt_of_le_of_lt (Nat.le_add_right _ _) room) c
      obtain _ | fuel := fuel
      · exact absurd enough (Nat.lt_irrefl 1)
      refine ⟨t', ?_, prints.printed .nothing⟩
      rw [vsprintfLoop_plain first char plain, put]
      exact vsprintfLoop_nul last
  | case3 c k fmt plain ih =>
    obtain ⟨first, char, last⟩ := holds
    obtain _ | fuel := fuel
    · cases enough
    rw [render_plain plain, Option.map_eq_some_iff] at rendered
    obtain ⟨⟨after, left⟩, inner, same⟩ := rendered
    cases same
    obtain ⟨t', put, prints⟩ := putByte_prints (Nat.lt_of_le_of_lt (Nat.le_add_right _ _) room) c
    have kinds' : List.Forall₂ ArgHolds t'.args values := by rw [prints.args]; exact kinds
    obtain ⟨t'', loop, printed⟩ := ih last (Nat.lt_of_succ_lt_succ enough)
      (prints.buf.trans size) kinds' inner (prints.room room)
    refine ⟨t'', ?_, ?_⟩
    · rw [vsprintfLoop_plain first char plain, put]
      exact loop
    · have whole := prints.printed printed
      rwa [Nat.zero_add, ← argCount_plain plain] at whole
  | case4 c k fmt percent ih =>
    obtain ⟨first, -, next, char, last⟩ := holds
    obtain _ | fuel := fuel
    · cases enough
    cases not_not.mp percent
    rw [argCount_percent]
    have few : fmt.length < fuel := by
      simp only [List.length_cons] at enough
      omega
    by_cases member : k ∈ directives
    · rw [if_pos member]
      obtain _ | ⟨value, values⟩ := values
      · rw [render_missing member] at rendered
        cases rendered
      obtain ⟨arg, args, kind, others, given⟩ := List.forall₂_cons_right_iff.mp kinds
      simp only [render_directive member, Option.bind_eq_some_iff] at rendered
      obtain ⟨piece, shown, ⟨after, left⟩, inner, same⟩ := rendered
      cases same
      have fits : t.str + piece.length < t.dest.size := by
        rw [List.length_append] at room
        omega
      obtain ⟨t', done, prints⟩ := directive_prints size given kind member shown fits
      have kinds' : List.Forall₂ ArgHolds t'.args values := by
        rw [prints.args, given]
        exact others
      obtain ⟨t'', loop, printed⟩ := ih last few (prints.buf.trans size) kinds' inner
        (prints.room room)
      refine ⟨t'', ?_, prints.printed printed⟩
      rw [vsprintfLoop_directive first next char, done]
      exact loop
    · rw [if_neg member]
      rw [render_other member, Option.map_eq_some_iff] at rendered
      obtain ⟨⟨after, left⟩, inner, same⟩ := rendered
      cases same
      -- the character after the percent sign is printed as it is
      obtain ⟨t', put, prints⟩ := putByte_prints (Nat.lt_of_le_of_lt (Nat.le_add_right _ _) room) k
      have kinds' : List.Forall₂ ArgHolds t'.args values := by rw [prints.args]; exact kinds
      obtain ⟨t'', loop, printed⟩ := ih last few (prints.buf.trans size) kinds' inner
        (prints.room room)
      refine ⟨t'', ?_, prints.printed printed⟩
      rw [vsprintfLoop_directive first next char, directive_other t member, put]
      exact loop

end Printer

/-- With enough room, `vsprintf` writes the rendering of its format and a NUL, and returns the
length. One argument is consumed for each directive that takes one. -/
theorem vsprintf_renders {dest format : Object} {fmt : List (BitVec 8)} {args : List Arg}
    {values rest : List Value} {text : List (BitVec 8)} (string : format.Holds 0 fmt)
    (kinds : List.Forall₂ ArgHolds args values) (rendered : render fmt values = some (text, rest))
    (room : text.length < dest.size) (garbage : Nat → BitVec 8) :
    args.length = argCount fmt + rest.length ∧ vsprintf dest format args garbage =
      some (dest.put 0 (text ++ [0]), text.length, args.drop (argCount fmt)) := by
  refine ⟨kinds.length_eq.trans (render_count rendered), ?_⟩
  obtain ⟨t', loop, printed⟩ := Printer.vsprintfLoop_printed
    (t := ⟨dest, 0, ⟨bufLen, garbage⟩, args⟩) string string.length_lt rfl kinds rendered (by rw [Nat.zero_add]; exact room)
  have place : t'.str = text.length := printed.str.trans (Nat.zero_add _)
  have inside : t'.str < t'.dest.size := by
    rw [place, printed.size]
    exact room
  rw [vsprintf, loop]
  simp only [Option.bind_eq_bind, Option.bind_some]
  rw [Object.store_of_lt inside, printed.dest, printed.args, place]
  rfl

-- `vsprintf(dest, "%i%c%s", -128, 'A', "x")`, with an argument to spare
theorem vsprintf_renders_mixed :
    let args := [Arg.word (-128), .word 65, .pointer (Printer.literal "x"), .word 0]
    args.length = 3 + 1 ∧ vsprintf ⟨8, fun _ => 0⟩ (Printer.literal "%i%c%s") args (fun _ => 0) =
      some ((⟨8, fun _ => 0⟩ : Object).put 0 ("-128Ax".toList.map ch ++ [0]), 6, args.drop 3) := by
  have string : (Printer.literal "%i%c%s").Holds 0 ("%i%c%s".toList.map ch) := by decide
  have kinds : List.Forall₂ ArgHolds
      [Arg.word (-128), .word 65, .pointer (Printer.literal "x"), .word 0]
      [Value.word (-128), .word 65, .text [ch 'x'], .word 0] :=
    .cons (.word _) (.cons (.word _) (.cons (.text (by decide)) (.cons (.word _) .nil)))
  have rendered : render ("%i%c%s".toList.map ch)
      [.word (-128), .word 65, .text [ch 'x'], .word 0] =
        some ("-128Ax".toList.map ch, [.word 0]) := by decide
  have room : ("-128Ax".toList.map ch).length < (⟨8, fun _ => 0⟩ : Object).size := by decide
  exact vsprintf_renders string kinds rendered room (fun _ => 0)

end Treeos
