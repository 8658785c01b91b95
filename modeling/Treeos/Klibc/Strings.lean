import Treeos.Klibc.Vsprintf
import Treeos.Module.Table

/-!
# `strncpy` and `strcat`

The two string functions of `klibc` that do not stop at the right NUL: `strncpy` does not look
for one, and `strcat` appends behind it.
-/
namespace Treeos

open Buffer ByteMemory

namespace Klibc

/-! ### `strncpy` -/

/-- The loop of `strncpy`, from place `s` of the source to place `d` -/
def strncpyLoop (src : Object) : Nat → Nat → Object → Nat → Option (Object × Nat)
  | 0, _, dest, d => some (dest, d)
  | num + 1, s, dest, d => do
    let c ← src.load s
    let dest ← dest.store d c
    strncpyLoop src num (s + 1) dest (d + 1)

/-- `strncpy`, which returns the place behind the last byte -/
def strncpy (dest : Object) (d : Nat) (src : Object) (num : Nat) : Option (Object × Nat) :=
  strncpyLoop src num 0 dest d

/-- What `strncpy` is for: the characters of the string and zeros, and nothing behind the NUL of
the string is read, so that it has no influence. -/
structure CopiesString (dest : Object) (d : Nat) (src : Object) (text : List (BitVec 8))
    (num : Nat) : Prop where
  copied : ∃ dest', strncpy dest d src num = some (dest', d + num) ∧ dest'.size = dest.size ∧
    (∀ i < num, dest'.bytes (d + i) = text.getD i 0) ∧
    ∀ i, i < d ∨ d + num ≤ i → dest'.bytes i = dest.bytes i
  -- the source might end with its NUL
  reads : strncpy dest d ⟨text.length + 1, src.bytes⟩ num = strncpy dest d src num
  independent : ∀ src' : Object, src'.Holds 0 text → strncpy dest d src' num = strncpy dest d src num

variable {dest src : Object} {d s num : Nat} {text cs ws : List (BitVec 8)}

-- the bytes of an object from a place on
def slice (src : Object) (s num : Nat) : List (BitVec 8) :=
  (List.range num).map fun i => src.bytes (s + i)

theorem slice_succ (src : Object) (s num : Nat) :
    slice src s (num + 1) = src.bytes s :: slice src (s + 1) num := by
  simp [slice, List.range_succ_eq_map, Nat.add_assoc, Nat.add_comm 1, Function.comp_def]

/-- The loop copies the bytes of the source, whatever they are. -/
theorem strncpyLoop_eq (inside : s + num ≤ src.size) (room : d + num ≤ dest.size) :
    strncpyLoop src num s dest d = some (dest.put d (slice src s num), d + num) := by
  induction num generalizing s d dest with
  | zero =>
    have nothing : dest.put d [] = dest := by
      refine Object.ext rfl (funext fun i => ?_)
      simp only [Object.put, List.length_nil]
      exact if_neg (by omega)
    rw [strncpyLoop, slice, List.range_zero, List.map_nil, nothing, Nat.add_zero]
  | succ num ih =>
    have next : strncpyLoop src num (s + 1) (dest.put d [src.bytes s]) (d + 1) =
        some ((dest.put d [src.bytes s]).put (d + 1) (slice src (s + 1) num), d + 1 + num) :=
      ih (by omega) (by rw [Object.size_put]; omega)
    rw [strncpyLoop, Object.load_of_lt (by omega), slice_succ, ← Object.put_cons,
      show d + (num + 1) = d + 1 + num by omega, ← next]
    simp only [Option.bind_eq_bind, Option.bind_some]
    rw [Object.store_of_lt (by omega), Option.bind_some]

/-- It has no result when the source ends before. -/
theorem strncpyLoop_none (outside : src.size < s + num) (start : s ≤ src.size) :
    strncpyLoop src num s dest d = none := by
  induction num generalizing s d dest with
  | zero => omega
  | succ num ih =>
    rw [strncpyLoop]
    by_cases last : s < src.size
    · have rest (dest : Object) : strncpyLoop src num (s + 1) dest (d + 1) = none :=
        ih (by omega) last
      simp [rest]
    · simp [Object.load, last]

/-- The bytes of a string -/
theorem holds_bytes (holds : src.Holds s cs) {i : Nat} (bound : i ≤ cs.length) :
    src.bytes (s + i) = cs.getD i 0 := by
  induction cs generalizing s i with
  | nil =>
    have inside := holds.lt_size
    rw [Object.Holds, Object.load_of_lt (by simpa using inside)] at holds
    rw [Nat.le_zero.mp bound]
    exact Option.some.inj holds
  | cons c cs ih =>
    have inside := holds.lt_size
    obtain ⟨first, -, rest⟩ := holds
    rw [List.length_cons] at inside bound
    cases i with
    | zero =>
      rw [Object.load_of_lt (by omega)] at first
      exact Option.some.inj first
    | succ i =>
      have next := ih rest (i := i) (by omega)
      rw [Nat.add_assoc, Nat.add_comm 1] at next
      exact next

/-- `strncpy` does what it is for exactly when it is given no more bytes than the string has,
with its NUL. -/
theorem strncpy_copies_iff (dest src : Object) (d : Nat) (text : List (BitVec 8)) (num : Nat)
    (string : src.Holds 0 text) (room : d + num ≤ dest.size) :
    CopiesString dest d src text num ↔ num ≤ text.length + 1 := by
  have whole := string.length_lt
  constructor
  · intro copies
    by_contra long
    have stops : strncpy dest d ⟨text.length + 1, src.bytes⟩ num = none :=
      strncpyLoop_none (by show text.length + 1 < 0 + num; omega) (Nat.zero_le _)
    obtain ⟨dest', returned, -⟩ := copies.copied
    rw [copies.reads, returned] at stops
    cases stops
  · intro short
    have result (src' : Object) (string' : src'.Holds 0 text) : strncpy dest d src' num =
        some (dest.put d ((List.range num).map fun i => text.getD i 0), d + num) := by
      have inside := string'.length_lt
      have same : slice src' 0 num = (List.range num).map fun i => text.getD i 0 := by
        refine List.map_congr_left fun i member => ?_
        rw [List.mem_range] at member
        exact holds_bytes string' (by omega)
      rw [strncpy, strncpyLoop_eq (by omega) room, same]
    have cut : Object.Holds ⟨text.length + 1, src.bytes⟩ 0 text :=
      Object.holds_of_bytes (by show 0 + text.length < text.length + 1; omega)
        string.text_ne_zero fun i bound => holds_bytes string bound
    refine ⟨⟨_, result src string, rfl, ?_, ?_⟩, ?_, ?_⟩
    · intro i bound
      rw [Object.bytes_put (by simpa using bound)]
      simp
    · intro i outside
      exact Object.bytes_put_of_not (by simpa using outside)
    · rw [result _ cut, result src string]
    · intro src' string'
      rw [result src' string', result src string]

/-- A string of four characters in a field of eight bytes -/
theorem strncpy_field : CopiesString ⟨8, fun _ => 0xFF⟩ 0 ⟨5, fun i => if i < 4 then 0x61 else 0⟩
    (List.replicate 4 0x61) 5 :=
  (strncpy_copies_iff _ _ 0 (List.replicate 4 0x61) 5 (by decide) (by decide)).mpr (by decide)

/-- A string of one character whose object goes on, copied as `module_table_init` does -/
theorem strncpy_overreads : ¬∀ (dest src : Object) (d : Nat) (text : List (BitVec 8)) (num : Nat),
    src.Holds 0 text → d + num ≤ dest.size → CopiesString dest d src text num := by
  intro all
  have copies := all ⟨8, fun _ => 0⟩ ⟨8, fun i => if i = 1 then 0 else 0x61⟩ 0 [0x61] 7 (by decide)
    (by decide)
  obtain ⟨dest', returned, -⟩ := copies.copied
  have stops := copies.reads.trans returned
  cases stops

/-- The name of a module is copied by this loop: the string at `p` and what follows it. -/
theorem strncpy_eq (field : List (BitVec 8)) (b : Object) (m : Memory) (p : BitVec 32)
    (source : ∀ i < num, src.bytes i = m (p + BitVec.ofNat 32 i)) (inside : num ≤ src.size)
    (room : num ≤ field.length) (fits : field.length ≤ b.size) :
    strncpy (b.put 0 field) 0 src num = some (b.put 0 (Treeos.strncpy field m p num), num) := by
  have same : slice src 0 num = (List.range num).map fun i => m (p + BitVec.ofNat 32 i) := by
    refine List.map_congr_left fun i member => ?_
    rw [Nat.zero_add]
    exact source i (List.mem_range.mp member)
  have size : (b.put 0 field).size = b.size := Object.size_put
  rw [strncpy, strncpyLoop_eq (by omega) (by omega), same, Treeos.strncpy, Nat.zero_add]
  -- what the field holds behind the copy stays
  have split : field = field.take num ++ field.drop num := (List.take_append_drop num field).symm
  refine congrArg (fun dest => some (dest, num)) (Object.ext rfl (funext fun i => ?_))
  simp only [Object.put, List.length_append, List.length_map, List.length_range, List.length_drop,
    Nat.zero_le, true_and, Nat.zero_add, Nat.sub_zero, Nat.add_sub_cancel' room]
  by_cases copied : i < num
  · rw [if_pos copied, if_pos (by omega), List.getD_append _ _ _ _ (by simpa using copied)]
  · rw [if_neg copied]
    by_cases behind : i < field.length
    · rw [if_pos behind, if_pos behind, List.getD_append_right _ _ _ _ (by simpa using copied)]
      simp [List.getD_eq_getElem?_getD, Nat.add_sub_cancel' (Nat.le_of_not_lt copied)]
    · rw [if_neg behind, if_neg behind]

/-! ### `strcat` -/

-- `while (*dest++);`
def skipLoop (dest : Object) : Nat → Nat → Option Nat
  | 0, _ => none
  | fuel + 1, d => do
    let c ← dest.load d
    if c = 0 then some (d + 1) else skipLoop dest fuel (d + 1)

/-- `strcat` -/
def strcat (dest : Object) (d : Nat) (src : Object) : Option (Object × Nat) := do
  let d ← skipLoop dest dest.size d
  strcpy dest d src

/-- The string in the buffer is both strings, and what is behind it has not changed. -/
def Appends (dest src : Object) (first second : List (BitVec 8)) : Prop :=
  ∃ dest' next, strcat dest 0 src = some (dest', next) ∧ dest'.Holds 0 (first ++ second) ∧
    ∀ i, (first ++ second).length < i → dest'.bytes i = dest.bytes i

/-- The loop ends behind the NUL. -/
theorem skipLoop_eq {fuel : Nat} (holds : dest.Holds d cs) (enough : cs.length < fuel) :
    skipLoop dest fuel d = some (d + cs.length + 1) := by
  induction cs generalizing fuel d with
  | nil =>
    obtain _ | fuel := fuel
    · cases enough
    · rw [Object.Holds] at holds
      simp [skipLoop, holds]
  | cons c cs ih =>
    obtain _ | fuel := fuel
    · cases enough
    · obtain ⟨char, text, rest⟩ := holds
      rw [List.length_cons] at enough
      have next := ih rest (Nat.lt_of_succ_lt_succ enough)
      rw [skipLoop, char]
      simp only [Option.bind_eq_bind, Option.bind_some, if_neg text, next, List.length_cons]
      rw [show d + 1 + cs.length + 1 = d + (cs.length + 1) + 1 by omega]

/-- A copy that returns was in bounds with its NUL. -/
theorem strcpyLoop_room {fuel next : Nat} {dest' : Object} (holds : src.Holds s cs)
    (copied : strcpyLoop src fuel s dest d = some (dest', next)) : d + cs.length < dest.size := by
  induction cs generalizing fuel s d dest with
  | nil =>
    obtain _ | fuel := fuel
    · cases copied
    rw [Object.Holds] at holds
    simp only [strcpyLoop, holds, Option.bind_eq_bind, Option.bind_some,
      Option.bind_eq_some_iff] at copied
    obtain ⟨stored, store, -⟩ := copied
    exact (Option.ite_none_right_eq_some.mp store).1
  | cons c cs ih =>
    obtain _ | fuel := fuel
    · cases copied
    obtain ⟨first, text, rest⟩ := holds
    simp only [strcpyLoop, first, Option.bind_eq_bind, Option.bind_some, if_neg text,
      Option.bind_eq_some_iff] at copied
    obtain ⟨stored, store, copied⟩ := copied
    obtain ⟨-, same⟩ := Option.ite_none_right_eq_some.mp store
    have room := ih rest copied
    rw [← Option.some.inj same, Object.size_put] at room
    rw [List.length_cons]
    omega

/-- `strcat` appends exactly when there is nothing to append, a byte behind the NUL, and that
byte is a NUL as well: it copies to the place behind the NUL and leaves that where it is. -/
theorem strcat_appends_iff (dest src : Object) (first second : List (BitVec 8))
    (holds : dest.Holds 0 first) (string : src.Holds 0 second)
    (room : first.length + second.length + 1 ≤ dest.size) :
    Appends dest src first second ↔
      second = [] ∧ first.length + 1 < dest.size ∧ dest.bytes (first.length + 1) = 0 := by
  have skipped := skipLoop_eq holds holds.length_lt
  rw [Nat.zero_add] at skipped
  have called : strcat dest 0 src = strcpy dest (first.length + 1) src := by
    rw [strcat, skipped]
    rfl
  have copied (fits : first.length + 1 + second.length < dest.size) :=
    strcpyLoop_eq string string.length_lt fits
  unfold Appends
  rw [called, strcpy]
  constructor
  · rintro ⟨dest', next, returned, whole, behind⟩
    have fits := strcpyLoop_room string returned
    rw [copied fits] at returned
    cases returned
    have middle := holds_bytes whole (i := first.length) (by simp)
    rw [Nat.zero_add, Object.bytes_put_of_not (.inl (Nat.lt_succ_self _))] at middle
    have nul := holds_bytes holds (Nat.le_refl first.length)
    rw [Nat.zero_add] at nul
    cases second with
    | nil =>
      rw [List.length_nil, Nat.add_zero] at fits
      have last := behind (first.length + 1) (by simp)
      have stored : (dest.put (first.length + 1) ([] ++ [0])).bytes (first.length + 1) = 0 :=
        Object.bytes_put (q := 0) (by simp)
      exact ⟨rfl, fits, last.symm.trans stored⟩
    | cons c cs =>
      -- the old NUL is in the place of the first character
      have char := string.text_ne_zero c List.mem_cons_self
      rw [nul] at middle
      simp at middle
      exact absurd middle.symm char
  · rintro ⟨rfl, fits, zero⟩
    have unchanged : dest.put (first.length + 1) ([] ++ [0]) = dest := by
      refine Object.ext rfl (funext fun i => ?_)
      simp only [Object.put, List.nil_append, List.length_singleton]
      by_cases here : i = first.length + 1
      · rw [if_pos (by omega), here, zero]
        simp
      · rw [if_neg (by omega)]
    have returned := copied (by simpa using fits)
    rw [unchanged] at returned
    refine ⟨dest, _, returned, ?_, ?_⟩
    · rw [List.append_nil]
      exact holds
    · intro i _
      rfl

/-- Nothing is appended to a string with two NULs behind it. -/
theorem strcat_nothing : Appends ⟨3, fun i => if i = 0 then 0x61 else 0⟩ ⟨1, fun _ => 0⟩ [0x61] [] :=
  (strcat_appends_iff _ _ [0x61] [] (by decide) (by decide) (by decide)).mpr
    ⟨rfl, by decide, rfl⟩

/-- One character is to follow another one. -/
theorem strcat_invisible : ¬∀ (dest src : Object) (first second : List (BitVec 8)),
    dest.Holds 0 first → src.Holds 0 second →
    first.length + second.length + 1 ≤ dest.size → Appends dest src first second := by
  intro all
  obtain ⟨dest', next, returned, whole, -⟩ := all ⟨4, fun i => if i = 0 then 0x61 else 0⟩
    ⟨2, fun i => if i = 0 then 0x62 else 0⟩ [0x61] [0x62] (by decide) (by decide) (by decide)
  cases returned
  exact absurd whole (by decide)

end Klibc

end Treeos
