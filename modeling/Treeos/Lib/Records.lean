import Treeos.Lib.ByteMemory

/-!
# Records in byte memory

Blocks of words that lie apart from each other. A store to one field sets one word of one
record, and keeps every byte outside of the records.
-/
namespace ByteMemory

variable {m m' m₀ : Memory} {a b x v : BitVec 32} {i n : Nat} {ws : List (BitVec 32)}

/-- Word `i` of the block at `a`. -/
def field (a : BitVec 32) (i : Nat) : BitVec 32 := a + BitVec.ofNat 32 (4 * i)

/-- The `n` words from `a` on. -/
def wordsAt (m : Memory) (a : BitVec 32) : Nat → List (BitVec 32)
  | 0 => []
  | n + 1 => load32 m a :: wordsAt m (a + 4) n

@[simp] theorem length_wordsAt (m : Memory) (a : BitVec 32) (n : Nat) :
    (wordsAt m a n).length = n := by
  induction n generalizing a with
  | zero => rfl
  | succ n ih => simp [wordsAt, ih]

theorem words_wordsAt (m : Memory) (a : BitVec 32) (n : Nat) : Words m a (wordsAt m a n) := by
  induction n generalizing a with
  | zero => trivial
  | succ n ih => exact ⟨rfl, ih (a + 4)⟩

/-- An interval that does not wrap around. -/
theorem mem_span_iff (fits : a.toNat + n ≤ 2 ^ 32) :
    x ∈ Span a n ↔ a.toNat ≤ x.toNat ∧ x.toNat < a.toNat + n := by
  have first := a.isLt
  have second := x.isLt
  rw [mem_span, BitVec.toNat_sub]
  omega

theorem span_field (bound : i < n) : Span (field a i) 4 ⊆ Span a (4 * n) := by
  intro x inside
  rw [mem_span] at *
  have shifted : x - a = x - field a i + BitVec.ofNat 32 (4 * i) := by
    rw [field]
    bv_omega
  rw [shifted, BitVec.toNat_add, BitVec.toNat_ofNat]
  have first := Nat.mod_le ((x - field a i).toNat + 4 * i % 2 ^ 32) (2 ^ 32)
  have second := Nat.mod_le (4 * i) (2 ^ 32)
  omega

theorem Words.field (words : Words m a ws) (bound : i < ws.length) :
    load32 m (field a i) = ws[i] := words.load bound

/-- A store to a word of a block. -/
theorem Words.set (words : Words m a ws) (fits : 4 * ws.length ≤ 2 ^ 32) (bound : i < ws.length)
    (v : BitVec 32) : Words (store32 m (ByteMemory.field a i) v) a (ws.set i v) := by
  induction ws generalizing a i with
  | nil => simp at bound
  | cons w ws ih =>
    rw [List.length_cons] at fits bound
    obtain ⟨head, tail⟩ := words
    cases i with
    | zero =>
      have here : ByteMemory.field a 0 = a := BitVec.add_zero a
      rw [here, List.set_cons_zero]
      constructor
      · exact load32_store32 v
      · refine tail.congr fun x inside => store32_of_not_mem ?_
        rw [mem_span] at *
        bv_omega
    | succ i =>
      have next : ByteMemory.field a (i + 1) = ByteMemory.field (a + 4) i := by
        rw [ByteMemory.field, ByteMemory.field, Nat.mul_succ, Nat.add_comm, BitVec.ofNat_add,
          BitVec.add_assoc]
        rfl
      rw [List.set_cons_succ, next]
      constructor
      · rw [← head]
        refine load32_congr fun x inside => store32_of_not_mem ?_
        rw [ByteMemory.field]
        rw [mem_span] at *
        bv_omega
      · exact ih tail (by omega) (by omega)

/-- A block of words: where it is and what it holds. -/
structure Record where
  base : BitVec 32
  words : List (BitVec 32)

namespace Record

def span (r : Record) : Set (BitVec 32) := Span r.base (4 * r.words.length)

def Apart (r r' : Record) : Prop := ∀ x ∈ r.span, x ∉ r'.span

def set (r : Record) (i : Nat) (v : BitVec 32) : Record := ⟨r.base, r.words.set i v⟩

variable {r r' : Record}

@[simp] theorem base_set : (r.set i v).base = r.base := rfl
@[simp] theorem words_set : (r.set i v).words = r.words.set i v := rfl

@[simp] theorem span_set : (r.set i v).span = r.span := by
  unfold span set
  rw [List.length_set]

theorem Apart.symm (apart : r.Apart r') : r'.Apart r := fun x there here => apart x here there

end Record

/-- `m` holds the records, and what `m₀` holds outside of them. -/
structure Records (m₀ m : Memory) (rs : List Record) : Prop where
  apart : rs.Pairwise Record.Apart
  short : ∀ r ∈ rs, 4 * r.words.length ≤ 2 ^ 32
  words : ∀ r ∈ rs, Words m r.base r.words
  frame : ∀ x, (∀ r ∈ rs, x ∉ r.span) → m x = m₀ x

namespace Records

variable {rs front back : List Record} {r : Record}

theorem load (holds : Records m₀ m rs) (member : r ∈ rs) (bound : i < r.words.length) :
    load32 m (field r.base i) = r.words[i] := (holds.words r member).field bound

/-- A store to a field. -/
theorem store (holds : Records m₀ m (front ++ r :: back)) (bound : i < r.words.length)
    (v : BitVec 32) :
    Records m₀ (store32 m (field r.base i) v) (front ++ r.set i v :: back) := by
  have short := holds.short r (by simp)
  have inside : Span (field r.base i) 4 ⊆ r.span := span_field bound
  obtain ⟨before, here, seam⟩ := List.pairwise_append.mp holds.apart
  obtain ⟨behind, after⟩ := List.pairwise_cons.mp here
  have kept (r' : Record) (words : Words m r'.base r'.words) (apart : r.Apart r') :
      Words (store32 m (field r.base i) v) r'.base r'.words :=
    words.congr fun x there => store32_of_not_mem fun here => apart x (inside here) there
  constructor
  · rw [List.pairwise_append, List.pairwise_cons]
    unfold Record.Apart at *
    simpa using ⟨before, ⟨behind, after⟩, fun r' member => by simpa using seam r' member⟩
  · intro r' member
    rcases List.mem_append.mp member with member | member
    · exact holds.short r' (by simp [member])
    · rcases List.mem_cons.mp member with rfl | member
      · simpa using short
      · exact holds.short r' (by simp [member])
  · intro r' member
    rcases List.mem_append.mp member with member | member
    · exact kept r' (holds.words r' (by simp [member])) (seam r' member r (by simp)).symm
    · rcases List.mem_cons.mp member with rfl | member
      · exact (holds.words r (by simp)).set short bound v
      · exact kept r' (holds.words r' (by simp [member])) (behind r' member)
  · intro x outside
    have here : x ∉ r.span := by simpa using outside (r.set i v) (by simp)
    rw [store32_of_not_mem fun stored => here (inside stored)]
    apply holds.frame
    intro r' member
    rcases List.mem_append.mp member with member | member
    · exact outside r' (by simp [member])
    · rcases List.mem_cons.mp member with rfl | member
      · exact here
      · exact outside r' (by simp [member])

/-- A byte outside of the records. -/
theorem store8 (holds : Records m₀ m rs) (outside : ∀ r ∈ rs, b ∉ r.span) (w : BitVec 8) :
    Records (ByteMemory.store8 m₀ b w) (ByteMemory.store8 m b w) rs := by
  constructor
  · exact holds.apart
  · exact holds.short
  · intro r member
    refine (holds.words r member).congr fun x inside => store8_of_ne ?_
    rintro rfl
    exact outside r member inside
  · intro x away
    by_cases here : x = b
    · simp [ByteMemory.store8, here]
    · rw [store8_of_ne here, store8_of_ne here]
      exact holds.frame x away

end Records

end ByteMemory
