import Treeos.Klibc.LiballocMalloc

/-!
# The search of `kmalloc`

The loops of `kmalloc` take the first gap that is large enough in one of the blocks, and ask
for a new block only if there is none.
-/
namespace Treeos

open ByteMemory DoublyLinked Extents

variable {σ : Type} {K : Hooks σ} {Owns : σ → List PageArea → Prop} {view : σ → Memory}
variable {s s' : Liballoc σ} {M N : Major} {b c d : Minor}
variable {pre post majors : List Major} {xs ys zs ws : List Minor}
variable {reqSize size maj : BitVec 32} {fuel : Nat} {startedBet : Bool}

/-- The first gap of a block for a header and `size` bytes. -/
def Major.gap (M : Major) (size : BitVec 32) : Option (List Minor × List Minor) :=
  firstFit Minor.start Minor.stop (size.toNat + 24) M.low M.high M.minors

/-- The header that `kmalloc` puts behind `xs`. -/
def Major.newMinor (M : Major) (xs : List Minor) (size reqSize : BitVec 32) : Minor :=
  ⟨BitVec.ofNat 32 (finish Minor.stop M.low xs), size, reqSize⟩

/-- What `kmalloc` asks for: the bytes, with room for the alignment. -/
structure Request (reqSize size : BitVec 32) : Prop where
  room : reqSize.toNat + 32 ≤ size.toNat
  small : size.toNat + 48 < 2 ^ 32

/-! ### Loads -/

theorem Layout.load (law : K.Growing Owns view) (layout : Layout Owns view s (pre ++ M :: post))
    {r : Record} (words : Words (view s.host) r.base r.words) (six : r.words.length = 6)
    (low : M.base.toNat ≤ r.base.toNat) (high : r.base.toNat + 24 ≤ M.high) {i : Nat}
    (bound : i < r.words.length) : s.load K r.base i = .ok r.words[i] := by
  have holds : Holds Owns view ((pre ++ M :: post).map Major.area) (view s.host) [r] s.host := by
    refine layout.holds ?_ ?_ ?_ ?_
    · simpa using six
    · simpa using words
    · simpa using ⟨low, high⟩
    · simp
  exact Holds.load law (s := s) [] r [] holds bound

theorem Layout.loadMajor (law : K.Growing Owns view)
    (layout : Layout Owns view s (pre ++ M :: post)) :
    s.load K M.base MajorField.prev = .ok (last Major.base 0 pre) ∧
      s.load K M.base MajorField.next = .ok (first Major.base 0 post) ∧
      s.load K M.base MajorField.pages = .ok M.pages ∧
      s.load K M.base MajorField.size = .ok M.size ∧
      s.load K M.base MajorField.usage = .ok (BitVec.ofNat 32 M.usage) ∧
      s.load K M.base MajorField.first = .ok (first Minor.addr 0 M.minors) := by
  have sound := layout.sound M (by simp)
  have low := sound.packed.le
  have word {i : Nat} (bound : i < 6) := layout.load law (r := M.record _ _ _ _) (i := i)
    layout.cell.header rfl (Nat.le_refl _) low bound
  exact ⟨word (i := 0) (by decide), word (i := 1) (by decide), word (i := 2) (by decide),
    word (i := 3) (by decide), word (i := 4) (by decide), word (i := 5) (by decide)⟩

theorem Layout.loadMinor (law : K.Growing Owns view)
    (layout : Layout Owns view s (pre ++ M :: post)) (split : M.minors = xs ++ c :: ys) :
    s.load K c.addr MinorField.prev = .ok (last Minor.addr 0 xs) ∧
      s.load K c.addr MinorField.next = .ok (first Minor.addr 0 ys) ∧
      s.load K c.addr MinorField.block = .ok M.base ∧
      s.load K c.addr MinorField.magic = .ok liballocMagic ∧
      s.load K c.addr MinorField.size = .ok c.size ∧
      s.load K c.addr MinorField.reqSize = .ok c.reqSize := by
  have sound := layout.sound M (by simp)
  obtain ⟨low, high, -, -⟩ := sound.bounds (c := c) (by simp [split])
  unfold Minor.stop at high
  have minors := layout.cell.minors
  rw [split, seg_append, seg_cons] at minors
  have word {i : Nat} (bound : i < 6) := layout.load law (r := c.record _ _ _) (i := i)
    minors.2.1.header rfl (by show M.base.toNat ≤ c.addr.toNat; omega)
    (by show c.addr.toNat + 24 ≤ _; omega) bound
  exact ⟨word (i := 0) (by decide), word (i := 1) (by decide), word (i := 2) (by decide),
    word (i := 3) (by decide), word (i := 4) (by decide), word (i := 5) (by decide)⟩

/-! ### Gaps -/

/-- A gap that is large enough. -/
theorem Major.Sound.fits (sound : M.Sound) (request : Request reqSize size)
    (found : M.gap size = some (xs, ys)) : Fits M xs ys (M.newMinor xs size reqSize) ∧
      (M.newMinor xs size reqSize).addr.toNat = finish Minor.stop M.low xs := by
  have split := firstFit_append found
  have room := firstFit_room found
  have packed := sound.packed
  rw [split, packed_append] at packed
  have order := packed.2.begin_le
  have limit : M.high < 2 ^ 32 := sound.area.fits
  have addr : (M.newMinor xs size reqSize).addr.toNat = finish Minor.stop M.low xs := by
    show (BitVec.ofNat 32 _).toNat = _
    rw [BitVec.toNat_ofNat, Nat.mod_eq_of_lt (by omega)]
  refine ⟨⟨split, ?_, ?_, request.room⟩, addr⟩
  · exact Nat.le_of_eq addr.symm
  · show (M.newMinor xs size reqSize).addr.toNat + 24 + size.toNat ≤ _
    omega

/-- Every gap is part of the free memory of the block. -/
theorem Major.Sound.gap_le (sound : M.Sound) (split : M.minors = xs ++ ys) :
    begin Minor.start M.high ys - finish Minor.stop M.low xs + M.usage ≤ 4096 * M.pages.toNat := by
  have packed := sound.packed
  rw [split, packed_append] at packed
  have front := packed.1.total_le
  have back := (packed.2.begin_le)
  have behind : Packed Minor.start Minor.stop (begin Minor.start M.high ys) M.high ys := by
    cases ys with
    | nil => exact Nat.le_refl _
    | cons y ys => exact ⟨Nat.le_refl _, packed.2.2⟩
  have total := behind.total_le
  simp only [Major.usage, split, List.map_append, List.sum_append]
  unfold Major.low Major.high at *
  omega

/-- The free memory of a block, as `kmalloc` reads it. -/
theorem Major.Sound.toNat_free (sound : M.Sound) :
    (M.size - BitVec.ofNat 32 M.usage).toNat = 4096 * M.pages.toNat - M.usage := by
  have size := sound.toNat_size
  have usage := sound.usage_le
  have bound := M.size.isLt
  have value : (BitVec.ofNat 32 M.usage).toNat = M.usage := by
    rw [BitVec.toNat_ofNat, Nat.mod_eq_of_lt (by omega)]
  generalize BitVec.ofNat 32 M.usage = u at *
  bv_omega

/-- CASE 1 leaves out blocks without a gap only. -/
theorem Major.Sound.gap_none (sound : M.Sound) (request : Request reqSize size)
    (less : M.size - BitVec.ofNat 32 M.usage < size + 24) : M.gap size = none := by
  have free := sound.toNat_free
  have small := request.small
  rw [BitVec.lt_def, free] at less
  have need : (size + 24).toNat = size.toNat + 24 := by bv_omega
  refine firstFit_none.mpr fun front back split => ?_
  have gap := sound.gap_le split
  omega

/-! ### One block -/

theorem ne_zero_of_pos {a : BitVec 32} (positive : 0 < a.toNat) : a ≠ 0 := by
  rintro rfl
  exact absurd positive (by decide)

/-- The address behind a minor. -/
theorem Major.newMinor_snoc (M : Major) (zs : List Minor) (b : Minor) (size reqSize : BitVec 32) :
    (M.newMinor (zs ++ [b]) size reqSize).addr = b.addr + 24 + b.size := by
  unfold Major.newMinor
  simp only [finish_append, finish_cons, finish_nil]
  unfold Minor.stop
  rw [BitVec.ofNat_add, BitVec.ofNat_add, BitVec.ofNat_toNat, BitVec.ofNat_toNat,
    BitVec.setWidth_eq, BitVec.setWidth_eq]
  rfl

/-- The loop of CASE 4, from the minor `b` on, which has no gap in front of it. -/
theorem case4_spec (law : K.Growing Owns view) (layout : Layout Owns view s (pre ++ M :: post))
    (locked : s.interruptFlag = false) (request : Request reqSize size)
    (split : M.minors = zs ++ b :: ws) (enough : ws.length + 2 ≤ fuel)
    (gap : M.gap size =
      (firstFit Minor.start Minor.stop (size.toNat + 24) b.stop M.high ws).map
        fun (front, back) => (zs ++ b :: front, back)) :
    (M.gap size = none ∧ Liballoc.case4 K fuel s reqSize size M.base b.addr = .ok none) ∨
    ∃ xs ys s', M.gap size = some (xs, ys) ∧
      Liballoc.case4 K fuel s reqSize size M.base b.addr =
        .ok (some ((M.newMinor xs size reqSize).ptr, s')) ∧
      Inserted Owns view s s' pre M post xs ys (M.newMinor xs size reqSize) := by
  have sound := layout.sound M (by simp)
  have small := request.small
  have need : (size + 24).toNat = size.toNat + 24 := by bv_omega
  induction ws generalizing zs b fuel with
  | nil =>
    obtain ⟨fuel, rfl⟩ : ∃ n, fuel = n + 2 := ⟨fuel - 2, by simp at enough; omega⟩
    obtain ⟨-, next, -, -, minSize, -⟩ := layout.loadMinor law split
    obtain ⟨-, -, -, majSize, -, -⟩ := layout.loadMajor law
    obtain ⟨low, high, limit, -⟩ := sound.bounds (c := b) (by simp [split])
    have bytes := sound.toNat_size
    have top : M.high = M.base.toNat + 4096 * M.pages.toNat := rfl
    have stop : b.stop = b.addr.toNat + 24 + b.size.toNat := rfl
    -- what is left behind the last minor
    have diff : (M.base + M.size - b.addr - 24 - b.size).toNat = M.high - b.stop := by
      clear gap
      generalize M.size = bytes' at *
      bv_omega
    have nonzero : b.addr ≠ 0 := ne_zero_of_pos (by omega)
    rw [Liballoc.case4, if_neg nonzero, next, ok_bind, minSize, ok_bind]
    simp only [first_nil, if_true, majSize, ok_bind]
    rw [firstFit] at gap
    by_cases room : size.toNat + 24 ≤ M.high - b.stop
    · right
      rw [if_pos room] at gap
      have found : M.gap size = some (zs ++ [b], []) := gap
      obtain ⟨s', done, inserted⟩ := case41_spec law layout locked (sound.fits request found).1
        (M.newMinor_snoc zs b size reqSize)
      refine ⟨_, _, s', found, ?_, inserted⟩
      rw [if_pos (by rw [BitVec.le_def, need, diff]; exact room)]
      exact bind_of_ok done _
    · left
      rw [if_neg room] at gap
      refine ⟨gap, ?_⟩
      rw [if_neg (by rw [BitVec.le_def, need, diff]; exact room)]
      rfl
  | cons d ws ih =>
    obtain ⟨fuel, rfl⟩ : ∃ n, fuel = n + 1 := ⟨fuel - 1, by simp at enough; omega⟩
    obtain ⟨-, next, -, -, minSize, -⟩ := layout.loadMinor law split
    obtain ⟨low, high, limit, -⟩ := sound.bounds (c := b) (by simp [split])
    obtain ⟨low', high', -, -⟩ := sound.bounds (c := d) (by simp [split])
    have order : b.stop ≤ d.start := by
      have packed := sound.packed
      rw [split] at packed
      exact packed.around.2 d (by simp)
    have stop : b.stop = b.addr.toNat + 24 + b.size.toNat := rfl
    have start : d.start = d.addr.toNat := rfl
    have diff : (d.addr - b.addr - 24 - b.size).toNat = d.start - b.stop := by
      clear gap ih
      bv_omega
    have nonzero : b.addr ≠ 0 := ne_zero_of_pos (by omega)
    have nonzero' : d.addr ≠ 0 := ne_zero_of_pos (by omega)
    rw [Liballoc.case4, if_neg nonzero, next, ok_bind, minSize, ok_bind]
    rw [first_cons, if_neg nonzero']
    rw [firstFit] at gap
    by_cases room : size.toNat + 24 ≤ d.start - b.stop
    · right
      rw [if_pos room] at gap
      have found : M.gap size = some (zs ++ [b], d :: ws) := gap
      obtain ⟨s', done, inserted⟩ := case42_spec law layout locked (sound.fits request found).1
        (M.newMinor_snoc zs b size reqSize)
      refine ⟨_, _, s', found, ?_, inserted⟩
      rw [if_pos (by rw [BitVec.le_def, need, diff]; exact room)]
      exact bind_of_ok done _
    · rw [if_neg room, Option.map_map] at gap
      rw [if_neg (by rw [BitVec.le_def, need, diff]; exact room)]
      have next : M.minors = (zs ++ [b]) ++ d :: ws := by simp [split]
      refine ih next (by simp at enough; omega) ?_
      rw [gap]
      congr 1
      funext places
      simp

/-- CASE 2 to CASE 4 find the first gap of the block. -/
theorem place_spec (law : K.Growing Owns view) (layout : Layout Owns view s (pre ++ M :: post))
    (locked : s.interruptFlag = false) (request : Request reqSize size)
    (space : M.minors = [] → size.toNat + 24 ≤ M.high - M.low)
    (enough : M.minors.length + 1 ≤ fuel) :
    (M.gap size = none ∧ s.place K fuel reqSize size M.base = .ok none) ∨
    ∃ xs ys s', M.gap size = some (xs, ys) ∧
      s.place K fuel reqSize size M.base =
        .ok (some ((M.newMinor xs size reqSize).ptr, s')) ∧
      Inserted Owns view s s' pre M post xs ys (M.newMinor xs size reqSize) := by
  have sound := layout.sound M (by simp)
  have small := request.small
  have need : (size + 24).toNat = size.toNat + 24 := by bv_omega
  obtain ⟨-, -, -, -, -, load⟩ := layout.loadMajor law
  have addr : (M.newMinor [] size reqSize).addr = M.base + 24 := by
    show BitVec.ofNat 32 (M.base.toNat + 24) = _
    rw [BitVec.ofNat_add, BitVec.ofNat_toNat, BitVec.setWidth_eq]
    rfl
  unfold Liballoc.place
  rw [load, ok_bind]
  cases split : M.minors with
  | nil =>
    right
    have found : M.gap size = some ([], []) := by
      unfold Major.gap
      rw [split, firstFit, if_pos (space split)]
    obtain ⟨s', done, inserted⟩ := case2_spec law layout locked (sound.fits request found).1 addr
    refine ⟨_, _, s', found, ?_, inserted⟩
    rw [first_nil, if_pos rfl]
    exact bind_of_ok done _
  | cons d ws =>
    obtain ⟨low, high, limit, -⟩ := sound.bounds (c := d) (by simp [split])
    have nonzero : d.addr ≠ 0 := ne_zero_of_pos (by omega)
    have diff : (d.addr - M.base - 24).toNat = d.start - M.low := by
      unfold Minor.start Major.low
      bv_omega
    rw [first_cons, if_neg nonzero]
    by_cases room : size.toNat + 24 ≤ d.start - M.low
    · right
      have found : M.gap size = some ([], d :: ws) := by
        unfold Major.gap
        rw [split, firstFit, if_pos room]
      obtain ⟨s', done, inserted⟩ := case3_spec law layout locked (sound.fits request found).1 addr
      refine ⟨_, _, s', found, ?_, inserted⟩
      rw [if_pos (by rw [BitVec.le_def, need, diff]; exact room)]
      exact bind_of_ok done _
    · rw [if_neg (by rw [BitVec.le_def, need, diff]; exact room)]
      have whole : M.minors = [] ++ d :: ws := split
      refine case4_spec law layout locked request whole ?_ ?_
      · rw [split, List.length_cons] at enough
        exact enough
      · unfold Major.gap
        rw [split, firstFit, if_neg room]
        rfl

end Treeos
