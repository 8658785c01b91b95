import Treeos.Lib.DoublyLinked
import Treeos.Lib.Extents
import Treeos.Klibc.Liballoc

/-!
# The layout of the heap

What the structures of liballoc say about memory: blocks of pages, linked to each other, and
in each of them headers in the order of their addresses, each in front of the memory it stands
for. Only the words of the headers and one byte behind each of them belong to liballoc.
-/
namespace Treeos

open ByteMemory DoublyLinked Extents

/-! ### Alignment -/

/-- What `ALIGN` makes of `ptr`. -/
def alignedPtr (ptr : BitVec 32) : BitVec 32 :=
  if (ptr + 16) &&& 15 ≠ 0 then ptr + 16 + (16 - ((ptr + 16) &&& 15)) else ptr + 16

/-- The byte that `ALIGN` leaves 16 bytes in front of it. -/
def alignInfo (ptr : BitVec 32) : BitVec 8 := (alignedPtr ptr - ptr).setWidth 8

variable {p : BitVec 32}

theorem toNat_and_15 (p : BitVec 32) : (p &&& 15).toNat = p.toNat % 16 := by
  rw [BitVec.toNat_and]
  exact Nat.and_two_pow_sub_one_eq_mod p.toNat 4

/-- The pointer is the next multiple of 16 that leaves room for the byte. -/
theorem alignedPtr_bounds (fits : p.toNat + 32 ≤ 2 ^ 32) :
    (alignedPtr p).toNat % 16 = 0 ∧ p.toNat + 16 ≤ (alignedPtr p).toNat ∧
      (alignedPtr p).toNat ≤ p.toNat + 31 := by
  have low := toNat_and_15 (p + 16)
  have first : (p + 16).toNat = p.toNat + 16 := by bv_omega
  rw [first] at low
  unfold alignedPtr
  split
  next other =>
    have some : ((p + 16) &&& 15).toNat ≠ 0 := fun zero => other (BitVec.eq_of_toNat_eq zero)
    generalize (p + 16) &&& 15 = d at *
    have value : (p + 16 + (16 - d)).toNat = p.toNat + 32 - d.toNat := by bv_omega
    omega
  next same =>
    have zero : ((p + 16) &&& 15).toNat = 0 := congrArg BitVec.toNat (Classical.not_not.mp same)
    omega

theorem toNat_alignInfo (fits : p.toNat + 32 ≤ 2 ^ 32) :
    (alignInfo p).toNat = (alignedPtr p).toNat - p.toNat := by
  obtain ⟨-, low, high⟩ := alignedPtr_bounds fits
  unfold alignInfo
  rw [BitVec.toNat_setWidth]
  have difference : (alignedPtr p - p).toNat = (alignedPtr p).toNat - p.toNat := by bv_omega
  omega

/-- `UNALIGN` takes back what `ALIGN` has added. -/
theorem alignInfo_signExtend (fits : p.toNat + 32 ≤ 2 ^ 32) :
    (alignInfo p).signExtend 32 < 32 ∧
      alignedPtr p - (alignInfo p).signExtend 32 = p := by
  obtain ⟨-, low, high⟩ := alignedPtr_bounds fits
  have value := toNat_alignInfo fits
  have positive : (alignInfo p).msb = false := by
    rw [BitVec.msb_eq_false_iff_two_mul_lt]
    omega
  have extended : ((alignInfo p).signExtend 32).toNat = (alignedPtr p).toNat - p.toNat := by
    rw [BitVec.signExtend_eq_setWidth_of_msb_false positive, BitVec.toNat_setWidth]
    omega
  generalize (alignInfo p).signExtend 32 = d at *
  constructor
  · rw [BitVec.lt_def]
    show d.toNat < 32
    omega
  · bv_omega

/-! ### Blocks and headers -/

/-- Pages that `liballoc_alloc` has returned. -/
structure PageArea where
  start : BitVec 32
  pages : BitVec 32
deriving DecidableEq

namespace PageArea

def range (a : PageArea) : Set (BitVec 32) := Span a.start (4096 * a.pages.toNat)

/-- The pages begin behind NULL, and do not wrap around. -/
structure Sound (a : PageArea) : Prop where
  some : 0 < a.pages.toNat
  aligned : a.start.toNat % 4096 = 0
  positive : 0 < a.start.toNat
  fits : a.start.toNat + 4096 * a.pages.toNat < 2 ^ 32

theorem Sound.mem_range {a : PageArea} (sound : a.Sound) {x : BitVec 32} : x ∈ a.range ↔
    a.start.toNat ≤ x.toNat ∧ x.toNat < a.start.toNat + 4096 * a.pages.toNat :=
  mem_span_iff (Nat.le_of_lt sound.fits)

end PageArea

/-- A `struct liballoc_minor` at `addr`, with the memory behind it. -/
structure Minor where
  addr : BitVec 32
  size : BitVec 32
  reqSize : BitVec 32
deriving DecidableEq

namespace Minor

def start (c : Minor) : Nat := c.addr.toNat
def stop (c : Minor) : Nat := c.addr.toNat + 24 + c.size.toNat

/-- What `kmalloc` has returned for it. -/
def ptr (c : Minor) : BitVec 32 := alignedPtr (c.addr + 24)

/-- The header is in memory, and the byte in front of the pointer. -/
structure Cell (m : Memory) (block prev next : BitVec 32) (c : Minor) : Prop where
  header : Words m c.addr [prev, next, block, liballocMagic, c.size, c.reqSize]
  info : m (c.ptr - 16) = alignInfo (c.addr + 24)

end Minor

/-- A `struct liballoc_major` at `base`, with the minors of its block. -/
structure Major where
  base : BitVec 32
  pages : BitVec 32
  minors : List Minor
deriving DecidableEq

namespace Major

def area (M : Major) : PageArea := ⟨M.base, M.pages⟩
def size (M : Major) : BitVec 32 := M.pages * 4096
-- where the first header may be, and where the pages end
def low (M : Major) : Nat := M.base.toNat + 24
def high (M : Major) : Nat := M.base.toNat + 4096 * M.pages.toNat

/-- The bytes that headers and their memory take, with the header of the block. -/
def usage (M : Major) : Nat := 24 + (M.minors.map fun c => c.stop - c.start).sum

/-- The headers lie in order in the block, and there is room for what was asked for and for
the alignment. -/
structure Sound (M : Major) : Prop where
  area : M.area.Sound
  -- `l_pageCount`
  many : 16 ≤ M.pages.toNat
  packed : Packed Minor.start Minor.stop M.low M.high M.minors
  room : ∀ c ∈ M.minors, c.reqSize.toNat + 32 ≤ c.size.toNat

/-- The header of the block is in memory, and the list of its minors. -/
structure Cell (m : Memory) (prev next : BitVec 32) (M : Major) : Prop where
  header : Words m M.base [prev, next, M.pages, M.size, BitVec.ofNat 32 M.usage,
    first Minor.addr 0 M.minors]
  minors : Seg Minor.addr (Minor.Cell m M.base) 0 0 M.minors

end Major

/-- The bytes behind the headers of a block. -/
def Major.payload (M : Major) : Set (BitVec 32) :=
  {x | ∃ c ∈ M.minors, c.addr.toNat + 24 ≤ x.toNat ∧ x.toNat < c.stop}

/-! ### Where things are -/

variable {M : Major} {c d : Minor} {m m' : Memory} {xs ys : List Minor} {x prev next : BitVec 32}

theorem Major.Sound.bounds (sound : M.Sound) (member : c ∈ M.minors) :
    M.base.toNat + 24 ≤ c.addr.toNat ∧ c.stop ≤ M.high ∧ M.high < 2 ^ 32 ∧
      c.reqSize.toNat + 32 ≤ c.size.toNat := by
  obtain ⟨low, -, high⟩ := sound.packed.bounds member
  exact ⟨low, high, sound.area.fits, sound.room c member⟩

theorem Major.Sound.payload_subset (sound : M.Sound) : M.payload ⊆ M.area.range := by
  rintro x ⟨c, member, first, last⟩
  obtain ⟨low, high, -, -⟩ := sound.bounds member
  refine sound.area.mem_range.mpr ⟨?_, ?_⟩
  · show M.base.toNat ≤ x.toNat
    omega
  · show x.toNat < M.high
    omega

/-- The pointer of a minor and the bytes that were asked for lie in its memory. -/
theorem Major.Sound.ptr_bounds (sound : M.Sound) (member : c ∈ M.minors) :
    c.ptr.toNat % 16 = 0 ∧ c.addr.toNat + 40 ≤ c.ptr.toNat ∧
      c.ptr.toNat + c.reqSize.toNat < c.stop ∧ (c.ptr - 16).toNat = c.ptr.toNat - 16 := by
  obtain ⟨low, high, fits, room⟩ := sound.bounds member
  unfold Minor.stop at *
  have here : (c.addr + 24).toNat = c.addr.toNat + 24 := by bv_omega
  obtain ⟨aligned, first, last⟩ := alignedPtr_bounds (p := c.addr + 24) (by omega)
  unfold Minor.ptr
  generalize alignedPtr (c.addr + 24) = q at *
  refine ⟨aligned, by omega, by omega, ?_⟩
  bv_omega

/-- A header that memory has kept. -/
theorem Minor.Cell.congr (sound : M.Sound) (member : c ∈ M.minors)
    (same : ∀ x : BitVec 32, c.addr.toNat ≤ x.toNat → x.toNat < c.stop → m' x = m x)
    (cell : c.Cell m M.base prev next) : c.Cell m' M.base prev next := by
  obtain ⟨low, high, fits, room⟩ := sound.bounds member
  obtain ⟨-, first, last, byte⟩ := sound.ptr_bounds member
  unfold Minor.stop at *
  constructor
  · refine cell.header.congr fun x inside => ?_
    rw [mem_span_iff (by simp; omega)] at inside
    simp only [List.length_cons, List.length_nil] at inside
    exact same x inside.1 (by omega)
  · rw [same _ (by omega) (by omega)]
    exact cell.info

/-- A block that memory has kept. -/
theorem Major.Cell.congr (sound : M.Sound) (same : ∀ x ∈ M.area.range, m' x = m x)
    (cell : M.Cell m prev next) : M.Cell m' prev next := by
  have place := sound.area
  have low := sound.packed.le
  have inside (x : BitVec 32) (first : M.base.toNat ≤ x.toNat) (last : x.toNat < M.high) :
      m' x = m x := same x (place.mem_range.mpr ⟨first, last⟩)
  have fits : M.high < 2 ^ 32 := place.fits
  unfold Major.low at low
  constructor
  · refine cell.header.congr fun x here => ?_
    rw [mem_span_iff (by simp; omega)] at here
    simp only [List.length_cons, List.length_nil] at here
    exact inside x here.1 (by omega)
  · refine cell.minors.imp fun c member p n => Minor.Cell.congr sound member fun x first last => ?_
    obtain ⟨lower, higher, -, -⟩ := sound.bounds member
    exact inside x (by omega) (by omega)

/-- What the minors take fits into the block. -/
theorem Major.Sound.usage_le (sound : M.Sound) : M.usage ≤ 4096 * M.pages.toNat := by
  have total := sound.packed.total_le
  unfold Major.usage
  unfold Major.low Major.high at total
  omega

theorem Major.Sound.toNat_size (sound : M.Sound) : M.size.toNat = 4096 * M.pages.toNat := by
  have fits : M.base.toNat + 4096 * M.pages.toNat < 2 ^ 32 := sound.area.fits
  rw [Major.size, BitVec.toNat_mul]
  show M.pages.toNat * 4096 % 2 ^ 32 = _
  omega

/-- A minor that fits into a gap. -/
theorem Major.Sound.insert (sound : M.Sound) (split : M.minors = xs ++ ys)
    (low : finish Minor.stop M.low xs ≤ c.start) (high : c.stop ≤ begin Minor.start M.high ys)
    (room : c.reqSize.toNat + 32 ≤ c.size.toNat) :
    Major.Sound { M with minors := xs ++ c :: ys } := by
  have packed := sound.packed
  rw [split] at packed
  have order : c.start ≤ c.stop := by
    unfold Minor.start Minor.stop
    omega
  refine ⟨sound.area, sound.many, packed.insert low order high, ?_⟩
  intro d member
  rcases List.mem_append.mp member with member | member
  · exact sound.room d (by simp [split, member])
  · rcases List.mem_cons.mp member with rfl | member
    · exact room
    · exact sound.room d (by simp [split, member])

theorem Major.Sound.erase (sound : M.Sound) (split : M.minors = xs ++ c :: ys) :
    Major.Sound { M with minors := xs ++ ys } := by
  have packed := sound.packed
  rw [split] at packed
  refine ⟨sound.area, sound.many, packed.erase, ?_⟩
  intro d member
  rcases List.mem_append.mp member with member | member
  · exact sound.room d (by simp [split, member])
  · exact sound.room d (by simp [split, member])

theorem usage_insert (M : Major) (xs ys : List Minor) (c : Minor) :
    { M with minors := xs ++ c :: ys }.usage =
      { M with minors := xs ++ ys }.usage + (c.size.toNat + 24) := by
  simp only [Major.usage, List.map_append, List.map_cons, List.sum_append, List.sum_cons,
    Minor.start, Minor.stop]
  omega

/-- The variables of liballoc and its memory describe the blocks `majors`. -/
structure Layout {σ : Type} (Owns : σ → List PageArea → Prop) (view : σ → Memory) (s : Liballoc σ)
    (majors : List Major) : Prop where
  owns : Owns s.host (majors.map Major.area)
  sound : ∀ M ∈ majors, M.Sound
  root : s.memRoot = first Major.base 0 majors
  linked : Seg Major.base (Major.Cell (view s.host)) 0 0 majors
  bestBet : s.bestBet = 0 ∨ ∃ M ∈ majors, s.bestBet = M.base
  allocated : s.allocated =
    BitVec.ofNat 64 (majors.map fun M => 4096 * M.pages.toNat).sum
  inuse : s.inuse =
    BitVec.ofNat 64 (majors.map fun M => (M.minors.map fun c => c.size.toNat).sum).sum

end Treeos
