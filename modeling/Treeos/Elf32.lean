import Mathlib.Algebra.Group.Int.Defs
import Mathlib.Data.Nat.Find
import Mathlib.Order.Bounds.Basic
import Mathlib.Order.Interval.Set.Basic
import Treeos.Lib.ByteMemory
import Treeos.Panic

/-!
# Executables

`elf32_load` of `arch/i386/elf/elf32.c`, which so far computes where the segments of an
executable go and how much memory they take.
-/
namespace Treeos

open ByteMemory

def ptLoad : BitVec 32 := 1

/-- `struct Elf32_Phdr`, as far as `elf32_load` reads it -/
structure Elf32Phdr where
  pType : BitVec 32
  pVaddr : BitVec 32
  pPaddr : BitVec 32
  pMemsz : BitVec 32
deriving DecidableEq

def load16 (m : Memory) (a : BitVec 32) : BitVec 16 := m (a + 1) ++ m a

/-! The fields of `struct Elf32_Ehdr` that `elf32_load` reads -/

def ePhoff (m : Memory) (hdr : BitVec 32) : BitVec 32 := load32 m (hdr + 28)
def ePhentsize (m : Memory) (hdr : BitVec 32) : BitVec 16 := load16 m (hdr + 42)
def ePhnum (m : Memory) (hdr : BitVec 32) : BitVec 16 := load16 m (hdr + 44)

/-- `prog_hdr` in round `i` of the loops -/
def progHdr (m : Memory) (hdr i : BitVec 32) : Elf32Phdr :=
  let a := hdr + ePhoff m hdr + i * (ePhentsize m hdr).setWidth 32
  ⟨load32 m a, load32 m (a + 8), load32 m (a + 12), load32 m (a + 20)⟩

/-- What `elf32_load` returns, with its local variables. -/
structure Elf32Loaded where
  returned : Bool
  base : BitVec 32
  size : BitVec 32
deriving DecidableEq

/-- `elf32_load`. A process is given by its page directory. -/
def elf32Load (m : Memory) (hdr : BitVec 32) (proc : Option (BitVec 32)) :
    Except Panic Elf32Loaded := do
  kassert (hdr ≠ 0) "hdr"
  kassert proc.isSome "proc"
  kassert (proc ≠ some 0) "proc->pgdir"
  let rounds := List.range (ePhnum m hdr).toNat
  let base := rounds.foldl (fun base i =>
    let p := progHdr m hdr (BitVec.ofNat 32 i)
    if p.pType = ptLoad then
      -- Base address is the smallest p_vaddr entry
      if p.pVaddr < base then p.pVaddr else base
    else base) (-1#32)
  let size := rounds.foldl (fun size i =>
    let p := progHdr m hdr (BitVec.ofNat 32 i)
    if p.pType = ptLoad then
      let s := p.pPaddr - base + p.pMemsz
      if s > size then s else size
    else size) 0#32
  .ok ⟨true, base, size⟩

/-- The entries of type `PT_LOAD`, in the order of the table. -/
def loads (m : Memory) (hdr : BitVec 32) : List Elf32Phdr :=
  ((List.range (ePhnum m hdr).toNat).map fun i => progHdr m hdr (BitVec.ofNat 32 i)).filter
    fun p => p.pType = ptLoad

/-- The virtual addresses of a segment -/
def Elf32Phdr.extent (p : Elf32Phdr) : Set Nat :=
  Set.Ico p.pVaddr.toNat (p.pVaddr.toNat + p.pMemsz.toNat)

/-- Where a segment ends. -/
def Elf32Phdr.stop (p : Elf32Phdr) : Nat := p.pVaddr.toNat + p.pMemsz.toNat

/-- A segment is to be loaded `t` bytes above the addresses it is linked for. -/
def Elf32Phdr.LoadedAt (p : Elf32Phdr) (t : Int) : Prop :=
  p.pPaddr = p.pVaddr + BitVec.ofInt 32 t

def baseAddresses (ps : List Elf32Phdr) : Set Nat := {a | ∃ p ∈ ps, p.pVaddr.toNat = a}

/-- The lengths for which an interval from `base` on contains all segments. -/
def enough (ps : List Elf32Phdr) (base : Nat) : Set Nat :=
  {n | ∀ p ∈ ps, p.extent ⊆ Set.Ico base (base + n)}

/-- The ends of the segments, by their physical addresses, as seen from `base`. -/
def physicalEnds (ps : List Elf32Phdr) (base : BitVec 32) : Set Nat :=
  {s | ∃ p ∈ ps, (p.pPaddr - base + p.pMemsz).toNat = s}

/-- The `size` bytes from `base` on are the smallest interval that starts at the lowest segment
and contains all of them. -/
def SmallestInterval (ps : List Elf32Phdr) (base size : BitVec 32) : Prop :=
  IsLeast (baseAddresses ps) base.toNat ∧ IsLeast (enough ps base.toNat) size.toNat

/-- Moved to where they are to be loaded, the segments end inside of an interval of virtual
addresses, and one of them at its end. -/
structure EndsWithin (ps : List Elf32Phdr) (base stop : Nat) : Prop where
  within : ∀ p ∈ ps, ∃ t, p.LoadedAt t ∧ base ≤ p.stop + t ∧ p.stop + t ≤ stop
  reached : ∃ p ∈ ps, p.LoadedAt (stop - p.stop)

/-! ### The loops -/

/-- A loop that keeps the value that comes first in an order. -/
theorem foldl_first {α β : Type} (before : α → α → Prop) [DecidableRel before]
    (asymm : ∀ a b, before a b → ¬before b a)
    (through : ∀ a b c, ¬before a b → ¬before b c → ¬before a c) (f : β → α) (l : List β)
    (init : α) :
    (l.foldl (fun first x => if before (f x) first then f x else first) init = init ∨
      ∃ x ∈ l, f x = l.foldl (fun first x => if before (f x) first then f x else first) init) ∧
    ¬before init (l.foldl (fun first x => if before (f x) first then f x else first) init) ∧
    ∀ x ∈ l,
      ¬before (f x) (l.foldl (fun first x => if before (f x) first then f x else first) init) := by
  induction l generalizing init with
  | nil => exact ⟨.inl rfl, fun less => asymm init init less less, fun _ none => by cases none⟩
  | cons x l ih =>
    rw [List.foldl_cons]
    by_cases less : before (f x) init
    · rw [if_pos less]
      obtain ⟨place, here, rest⟩ := ih (f x)
      refine ⟨.inr ?_, through _ _ _ (asymm _ _ less) here, ?_⟩
      · rcases place with same | ⟨y, member, same⟩
        · exact ⟨x, List.mem_cons_self, same.symm⟩
        · exact ⟨y, List.mem_cons_of_mem x member, same⟩
      · exact List.forall_mem_cons.mpr ⟨here, rest⟩
    · rw [if_neg less]
      obtain ⟨place, here, rest⟩ := ih init
      refine ⟨?_, here, List.forall_mem_cons.mpr ⟨through _ _ _ less here, rest⟩⟩
      rcases place with same | ⟨y, member, same⟩
      · exact .inl same
      · exact .inr ⟨y, List.mem_cons_of_mem x member, same⟩

def loadBase (ps : List Elf32Phdr) : BitVec 32 :=
  ps.foldl (fun base p => if p.pVaddr < base then p.pVaddr else base) (-1#32)

def loadSize (ps : List Elf32Phdr) (base : BitVec 32) : BitVec 32 :=
  ps.foldl (fun size p =>
    if p.pPaddr - base + p.pMemsz > size then p.pPaddr - base + p.pMemsz else size) 0#32

/-- Entries of other types have no influence. -/
theorem elf32Load_eq (m : Memory) {hdr pgdir : BitVec 32} (nonnull : hdr ≠ 0)
    (mapped : pgdir ≠ 0) : elf32Load m hdr (some pgdir) =
      .ok ⟨true, loadBase (loads m hdr), loadSize (loads m hdr) (loadBase (loads m hdr))⟩ := by
  have header : kassert (decide (hdr ≠ 0)) "hdr" = .ok () := by simpa using nonnull
  have directory : kassert (decide (some pgdir ≠ some 0)) "proc->pgdir" = .ok () := by
    simpa using mapped
  have process : kassert (some pgdir).isSome "proc" = .ok () := rfl
  simp only [elf32Load, header, process, directory, ok_bind]
  simp [loadBase, loadSize, loads, List.foldl_filter, List.foldl_map]

variable {ps : List Elf32Phdr}

/-- The first pass -/
theorem loadBase_isLeast (entries : ps ≠ []) : IsLeast (baseAddresses ps) (loadBase ps).toNat := by
  obtain ⟨place, -, least⟩ := foldl_first (fun a b : BitVec 32 => a < b)
    (fun a b => by bv_omega) (fun a b c => by bv_omega) Elf32Phdr.pVaddr ps (-1#32)
  have lower (p : Elf32Phdr) (member : p ∈ ps) : (loadBase ps).toNat ≤ p.pVaddr.toNat := by
    have notBelow := least p member
    rw [BitVec.lt_def] at notBelow
    exact Nat.le_of_not_lt notBelow
  constructor
  · rcases place with top | ⟨p, member, same⟩
    · -- no segment is below the highest address: they all are there
      obtain ⟨p, member⟩ := List.exists_mem_of_ne_nil ps entries
      have high := lower p member
      have value : (loadBase ps).toNat = 2 ^ 32 - 1 := by
        rw [loadBase, top]
        rfl
      have bound := p.pVaddr.isLt
      exact ⟨p, member, by omega⟩
    · exact ⟨p, member, by rw [same]; rfl⟩
  · rintro a ⟨p, member, rfl⟩
    exact lower p member

/-- The second pass -/
theorem loadSize_isGreatest (entries : ps ≠ []) (base : BitVec 32) :
    IsGreatest (physicalEnds ps base) (loadSize ps base).toNat := by
  obtain ⟨place, -, greatest⟩ := foldl_first (fun a b : BitVec 32 => a > b)
    (fun a b => by bv_omega) (fun a b c => by bv_omega)
    (fun p : Elf32Phdr => p.pPaddr - base + p.pMemsz) ps 0#32
  have upper (p : Elf32Phdr) (member : p ∈ ps) :
      (p.pPaddr - base + p.pMemsz).toNat ≤ (loadSize ps base).toNat := by
    have notAbove := greatest p member
    rw [gt_iff_lt, BitVec.lt_def] at notAbove
    exact Nat.le_of_not_lt notAbove
  constructor
  · rcases place with zero | ⟨p, member, same⟩
    · obtain ⟨p, member⟩ := List.exists_mem_of_ne_nil ps entries
      have small := upper p member
      have value : (loadSize ps base).toNat = 0 := by
        rw [loadSize, zero]
        rfl
      exact ⟨p, member, by omega⟩
    · exact ⟨p, member, by rw [same]; rfl⟩
  · rintro s ⟨p, member, rfl⟩
    exact upper p member

/-! ### The interval -/

/-- The value that a round of the second pass computes tells where the segment is to be. -/
theorem physicalEnd_iff {p : Elf32Phdr} {base : BitVec 32} {s : Nat} (small : s < 2 ^ 32) :
    (p.pPaddr - base + p.pMemsz).toNat = s ↔ p.LoadedAt (base.toNat + s - p.stop) := by
  have shift : BitVec.ofInt 32 (base.toNat + s - p.stop) =
      base + BitVec.ofNat 32 s - (p.pVaddr + p.pMemsz) := by
    simp only [Elf32Phdr.stop, Int.sub_eq_add_neg, BitVec.ofInt_add, BitVec.ofInt_neg,
      BitVec.sub_eq_add_neg, Int.natCast_add, BitVec.ofInt_natCast, BitVec.ofNat_toNat,
      BitVec.setWidth_eq]
  rw [Elf32Phdr.LoadedAt, shift]
  constructor
  · rintro rfl
    rw [BitVec.ofNat_toNat, BitVec.setWidth_eq]
    bv_omega
  · intro place
    have value : p.pPaddr - base + p.pMemsz = BitVec.ofNat 32 s := by
      rw [place]
      bv_omega
    rw [value, BitVec.toNat_ofNat, Nat.mod_eq_of_lt small]

theorem endsWithin_iff {base : BitVec 32} {n : Nat} :
    IsGreatest (physicalEnds ps base) n ↔
      n < 2 ^ 32 ∧ EndsWithin ps base.toNat (base.toNat + n) := by
  constructor
  · rintro ⟨⟨q, last, value⟩, greatest⟩
    -- what a round computes is a word
    have small : n < 2 ^ 32 := by
      rw [← value]
      exact BitVec.isLt _
    refine ⟨small, fun p member => ?_, q, last, ?_⟩
    · have bound : (p.pPaddr - base + p.pMemsz).toNat ≤ n := greatest ⟨p, member, rfl⟩
      refine ⟨_, (physicalEnd_iff (Nat.lt_of_le_of_lt bound small)).mp rfl, ?_, ?_⟩
      · omega
      · omega
    · have place := (physicalEnd_iff small).mp value
      rwa [← Int.natCast_add] at place
  · rintro ⟨small, inside, q, last, place⟩
    refine ⟨⟨q, last, (physicalEnd_iff small).mpr ?_⟩, ?_⟩
    · rwa [Int.natCast_add] at place
    · rintro s ⟨p, member, rfl⟩
      obtain ⟨t, place, low, high⟩ := inside p member
      obtain ⟨e, same⟩ := Int.eq_ofNat_of_zero_le (Int.sub_nonneg_of_le low)
      have value : (p.pPaddr - base + p.pMemsz).toNat = e := by
        apply (physicalEnd_iff (by omega)).mpr
        have amount : (base.toNat : Int) + e - p.stop = t := by omega
        rwa [amount]
      omega

/-- A segment that is not empty ends inside of every interval that contains all of them. -/
theorem stop_le {p : Elf32Phdr} {base n : Nat} (contains : n ∈ enough ps base) (member : p ∈ ps)
    (filled : p.pMemsz ≠ 0) : p.stop ≤ base + n := by
  have positive : p.pMemsz.toNat ≠ 0 := fun zero => filled (BitVec.eq_of_toNat_eq zero)
  have inside : p.stop - 1 ∈ p.extent := by
    unfold Elf32Phdr.stop Elf32Phdr.extent
    exact ⟨by omega, by omega⟩
  have reached := (contains p member inside).2
  omega

/-- When no segment ends behind the smallest interval, one ends where the interval does. -/
theorem exists_stop_eq (entries : ps ≠ []) {base n : Nat} (first : IsLeast (baseAddresses ps) base)
    (smallest : IsLeast (enough ps base) n) (inside : ∀ p ∈ ps, p.stop ≤ base + n) :
    ∃ p ∈ ps, p.stop = base + n := by
  by_contra none
  push Not at none
  have before (p : Elf32Phdr) (member : p ∈ ps) : base ≤ p.pVaddr.toNat ∧ p.stop < base + n :=
    ⟨first.2 ⟨p, member, rfl⟩, Nat.lt_of_le_of_ne (inside p member) (none p member)⟩
  obtain ⟨q, member⟩ := List.exists_mem_of_ne_nil ps entries
  have room := before q member
  -- otherwise one byte less would do
  have shorter : n - 1 ∈ enough ps base := by
    intro p member
    have here := before p member
    unfold Elf32Phdr.stop at here
    exact Set.Ico_subset_Ico here.1 (by omega)
  have least := smallest.2 shorter
  unfold Elf32Phdr.stop at room
  omega

/-- Some length is enough, as no segment is larger than the address space. -/
theorem exists_isLeast_enough {base : Nat} (first : IsLeast (baseAddresses ps) base) :
    ∃ n, IsLeast (enough ps base) n := by
  classical
  have whole : ∃ n, n ∈ enough ps base := by
    refine ⟨2 ^ 33, fun p member => ?_⟩
    have low : base ≤ p.pVaddr.toNat := first.2 ⟨p, member, rfl⟩
    have start := p.pVaddr.isLt
    have size := p.pMemsz.isLt
    exact Set.Ico_subset_Ico low (by omega)
  exact ⟨Nat.find whole, Nat.find_spec whole, fun n contains => Nat.find_min' whole contains⟩

theorem Elf32Phdr.LoadedAt.modEq {p : Elf32Phdr} {t u : Int} (one : p.LoadedAt t)
    (other : p.LoadedAt u) : t % 2 ^ 32 = u % 2 ^ 32 := by
  have same : BitVec.ofInt 32 t = BitVec.ofInt 32 u := by
    apply (BitVec.add_right_inj p.pVaddr).mp
    rw [← one, ← other]
  have values := congrArg BitVec.toNat same
  rw [BitVec.toNat_ofInt, BitVec.toNat_ofInt] at values
  omega

/-- Segments that are to be loaded where they are linked for go wrong only by an empty one behind
the interval. -/
theorem endsWithin_identity (entries : ps ≠ []) {base n : Nat}
    (first : IsLeast (baseAddresses ps) base) (smallest : IsLeast (enough ps base) n)
    (same : ∀ p ∈ ps, p.pPaddr = p.pVaddr) :
    EndsWithin ps base (base + n) ↔ ∀ p ∈ ps, p.stop ≤ base + n := by
  have still (p : Elf32Phdr) (member : p ∈ ps) : p.LoadedAt 0 := by
    rw [Elf32Phdr.LoadedAt, same p member]
    simp
  constructor
  · intro ends p member
    by_cases filled : p.pMemsz = 0
    · -- the shift that the condition names may be another multiple of the address space
      obtain ⟨t, place, low, high⟩ := ends.within p member
      have whole := place.modEq (still p member)
      have below := p.pVaddr.isLt
      have start : p.stop = p.pVaddr.toNat := by simp [Elf32Phdr.stop, filled]
      omega
    · exact stop_le smallest.1 member filled
  · intro inside
    obtain ⟨q, last, value⟩ := exists_stop_eq entries first smallest inside
    refine ⟨fun p member => ⟨0, still p member, ?_, ?_⟩, q, last, ?_⟩
    · have low : base ≤ p.pVaddr.toNat := first.2 ⟨p, member, rfl⟩
      unfold Elf32Phdr.stop
      omega
    · have high := inside p member
      omega
    · have zero : ((base + n : Nat) : Int) - q.stop = 0 := by omega
      rw [zero]
      exact still q last

/-- Segments that are linked for other addresses than they are loaded at, all by the same distance,
as those of a kernel in the upper half are, never get the right interval. -/
theorem endsWithin_shifted (entries : ps ≠ []) {base n : Nat} {t : Int}
    (first : IsLeast (baseAddresses ps) base) (smallest : IsLeast (enough ps base) n)
    (short : n < 2 ^ 31) (filled : ∀ p ∈ ps, p.pMemsz ≠ 0) (moved : ∀ p ∈ ps, p.LoadedAt t)
    (away : t % 2 ^ 32 ≠ 0) : ¬EndsWithin ps base (base + n) := by
  intro ends
  have inside (p : Elf32Phdr) (member : p ∈ ps) : p.stop ≤ base + n :=
    stop_le smallest.1 member (filled p member)
  -- the segment at the end of the interval can only be moved down, by less than half of memory
  obtain ⟨p, member, value⟩ := exists_stop_eq entries first smallest inside
  obtain ⟨u, place, low, high⟩ := ends.within p member
  have down := place.modEq (moved p member)
  -- and the one that gets to the end of the interval only up
  obtain ⟨q, last, reached⟩ := ends.reached
  have up := reached.modEq (moved q last)
  have start : base ≤ q.pVaddr.toNat := first.2 ⟨q, last, rfl⟩
  have bound := inside q last
  unfold Elf32Phdr.stop at bound up
  omega

/-- `elf32_load` looks at the `PT_LOAD` entries only, and finds the base address. It finds the
interval exactly if that is shorter than the address space and the segments, moved to their
physical addresses, end inside of it and one of them at its end. Where these are the virtual ones,
that is so if no empty segment lies behind it; where all are moved by the same distance, it is
not. -/
theorem elf32Load_interval_iff (m : Memory) (hdr pgdir : BitVec 32) (nonnull : hdr ≠ 0)
    (mapped : pgdir ≠ 0) (entries : loads m hdr ≠ []) :
    (∀ m' hdr', hdr' ≠ 0 → loads m' hdr' = loads m hdr →
      elf32Load m' hdr' (some pgdir) = elf32Load m hdr (some pgdir)) ∧
    ∃ base n, IsLeast (baseAddresses (loads m hdr)) base ∧
      IsLeast (enough (loads m hdr) base) n ∧
      ((∃ r, elf32Load m hdr (some pgdir) = .ok r ∧
          SmallestInterval (loads m hdr) r.base r.size) ↔
        n < 2 ^ 32 ∧ EndsWithin (loads m hdr) base (base + n)) ∧
      ((∀ p ∈ loads m hdr, p.pPaddr = p.pVaddr) →
        (EndsWithin (loads m hdr) base (base + n) ↔ ∀ p ∈ loads m hdr, p.stop ≤ base + n)) ∧
      ∀ t : Int, t % 2 ^ 32 ≠ 0 → n < 2 ^ 31 → (∀ p ∈ loads m hdr, p.pMemsz ≠ 0) →
        (∀ p ∈ loads m hdr, p.LoadedAt t) → ¬EndsWithin (loads m hdr) base (base + n) := by
  rw [elf32Load_eq m nonnull mapped]
  refine ⟨fun m' hdr' some same => ?_, ?_⟩
  · rw [elf32Load_eq m' some mapped, same]
  have first := loadBase_isLeast entries
  have last := loadSize_isGreatest entries (loadBase (loads m hdr))
  generalize loadBase (loads m hdr) = base at first last
  obtain ⟨n, smallest⟩ := exists_isLeast_enough first
  refine ⟨base.toNat, n, first, smallest, ?_, endsWithin_identity entries first smallest,
    fun t away short filled moved => endsWithin_shifted entries first smallest short filled moved
      away⟩
  rw [← endsWithin_iff]
  constructor
  · rintro ⟨r, returned, -, least⟩
    cases returned
    rwa [least.unique smallest] at last
  · intro greatest
    refine ⟨_, rfl, first, ?_⟩
    rwa [last.unique greatest]

/-- The file of one segment of 16 bytes at virtual address 0x1000, with `paddr` for the second
byte of its physical address. -/
def oneSegment (paddr : BitVec 8) : Memory := fun x =>
  -- e_phoff, e_phentsize, e_phnum, p_type, p_vaddr, p_paddr, p_memsz
  if x = 0x101C then 52 else if x = 0x102A then 32 else if x = 0x102C then 1
  else if x = 0x1034 then 1 else if x = 0x103D then 0x10 else if x = 0x1041 then paddr
  else if x = 0x1048 then 0x10 else 0

theorem loads_oneSegment : loads (oneSegment 0x10) 0x1000 = [⟨1, 0x1000, 0x1000, 0x10⟩] := by
  decide

theorem loads_oneSegment_low : loads (oneSegment 0) 0x1000 = [⟨1, 0x1000, 0, 0x10⟩] := by
  decide

/-- The interval of a segment on its own. -/
theorem oneSegment_interval (paddr : BitVec 32) :
    IsLeast (baseAddresses [⟨1, 0x1000, paddr, 0x10⟩]) (0x1000#32).toNat ∧
      IsLeast (enough [⟨1, 0x1000, paddr, 0x10⟩] (0x1000#32).toNat) 0x10 := by
  refine ⟨⟨⟨_, List.mem_singleton_self _, rfl⟩, ?_⟩, ?_, fun n contains => ?_⟩
  · rintro a ⟨p, member, rfl⟩
    rw [List.mem_singleton.mp member]
    exact Nat.le_refl _
  · intro p member
    rw [List.mem_singleton.mp member]
    exact Set.Subset.rfl
  · have last := contains _ (List.mem_singleton_self _)
      (show 0x100F ∈ Set.Ico 0x1000 (0x1000 + 0x10) by simp)
    have reached : 0x100F < 0x1000 + n := last.2
    omega

/-- A segment at the same physical and virtual address -/
theorem elf32Load_interval_same : ∃ r, elf32Load (oneSegment 0x10) 0x1000 (some 0x5000) = .ok r ∧
    SmallestInterval (loads (oneSegment 0x10) 0x1000) r.base r.size := by
  obtain ⟨-, base, n, least, smallest, right, same, -⟩ := elf32Load_interval_iff (oneSegment 0x10)
    0x1000 0x5000 (by decide) (by decide) (by rw [loads_oneSegment]; simp)
  apply right.mpr
  rw [loads_oneSegment] at least smallest same ⊢
  obtain ⟨first, second⟩ := oneSegment_interval 0x1000
  obtain rfl := least.unique first
  obtain rfl := smallest.unique second
  refine ⟨by decide, (same ?_).mpr ?_⟩
  · decide
  · decide

/-- A segment that is linked for 0x1000 and to be loaded at physical address 0 gets a size of
nearly four gigabytes. -/
theorem elf32Load_physical : ¬∀ (m : Memory) (hdr pgdir : BitVec 32), hdr ≠ 0 → pgdir ≠ 0 →
    loads m hdr ≠ [] → (∀ p ∈ loads m hdr, p.pVaddr.toNat + p.pMemsz.toNat ≤ 2 ^ 32) →
      ∃ r, elf32Load m hdr (some pgdir) = .ok r ∧
        SmallestInterval (loads m hdr) r.base r.size := by
  intro all
  have fits : ∀ p ∈ loads (oneSegment 0) 0x1000, p.pVaddr.toNat + p.pMemsz.toNat ≤ 2 ^ 32 := by
    rw [loads_oneSegment_low]
    decide
  obtain ⟨r, returned, -, smallest⟩ := all (oneSegment 0) 0x1000 0x5000 (by decide) (by decide)
    (by rw [loads_oneSegment_low]; simp) fits
  rw [elf32Load_eq _ (by decide) (by decide), loads_oneSegment_low] at returned
  cases returned
  rw [loads_oneSegment_low] at smallest
  have same := smallest.unique (oneSegment_interval 0).2
  revert same
  decide

end Treeos
