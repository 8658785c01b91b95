import Treeos.Pmm.Setup
import Mathlib.Data.List.Nodup

/-!
# The kernel heap

`kernel_heap_init`, `liballoc_alloc` and `liballoc_free` of `vmm/kernel_heap.c`, and who
owns the frames of the heap pages over any history of these calls.
-/
namespace Treeos

open PageTable PagingState

/-- `struct heap`. -/
structure Heap where
  base : BitVec 32
  size : BitVec 32

/-- `heap_alloc` for the structure at `heap`, which is not NULL. -/
def heapAlloc (heap base size : BitVec 32) : Except Panic Heap := do
  kassert (base ≠ 0) "base"
  -- Make sure the heap is page-aligned
  if base % 0x1000 ≠ 0 ∨ size % 0x1000 ≠ 0 then
    .error (.fmt "heap %p not page-aligned: base=%u, size=%u" [heap, base, size])
  else .ok ⟨base, size⟩

/-- `kernel_heap_init` -/
def kernelHeapInit (kheap : BitVec 32) : Except Panic Heap := heapAlloc kheap kheapStart 0

theorem kernelHeapInit_eq (kheap : BitVec 32) : kernelHeapInit kheap = .ok ⟨kheapStart, 0⟩ := rfl

/-- What `liballoc_alloc` and `liballoc_free` work on. -/
structure KernelHeap where
  paging : PagingState
  kheap : Heap
  -- the pages that `liballoc_free` has given back, each with its frame and with the bit of
  -- the frame before `page_free`; the code keeps no such list
  returned : List (BitVec 32 × Frame × Bool)

namespace KernelHeap

/-- The loop body of `liballoc_alloc` -/
def allocPage (depth : Nat) (h : KernelHeap) : Except Panic KernelHeap := do
  -- Grab a free physical page
  let (pte, bitmap) ← pageAlloc h.paging.bitmap (some 0)
  match pte with
  | none => .error (.msg "out of memory")
  | some pte =>
    let vaddr := h.kheap.base + h.kheap.size
    let paging ← pageMap depth { h.paging with bitmap := bitmap } (frameAddr pte.address) vaddr
      true false
    let size := h.kheap.size + 0x1000
    panicIf (kheapMaxSize < size) "maximum kernel heap size exceeded"
    .ok { h with paging := paging, kheap := { h.kheap with size := size } }

def allocPages (depth : Nat) : Nat → KernelHeap → Except Panic KernelHeap
  | 0, h => .ok h
  | pages + 1, h => do
    let h ← h.allocPage depth
    allocPages depth pages h

/-- `liballoc_alloc` -/
def liballocAlloc (depth : Nat) (h : KernelHeap) (pages : BitVec 32) :
    Except Panic (BitVec 32 × KernelHeap) :=
  -- allocating zero pages
  if pages = 0 then .ok (0, h)
  else do
    let start := h.kheap.base + h.kheap.size
    let h ← h.allocPages depth pages.toNat
    .ok (start, h)

/-- The loop body of `liballoc_free` -/
def freePage (h : KernelHeap) (vaddr : BitVec 32) : Except Panic KernelHeap := do
  let paddr ← h.paging.virtToPhys vaddr
  let pte := Entry.setAddress 0 (frameOf paddr)
  let paging ← h.paging.pageUnmap vaddr
  let bitmap ← pageFree paging.bitmap (some pte)
  let inUse := paging.bitmap.testBit pte.address.toNat
  .ok { h with paging := { paging with bitmap := bitmap },
               returned := (vaddr, pte.address, inUse) :: h.returned }

/-- The loop of `liballoc_free`, from the last page to the first. -/
def freePages (base : BitVec 32) : Nat → KernelHeap → Except Panic KernelHeap
  | 0, h => .ok h
  | pages + 1, h => do
    let h ← h.freePage (base + BitVec.ofNat 32 (4096 * pages))
    freePages base pages h

/-- `liballoc_free` -/
def liballocFree (h : KernelHeap) (block pages : BitVec 32) :
    Except Panic (BitVec 32 × KernelHeap) := do
  kassert (block ≠ 0) "block"
  kassert (isPageAligned block) "IS_PAGE_ALIGNED(block)"
  -- freeing zero pages
  if pages = 0 then .ok (-1, h)
  else do
    panicIf (h.kheap.base + h.kheap.size < block) "freeing block outside range of kernel heap"
    let h ← freePages block pages.toNat h
    .ok (0, h)

end KernelHeap

/-! ### Frames taken for tables -/

namespace PagingState

/-- The frames of the tables that `s` has and `s₀` does not. -/
def tableFrames (s₀ s : PagingState) : Set Frame :=
  {f | ∃ i, (s₀.mem s₀.dir i).present = false ∧ (s.mem s.dir i).present = true ∧
    (s.mem s.dir i).address = f}

variable {s₀ s s' : PagingState} {v w physaddr : BitVec 32} {f : Frame} {rw user : Bool}

theorem KeepsTables.refl (s : PagingState) : KeepsTables s s := ⟨rfl, fun _ _ => rfl⟩

theorem KeepsTables.trans (first : KeepsTables s₀ s) (second : KeepsTables s s') :
    KeepsTables s₀ s' := by
  refine ⟨second.1.trans first.1, fun i present => ?_⟩
  have same := first.2 i present
  rw [second.2 i (same ▸ present), same]

/-- States with the same directory have the same tables. -/
theorem tableFrames_congr (dir : s'.dir = s.dir) (entry : ∀ i, s'.mem s.dir i = s.mem s.dir i) :
    tableFrames s₀ s' = tableFrames s₀ s := by
  unfold tableFrames
  simp only [dir, entry]

theorem tableFrames_trans (first : KeepsTables s₀ s) (second : KeepsTables s s') :
    tableFrames s₀ s' = tableFrames s₀ s ∪ tableFrames s s' := by
  ext f
  constructor
  · rintro ⟨i, absent, present, rfl⟩
    cases before : (s.mem s.dir i).present with
    | false => exact .inr ⟨i, before, present, rfl⟩
    | true => exact .inl ⟨i, absent, before, congrArg Entry.address (second.2 i before).symm⟩
  · rintro (⟨i, absent, present, rfl⟩ | ⟨i, absent, present, rfl⟩)
    · have same := second.2 i present
      exact ⟨i, absent, same ▸ present, congrArg Entry.address same⟩
    · refine ⟨i, Bool.eq_false_iff.mpr fun before => ?_, present, rfl⟩
      rw [first.2 i before, before] at absent
      cases absent

/-- Of the bits `page_map` sets those of new tables, which were clear. -/
theorem PageMapped.bits (mapped : s.PageMapped physaddr v rw user s') (tables : s.Tables) :
    (∀ bit, s'.bitmap.testBit bit = true ↔
      s.bitmap.testBit bit = true ∨ ∃ g ∈ tableFrames s s', g.toNat = bit) ∧
    ∀ g ∈ tableFrames s s', s.bitmap.testBit g.toNat = false := by
  cases mapped with
  | @entry table here allowed absent =>
    have none (e : Entry) (g : Frame) :
        g ∉ tableFrames s (s.setMem (write s.mem table (tableIndex v) e)) := by
      rintro ⟨i, before, after, -⟩
      rw [setMem_mem, setMem_dir, write_of_frame_ne s.mem (Ne.symm here.apart), before] at after
      cases after
    refine ⟨fun bit => ⟨.inl, fun set => set.resolve_right ?_⟩, fun g member =>
      absurd member (none _ g)⟩
    rintro ⟨g, member, -⟩
    exact none _ g member
  | @table f absent allowed least slot =>
    have apart := (tables.busy least.1.2).1
    obtain ⟨s', made⟩ : ∃ s', s' = (s.withTable v s.kernelTable f).setMem
      (write (s.withTable v s.kernelTable f).mem f (tableIndex v)
        ((0 : Entry).mapped physaddr rw user)) := ⟨_, rfl⟩
    have entry (i : BitVec 10) : s'.mem s'.dir i =
        if i = dirIndex v then (s.mem s.dir (dirIndex v)).linked f else s.mem s.dir i := by
      rw [made]
      exact (write_of_frame_ne _ (Ne.symm apart)).trans
        (withTable_mem_dir tables.kernelTable_ne_dir apart i)
    -- the new table is the only one
    have only (g : Frame) : g ∈ tableFrames s s' ↔ g = f := by
      constructor
      · rintro ⟨i, before, after, rfl⟩
        rw [entry] at after ⊢
        split at after
        next new => rw [if_pos new, Entry.address_linked]
        next old => rw [before] at after; cases after
      · rintro rfl
        refine ⟨dirIndex v, absent, ?_⟩
        rw [entry, if_pos rfl]
        exact ⟨Entry.present_linked _ _, Entry.address_linked _ _⟩
    have bits (bit : Nat) : s'.bitmap.testBit bit =
        (decide (f.toNat = bit) || s.bitmap.testBit bit) := by
      rw [made]
      exact s.bitmap.testBit_setBit _ _
    rw [← made]
    refine ⟨fun bit => ?_, fun g member => (only g).mp member ▸ least.1.2⟩
    rw [bits, Bool.or_eq_true, decide_eq_true_iff, or_comm]
    refine or_congr_right ⟨fun same => ⟨f, (only f).mpr rfl, same⟩, ?_⟩
    rintro ⟨g, member, rfl⟩
    rw [(only g).mp member]

/-! ### Frames given back -/

theorem Tables.clearBit (tables : s.Tables)
    (unused : ∀ i, (s.mem s.dir i).present = true → (s.mem s.dir i).address ≠ f) :
    Tables { s with bitmap := s.bitmap.clearBit f.toNat } := by
  refine ⟨tables.selfMap, tables.shared, tables.kernel, tables.distinct, fun i present => ?_,
    tables.bound⟩
  have other : f.toNat ≠ (s.mem s.dir i).address.toNat := fun same =>
    unused i present (BitVec.eq_of_toNat_eq same.symm)
  show (s.bitmap.clearBit f.toNat).testBit _ = true
  rw [Bitmap.testBit_clearBit, decide_eq_false other, tables.used i present]
  rfl

theorem KernelSpace.clearBit (space : s.KernelSpace) (nonzero : f ≠ 0)
    (unused : ∀ i, (s.mem s.dir i).present = true → (s.mem s.dir i).address ≠ f) :
    KernelSpace { s with bitmap := s.bitmap.clearBit f.toNat } := by
  have inv := space.placement
  refine ⟨⟨inv.tables.clearBit unused, inv.aligned, inv.low, inv.high, inv.empty, inv.below,
    inv.next, ?_, inv.dir⟩, space.writable⟩
  have other : f.toNat ≠ 0 := fun same => nonzero (BitVec.eq_of_toNat_eq same)
  show (s.bitmap.clearBit f.toNat).testBit 0 = true
  rw [Bitmap.testBit_clearBit, decide_eq_false other, inv.zero]
  rfl

end PagingState

/-! ### Leases -/

/-- A heap page and the frame it was mapped to. -/
structure Lease where
  page : BitVec 32
  frame : Frame
deriving DecidableEq

/-- An address of the kernel heap at its maximal size. -/
structure HeapAddress (v : BitVec 32) : Prop where
  low : kheapStart ≤ v
  high : v < kheapStart + kheapMaxSize

theorem HeapAddress.callerPage {v : BitVec 32} (inside : HeapAddress v) : CallerPage v := by
  have low : 0xD0000000#32 ≤ v := inside.low
  have high : v < 0xD0000000#32 + 0x100000#32 := inside.high
  constructor
  · show 0xC4000000#32 ≤ v
    bv_omega
  · show v < 0xFFC00000#32
    bv_omega

theorem HeapAddress.samePage {v w : BitVec 32} (inside : HeapAddress v)
    (same : pageOf v = pageOf w) : HeapAddress w := by
  have low : 0xD0000000 ≤ v.toNat := inside.low
  have high : v.toNat < 0xD0100000 := inside.high
  rw [pageOf_eq_iff] at same
  constructor
  · show 0xD0000000 ≤ w.toNat
    omega
  · show w.toNat < 0xD0100000
    omega

open KernelHeap

/-- The heap pages that are mapped are those of `leases`, each to the frame of its lease, and
nobody else uses these frames. -/
structure Leased (s₀ : PagingState) (h : KernelHeap) (leases : List Lease) : Prop where
  space : h.paging.KernelSpace
  kept : KeepsTables s₀ h.paging
  base : h.kheap.base = kheapStart
  size : h.kheap.size.toNat ≤ 0x100000 ∧ h.kheap.size.toNat % 4096 = 0
  inside : ∀ l ∈ leases, isPageAligned l.page = true ∧ kheapStart.toNat ≤ l.page.toNat ∧
    l.page.toNat < kheapStart.toNat + h.kheap.size.toNat
  pages : (leases.map Lease.page).Nodup
  frames : (leases.map Lease.frame).Nodup
  mapped : ∀ l ∈ leases, ∃ e, h.paging.lookup (pageOf l.page) = some e ∧
    e.address = l.frame ∧ e.rw = true
  unmapped : ∀ v, HeapAddress v → (∀ l ∈ leases, pageOf v ≠ pageOf l.page) →
    h.paging.lookup (pageOf v) = none
  fresh : ∀ l ∈ leases, s₀.bitmap.testBit l.frame.toNat = false ∧
    l.frame ∉ tableFrames s₀ h.paging
  tables : ∀ f ∈ tableFrames s₀ h.paging, s₀.bitmap.testBit f.toNat = false
  bits : ∀ bit, h.paging.bitmap.testBit bit = true ↔ s₀.bitmap.testBit bit = true ∨
    (∃ l ∈ leases, l.frame.toNat = bit) ∨ ∃ f ∈ tableFrames s₀ h.paging, f.toNat = bit

variable {s₀ : PagingState} {h h' : KernelHeap} {leases : List Lease} {depth : Nat}

/-- No page of the heap is mapped before the first call. -/
theorem leased_empty (start : s₀.KernelSpace)
    (unmapped : ∀ v, HeapAddress v → s₀.lookup (pageOf v) = none) :
    Leased s₀ ⟨s₀, ⟨kheapStart, 0⟩, []⟩ [] := by
  have noTable (f : Frame) : f ∉ tableFrames s₀ s₀ := by
    rintro ⟨i, absent, present, -⟩
    rw [absent] at present
    cases present
  refine ⟨start, .refl s₀, rfl, ⟨Nat.zero_le _, rfl⟩, nofun, .nil, .nil, nofun,
    fun v inside _ => unmapped v inside, nofun, fun f member => absurd member (noTable f),
    fun bit => ⟨.inl, ?_⟩⟩
  rintro (used | ⟨l, none, -⟩ | ⟨f, member, -⟩)
  · exact used
  · cases none
  · exact absurd member (noTable f)

theorem Leased.perm {leases' : List Lease} (inv : Leased s₀ h leases)
    (same : leases.Perm leases') : Leased s₀ h leases' := by
  have member {l : Lease} : l ∈ leases' → l ∈ leases := same.mem_iff.mpr
  refine ⟨inv.space, inv.kept, inv.base, inv.size, fun l here => inv.inside l (member here),
    (same.map _).nodup_iff.mp inv.pages, (same.map _).nodup_iff.mp inv.frames,
    fun l here => inv.mapped l (member here), fun v inside other => ?_,
    fun l here => inv.fresh l (member here), inv.tables, fun bit => ?_⟩
  · exact inv.unmapped v inside fun l here => other l (same.mem_iff.mp here)
  · rw [inv.bits]
    simp only [same.mem_iff]

/-- Pages that are aligned have different numbers. -/
theorem pageOf_inj {v w : BitVec 32} (first : isPageAligned v = true)
    (second : isPageAligned w = true) (same : pageOf v = pageOf w) : v = w := by
  rw [isPageAligned_iff] at first second
  rw [pageOf_eq_iff] at same
  apply BitVec.eq_of_toNat_eq
  omega

theorem Leased.address (inv : Leased s₀ h leases) {v : BitVec 32}
    (low : kheapStart.toNat ≤ v.toNat)
    (high : v.toNat < kheapStart.toNat + h.kheap.size.toNat) : HeapAddress v := by
  have size := inv.size.1
  have start : kheapStart.toNat = 0xD0000000 := rfl
  refine ⟨?_, ?_⟩
  · rw [BitVec.le_def]
    exact low
  · rw [BitVec.lt_def]
    show _ < 0xD0100000
    omega

theorem Leased.heapAddress (inv : Leased s₀ h leases) {l : Lease} (member : l ∈ leases) :
    HeapAddress l.page :=
  inv.address (inv.inside l member).2.1 (inv.inside l member).2.2

/-- The page that `liballoc_alloc` maps next. -/
theorem Leased.next (inv : Leased s₀ h leases) :
    (h.kheap.base + h.kheap.size).toNat = kheapStart.toNat + h.kheap.size.toNat := by
  have size := inv.size.1
  rw [inv.base, BitVec.toNat_add, show kheapStart.toNat = 0xD0000000 from rfl]
  omega

/-! ### One page -/

theorem allocPage_cases (returned : h.allocPage depth = .ok h')
    (bound : h.paging.bitmap.wordCount.toNat ≤ 1024) : ∃ (f : Frame) (t s' : PagingState),
      IsLeast h.paging.bitmap.clearBits f.toNat ∧
      t = { h.paging with bitmap := h.paging.bitmap.setBit f.toNat } ∧
      PlacementStep h.paging .alloc t ∧
      t.pageMap depth (frameAddr f) (h.kheap.base + h.kheap.size) true false = .ok s' ∧
      h.kheap.size + 0x1000 ≤ kheapMaxSize ∧
      h' = { h with paging := s', kheap := { h.kheap with size := h.kheap.size + 0x1000 } } := by
  unfold allocPage at returned
  obtain ⟨⟨_ | pte, bitmap⟩, taken, rest⟩ := bind_ok_iff.mp returned
  · cases rest
  · obtain ⟨s', mapped, grown⟩ := bind_ok_iff.mp rest
    obtain ⟨fits, same⟩ := panicIf_bind_ok_iff.mp grown
    have step := PlacementStep.alloc taken
    obtain ⟨least, rfl⟩ := pageAlloc_some bound taken
    exact ⟨pte.address, _, s', least, rfl, step, mapped,
      BitVec.not_lt.mp (of_decide_eq_false fits), (Except.ok.inj same).symm⟩

/-- The page that is mapped next is one of the heap, while the heap may grow. -/
theorem Leased.next_inside (inv : Leased s₀ h leases)
    (fits : h.kheap.size + 0x1000 ≤ kheapMaxSize) :
    (h.kheap.size + 0x1000).toNat = h.kheap.size.toNat + 4096 ∧
      h.kheap.size.toNat + 4096 ≤ 0x100000 ∧ HeapAddress (h.kheap.base + h.kheap.size) := by
  have next := inv.next
  have small := inv.size.1
  have start : kheapStart.toNat = 0xD0000000 := rfl
  have grown : (h.kheap.size + 0x1000).toNat = h.kheap.size.toNat + 4096 := by
    rw [BitVec.toNat_add]
    show (_ + 4096) % 2 ^ 32 = _
    omega
  have room : h.kheap.size.toNat + 4096 ≤ 0x100000 := by
    rw [← grown]
    exact fits
  refine ⟨grown, room, ?_, ?_⟩
  · rw [BitVec.le_def]
    omega
  · rw [BitVec.lt_def]
    show _ < 0xD0100000
    omega

/-- A frame that nobody has is leased, and other frames that nobody has are made tables. -/
theorem Leased.addFrame (inv : Leased s₀ h leases) {s' : PagingState} {f : Frame} (v : BitVec 32)
    {new : Set Frame} (free : h.paging.bitmap.testBit f.toNat = false)
    (frames : tableFrames s₀ s' = tableFrames s₀ h.paging ∪ new)
    (apart : ∀ g, f = g ∨ h.paging.bitmap.testBit g.toNat = true → g ∉ new)
    (bits : ∀ bit, s'.bitmap.testBit bit = true ↔
      (f.toNat = bit ∨ h.paging.bitmap.testBit bit = true) ∨ ∃ g ∈ new, g.toNat = bit) :
    f ∉ leases.map Lease.frame ∧
      (∀ l ∈ (⟨v, f⟩ : Lease) :: leases, s₀.bitmap.testBit l.frame.toNat = false ∧
        l.frame ∉ tableFrames s₀ s') ∧
      (∀ g ∈ tableFrames s₀ s', s₀.bitmap.testBit g.toNat = false) ∧
      ∀ bit, s'.bitmap.testBit bit = true ↔ s₀.bitmap.testBit bit = true ∨
        (∃ l ∈ (⟨v, f⟩ : Lease) :: leases, l.frame.toNat = bit) ∨
          ∃ g ∈ tableFrames s₀ s', g.toNat = bit := by
  have unused : ¬h.paging.bitmap.testBit f.toNat = true := by
    rw [free]
    decide
  rw [inv.bits, not_or, not_or] at unused
  obtain ⟨initial, leased, table⟩ := unused
  refine ⟨fun member => ?_, ?_, fun g member => ?_, fun bit => ?_⟩
  · obtain ⟨l, member, same⟩ := List.mem_map.mp member
    exact leased ⟨l, member, congrArg BitVec.toNat same⟩
  · rintro l (_ | ⟨_, member⟩)
    · refine ⟨by simpa using initial, ?_⟩
      rw [frames]
      rintro (before | after)
      · exact table ⟨f, before, rfl⟩
      · exact apart f (.inl rfl) after
    · obtain ⟨free, away⟩ := inv.fresh l member
      refine ⟨free, ?_⟩
      rw [frames]
      rintro (before | after)
      · exact away before
      · exact apart l.frame (.inr ((inv.bits _).mpr (.inr (.inl ⟨l, member, rfl⟩)))) after
  · rw [frames] at member
    rcases member with before | after
    · exact inv.tables g before
    · refine Bool.eq_false_iff.mpr fun used => apart g (.inr ?_) after
      exact (inv.bits _).mpr (.inl used)
  · have lease : (∃ l ∈ (⟨v, f⟩ : Lease) :: leases, l.frame.toNat = bit) ↔
        f.toNat = bit ∨ ∃ l ∈ leases, l.frame.toNat = bit :=
      List.exists_mem_cons_iff (fun l : Lease => l.frame.toNat = bit) _ _
    have table : (∃ g ∈ tableFrames s₀ s', g.toNat = bit) ↔
        (∃ g ∈ tableFrames s₀ h.paging, g.toNat = bit) ∨ ∃ g ∈ new, g.toNat = bit := by
      rw [frames]
      simp only [Set.mem_union, or_and_right, exists_or]
    rw [bits, inv.bits, lease, table]
    simp only [or_assoc, or_left_comm]

/-- The page behind the heap is apart from the leased ones. -/
theorem Leased.next_apart (inv : Leased s₀ h leases) {l : Lease} (member : l ∈ leases) :
    l.page ≠ h.kheap.base + h.kheap.size ∧
      pageOf l.page ≠ pageOf (h.kheap.base + h.kheap.size) := by
  have next := inv.next
  have whole := inv.size.2
  have start : kheapStart.toNat = 0xD0000000 := rfl
  obtain ⟨-, -, high⟩ := inv.inside l member
  have away : pageOf l.page ≠ pageOf (h.kheap.base + h.kheap.size) := by
    rw [ne_eq, pageOf_eq_iff]
    omega
  exact ⟨fun same => away (congrArg pageOf same), away⟩

/-- With that page the heap has grown. -/
theorem Leased.inside_grown (inv : Leased s₀ h leases) (f : Frame)
    (grown : (h.kheap.size + 0x1000).toNat = h.kheap.size.toNat + 4096) :
    ∀ l ∈ (⟨h.kheap.base + h.kheap.size, f⟩ :: leases : List Lease), isPageAligned l.page = true ∧
      kheapStart.toNat ≤ l.page.toNat ∧
      l.page.toNat < kheapStart.toNat + (h.kheap.size + 0x1000).toNat := by
  have next := inv.next
  have whole := inv.size.2
  have start : kheapStart.toNat = 0xD0000000 := rfl
  rw [grown]
  rintro l (_ | ⟨_, member⟩)
  · refine ⟨isPageAligned_iff.mpr ?_, ?_, ?_⟩
    · show (h.kheap.base + h.kheap.size).toNat % 4096 = 0
      omega
    · show _ ≤ (h.kheap.base + h.kheap.size).toNat
      omega
    · show (h.kheap.base + h.kheap.size).toNat < _
      omega
  · obtain ⟨aligned, low, high⟩ := inv.inside l member
    exact ⟨aligned, low, by omega⟩

/-- `liballoc_alloc` leases a frame that nobody uses. -/
theorem Leased.allocPage (inv : Leased s₀ h leases)
    (returned : h.allocPage depth = .ok h') : ∃ f,
      Leased s₀ h' (⟨h.kheap.base + h.kheap.size, f⟩ :: leases) ∧
      h'.kheap.size = h.kheap.size + 0x1000 ∧ h'.returned = h.returned ∧
      ∀ w, CallerPage w → pageOf w ≠ pageOf (h.kheap.base + h.kheap.size) →
        h'.paging.lookup (pageOf w) = h.paging.lookup (pageOf w) := by
  obtain ⟨f, t, s', least, taken, step, mapping, fits, rfl⟩ :=
    allocPage_cases returned inv.space.tables.bound
  obtain ⟨grown, room, address⟩ := inv.next_inside fits
  have whole := inv.size.2
  have inside' := inv.inside_grown f grown
  have apart' {l : Lease} (member : l ∈ leases) := inv.next_apart member
  generalize h.kheap.base + h.kheap.size = v at mapping address inside' apart'
  have page := address.callerPage
  -- the state with the bit of the frame set, and the one behind `page_map`
  have space : t.KernelSpace := (KernelStep.call step).inv inv.space
  have space' : s'.KernelSpace := (KernelStep.call (.map page mapping)).inv space
  have inside := space.placement.pageMap_room page mapping
  have mapped := pageMap_cases space.tables (page.dirIndex_ne 1023 (by decide))
    (inside.imp_right fun room => (space.placement.slot_toNat room).1) mapping
  obtain ⟨old, found⟩ := mapped.lookup_self space.tables
  have other (w : BitVec 32) (own : CallerPage w) (away : pageOf w ≠ pageOf v) :
      s'.lookup (pageOf w) = h.paging.lookup (pageOf w) := by
    rw [mapped.lookup_other space.placement page inside own away, taken]
    rfl
  have kept : KeepsTables s₀ t := by
    rw [taken]
    exact inv.kept
  have keeps := mapped.keepsTables space.tables
  have frames : tableFrames s₀ s' = tableFrames s₀ h.paging ∪ tableFrames t s' := by
    rw [tableFrames_trans kept keeps, taken]
    rfl
  obtain ⟨bits, clear⟩ := mapped.bits space.tables
  have set (bit : Nat) : t.bitmap.testBit bit = true ↔
      f.toNat = bit ∨ h.paging.bitmap.testBit bit = true := by
    rw [taken]
    show (h.paging.bitmap.setBit f.toNat).testBit bit = true ↔ _
    rw [Bitmap.testBit_setBit, Bool.or_eq_true, decide_eq_true_iff]
  -- the frame belongs to nobody, and the new tables get others
  have apart (g : Frame) (used : f = g ∨ h.paging.bitmap.testBit g.toNat = true) :
      g ∉ tableFrames t s' := by
    intro member
    have busy := (set g.toNat).mpr (used.imp_left (congrArg BitVec.toNat))
    rw [clear g member] at busy
    cases busy
  obtain ⟨newFrame, fresh, tables, allBits⟩ := inv.addFrame v least.1.2 frames apart
    fun bit => (bits bit).trans (or_congr_left (set bit))
  refine ⟨f, ⟨space', kept.trans keeps, inv.base, ⟨?_, ?_⟩, ?_, ?_,
    List.nodup_cons.mpr ⟨newFrame, inv.frames⟩, ?_, ?_, fresh, tables, allBits⟩, rfl, rfl, other⟩
  · rw [grown]
    exact room
  · rw [grown]
    omega
  · exact inside'
  · rw [List.map_cons, List.nodup_cons]
    refine ⟨fun member => ?_, inv.pages⟩
    obtain ⟨l, member, same⟩ := List.mem_map.mp member
    exact (apart' member).1 same
  · rintro l (_ | ⟨_, member⟩)
    · exact ⟨_, found, by rw [Entry.address_mapped, frameOf_frameAddr], Entry.rw_mapped _ _ _ _⟩
    · rw [other _ (inv.heapAddress member).callerPage (apart' member).2]
      exact inv.mapped l member
  · intro w own away
    rw [other w own.callerPage (away ⟨v, f⟩ List.mem_cons_self)]
    exact inv.unmapped w own fun l member => away l (List.mem_cons_of_mem _ member)

theorem frameOf_virtToPhys {s : PagingState} {v : BitVec 32} {e : Entry} (selfMap : s.SelfMapped)
    (aligned : isPageAligned v = true) (found : s.lookup (pageOf v) = some e) :
    ∃ paddr, s.virtToPhys v = .ok paddr ∧ frameOf paddr = e.address := by
  have offset : v &&& 0xFFF#32 = 0#32 := by simpa [isPageAligned] using aligned
  refine ⟨frameAddr e.address, ?_, frameOf_frameAddr _⟩
  rw [virtToPhys_of_lookup selfMap found, offset, BitVec.add_zero,
    show ~~~0xFFF#32 = (0xFFFFF000 : BitVec 32) by decide, pageMask_eq, frameOf_eq_address]

/-- No table is in a leased frame. -/
theorem Leased.unused (start : s₀.KernelSpace) (inv : Leased s₀ h leases) {l : Lease}
    (member : l ∈ leases) (i : BitVec 10) (present : (h.paging.mem h.paging.dir i).present = true) :
    (h.paging.mem h.paging.dir i).address ≠ l.frame := by
  obtain ⟨free, away⟩ := inv.fresh l member
  intro same
  cases before : (s₀.mem s₀.dir i).present with
  | false => exact away ⟨i, before, present, same⟩
  | true =>
    have old := start.tables.used i before
    rw [← inv.kept.2 i before, same, free] at old
    cases old

/-- The bits without that of a lease -/
theorem Leased.bits_without {l : Lease} (inv : Leased s₀ h (l :: leases)) (bit : Nat) :
    l.frame.toNat ≠ bit ∧ h.paging.bitmap.testBit bit = true ↔ s₀.bitmap.testBit bit = true ∨
      (∃ l ∈ leases, l.frame.toNat = bit) ∨ ∃ f ∈ tableFrames s₀ h.paging, f.toNat = bit := by
  obtain ⟨free, away⟩ := inv.fresh l List.mem_cons_self
  obtain ⟨newFrame, -⟩ := List.nodup_cons.mp inv.frames
  rw [inv.bits]
  constructor
  · rintro ⟨different, before | ⟨l', member, same⟩ | table⟩
    · exact .inl before
    · rcases List.mem_cons.mp member with rfl | member
      · exact absurd same different
      · exact .inr (.inl ⟨l', member, same⟩)
    · exact .inr (.inr table)
  · rintro (before | ⟨l', member, rfl⟩ | ⟨f, member, rfl⟩)
    · refine ⟨?_, .inl before⟩
      rintro rfl
      rw [free] at before
      cases before
    · refine ⟨fun same => newFrame ?_, .inr (.inl ⟨l', List.mem_cons_of_mem _ member, rfl⟩)⟩
      exact List.mem_map.mpr ⟨l', member, (BitVec.eq_of_toNat_eq same).symm⟩
    · refine ⟨fun same => away ?_, .inr (.inr ⟨f, member, rfl⟩)⟩
      rw [BitVec.eq_of_toNat_eq same]
      exact member

/-- `liballoc_free` clears the table entry of a leased page, and the bit of its frame. -/
theorem Leased.freePage_cases {l : Lease} (inv : Leased s₀ h (l :: leases))
    (returned : h.freePage l.page = .ok h') : ∃ table s₁, h.paging.TableAt l.page table ∧
      h.paging.pageUnmap l.page = .ok s₁ ∧
      s₁ = h.paging.setMem (write h.paging.mem table (tableIndex l.page) 0) ∧
      h' = { h with
        paging := { s₁ with bitmap := h.paging.bitmap.clearBit l.frame.toNat }
        returned := (l.page, l.frame, true) :: h.returned } := by
  have tables := inv.space.tables
  have page := (inv.heapAddress List.mem_cons_self).callerPage
  obtain ⟨aligned, -, -⟩ := inv.inside l List.mem_cons_self
  obtain ⟨e, found, frame, -⟩ := inv.mapped l List.mem_cons_self
  have used : h.paging.bitmap.testBit l.frame.toNat = true :=
    (inv.bits _).mpr (.inr (.inl ⟨l, List.mem_cons_self, rfl⟩))
  unfold KernelHeap.freePage at returned
  -- virt_to_phys answers with the frame of the lease before the page is unmapped
  obtain ⟨paddr, phys, unmap⟩ := bind_ok_iff.mp returned
  obtain ⟨paddr', phys', base⟩ := frameOf_virtToPhys tables.selfMap aligned found
  obtain rfl : paddr = paddr' := Except.ok.inj (phys.symm.trans phys')
  obtain ⟨s₁, unmapped, done⟩ := bind_ok_iff.mp unmap
  obtain ⟨table, here, -, -, rfl⟩ := pageUnmap_cases tables (dirIndex_ne_last page.high) unmapped
  simp only [pageFree, ok_bind, Entry.address_setAddress, base, frame, setMem_bitmap, used] at done
  exact ⟨table, _, here, unmapped, rfl, (Except.ok.inj done).symm⟩

/-- `liballoc_free` ends a lease. -/
theorem Leased.freePage (start : s₀.KernelSpace) {l : Lease} (inv : Leased s₀ h (l :: leases))
    (returned : h.freePage l.page = .ok h') : Leased s₀ h' leases ∧ h'.kheap = h.kheap ∧
      h'.returned = (l.page, l.frame, true) :: h.returned := by
  have tables := inv.space.tables
  have address := inv.heapAddress List.mem_cons_self
  have page := address.callerPage
  obtain ⟨aligned, -, -⟩ := inv.inside l List.mem_cons_self
  have free := (inv.fresh l List.mem_cons_self).1
  obtain ⟨newPage, pages⟩ := List.nodup_cons.mp inv.pages
  obtain ⟨-, frames⟩ := List.nodup_cons.mp inv.frames
  obtain ⟨table, s₁, here, unmapped, rfl, rfl⟩ := inv.freePage_cases returned
  have space' := (KernelStep.unmap page.high unmapped).inv inv.space
  obtain ⟨s', final⟩ : ∃ s' : PagingState, s' =
    { h.paging.setMem (write h.paging.mem table (tableIndex l.page) 0) with
      bitmap := h.paging.bitmap.clearBit l.frame.toNat } := ⟨_, rfl⟩
  rw [← final]
  have dir : s'.dir = h.paging.dir := by rw [final]; rfl
  have entry (i : BitVec 10) : s'.mem h.paging.dir i = h.paging.mem h.paging.dir i := by
    rw [final]
    exact write_of_frame_ne _ (Ne.symm here.apart)
  have unused := inv.unused start List.mem_cons_self
  have nonzero : l.frame ≠ 0 := by
    intro zero
    rw [zero] at free
    exact absurd (start.placement.zero.symm.trans free) (by decide)
  have space : s'.KernelSpace := by
    rw [final]
    refine space'.clearBit nonzero fun i present => ?_
    rw [setMem_dir, setMem_mem, write_of_frame_ne _ (Ne.symm here.apart)] at present ⊢
    exact unused i present
  have other (w : BitVec 32) (own : HeapAddress w) (away : pageOf w ≠ pageOf l.page) :
      s'.lookup (pageOf w) = h.paging.lookup (pageOf w) := by
    rw [final]
    exact tables.lookup_other here fun same =>
      away (aliases_high own.callerPage.low_le page.low_le same)
  have gone : s'.lookup (pageOf l.page) = none := by
    rw [final]
    exact (tables.lookup_alias here mem_aliases_self).trans (if_neg (by decide))
  have frameSet : tableFrames s₀ s' = tableFrames s₀ h.paging := tableFrames_congr dir entry
  refine ⟨⟨space, ⟨dir.trans inv.kept.1, fun i present => ?_⟩, inv.base, inv.size,
    fun l member => inv.inside l (List.mem_cons_of_mem _ member), pages, frames, ?_, ?_, ?_, ?_,
    ?_⟩, rfl, rfl⟩
  · rw [dir, entry]
    exact inv.kept.2 i present
  · intro l' member
    have different : pageOf l'.page ≠ pageOf l.page := by
      intro same
      have member' := List.mem_cons_of_mem l member
      have equal := pageOf_inj (inv.inside l' member').1 aligned same
      exact newPage (List.mem_map.mpr ⟨l', member, equal⟩)
    rw [other _ (inv.heapAddress (List.mem_cons_of_mem _ member)) different]
    exact inv.mapped l' (List.mem_cons_of_mem _ member)
  · intro w own outside
    by_cases same : pageOf w = pageOf l.page
    · rw [same]
      exact gone
    · rw [other w own same]
      refine inv.unmapped w own ?_
      rintro l' (_ | ⟨_, member⟩)
      · exact same
      · exact outside l' member
  · intro l' member
    rw [frameSet]
    exact inv.fresh l' (List.mem_cons_of_mem _ member)
  · intro f member
    rw [frameSet] at member
    exact inv.tables f member
  · intro bit
    have cleared : s'.bitmap.testBit bit = true ↔
        l.frame.toNat ≠ bit ∧ h.paging.bitmap.testBit bit = true := by
      rw [final]
      show (h.paging.bitmap.clearBit l.frame.toNat).testBit bit = true ↔ _
      rw [Bitmap.testBit_clearBit, Bool.and_eq_true, Bool.not_eq_true', decide_eq_false_iff_not]
    rw [frameSet, cleared]
    exact inv.bits_without bit

/-! ### The two loops -/

/-- The pages of a block. -/
def pagesFrom (start : BitVec 32) (count : Nat) : List (BitVec 32) :=
  (List.range count).map fun i => start + BitVec.ofNat 32 (4096 * i)

theorem pagesFrom_cons (start : BitVec 32) (count : Nat) :
    pagesFrom start (count + 1) = start :: pagesFrom (start + 0x1000) count := by
  rw [pagesFrom, List.range_succ_eq_map, List.map_cons, List.map_map,
    show start + BitVec.ofNat 32 (4096 * 0) = start from BitVec.add_zero start]
  refine congrArg (start :: ·) (List.map_congr_left fun i _ => ?_)
  show start + BitVec.ofNat 32 (4096 * (i + 1)) = start + 0x1000 + BitVec.ofNat 32 (4096 * i)
  rw [Nat.mul_succ, Nat.add_comm, BitVec.ofNat_add, BitVec.add_assoc]
  rfl

theorem pagesFrom_snoc (start : BitVec 32) (count : Nat) : pagesFrom start (count + 1) =
    pagesFrom start count ++ [start + BitVec.ofNat 32 (4096 * count)] := by
  rw [pagesFrom, List.range_succ, List.map_append]
  rfl

/-- The loop of `liballoc_alloc` leases the pages behind the heap. -/
theorem Leased.allocPages {count : Nat} (inv : Leased s₀ h leases)
    (returned : h.allocPages depth count = .ok h') : ∃ new : List Lease,
      Leased s₀ h' (new ++ leases) ∧
      new.map Lease.page = pagesFrom (h.kheap.base + h.kheap.size) count ∧
      (∀ l ∈ new, kheapStart.toNat + h.kheap.size.toNat ≤ l.page.toNat) ∧
      h.kheap.size.toNat ≤ h'.kheap.size.toNat ∧ h'.returned = h.returned := by
  induction count generalizing h leases with
  | zero =>
    cases returned
    exact ⟨[], inv, rfl, fun l none => absurd none List.not_mem_nil, Nat.le_refl _, rfl⟩
  | succ count ih =>
    obtain ⟨h₁, first, rest⟩ := bind_ok_iff.mp returned
    obtain ⟨f, leased, size, same, -⟩ := inv.allocPage first
    obtain ⟨new, all, pages, behind, grown, kept⟩ := ih leased rest
    have next : h₁.kheap.base + h₁.kheap.size = h.kheap.base + h.kheap.size + 0x1000 := by
      rw [leased.base, inv.base, size, BitVec.add_assoc]
    have bound := leased.size.1
    have larger : h₁.kheap.size.toNat = h.kheap.size.toNat + 4096 := by
      have small := inv.size.1
      rw [size, BitVec.toNat_add]
      show (_ + 4096) % 2 ^ 32 = _
      omega
    refine ⟨⟨h.kheap.base + h.kheap.size, f⟩ :: new, all.perm List.perm_middle, ?_, ?_, by omega,
      kept.trans same⟩
    · rw [List.map_cons, pages, next, pagesFrom_cons]
    · rintro l (_ | ⟨_, member⟩)
      · exact Nat.le_of_eq inv.next.symm
      · have place := behind l member
        omega

/-- What `liballoc_free` gives back for a lease. -/
def Lease.record (l : Lease) : BitVec 32 × Frame × Bool := (l.page, l.frame, true)

/-- The loop of `liballoc_free` ends the leases of a block. -/
theorem Leased.freePages (start : s₀.KernelSpace) {block : BitVec 32} {count : Nat}
    {ended : List Lease} (inv : Leased s₀ h (ended ++ leases))
    (pages : ended.map Lease.page = pagesFrom block count)
    (returned : KernelHeap.freePages block count h = .ok h') : Leased s₀ h' leases ∧
      h'.kheap = h.kheap ∧ h'.returned = ended.map Lease.record ++ h.returned := by
  induction count generalizing h ended with
  | zero =>
    cases List.map_eq_nil_iff.mp pages
    cases returned
    exact ⟨inv, rfl, rfl⟩
  | succ count ih =>
    rw [pagesFrom_snoc, List.map_eq_append_iff] at pages
    obtain ⟨front, last, rfl, before, single⟩ := pages
    obtain ⟨l, rfl, here⟩ := List.map_eq_singleton_iff.mp single
    obtain ⟨h₁, first, rest⟩ := bind_ok_iff.mp returned
    rw [← here] at first
    have order : (front ++ [l] ++ leases).Perm (l :: (front ++ leases)) := by
      rw [List.append_assoc]
      exact List.perm_middle
    obtain ⟨leased, heap, given⟩ := (inv.perm order).freePage start first
    obtain ⟨all, heap', given'⟩ := ih leased before rest
    refine ⟨all, heap'.trans heap, ?_⟩
    rw [given', given, List.map_append, List.append_assoc]
    rfl

end Treeos
