import Treeos.Pmm.AddressSpace

/-!
# The placement heap over runs

`paging_structure_alloc` as callers and `page_map` use it. It maps its page through
`page_map`, so a call is a plain allocation only while the table of the placement heap
is there.
-/
namespace Treeos

open PageTable

namespace PagingState

variable {s s' : PagingState} {v physaddr ret : BitVec 32} {f : Frame} {rw user : Bool}
  {depth : Nat}

/-- What `paging_structure_alloc` is for: a page at a new address, in a frame that was free
and now holds zeros. -/
structure Places (s : PagingState) (ret : BitVec 32) (f : Frame) (s' : PagingState) : Prop where
  aligned : isPageAligned ret = true
  fresh : ret ∉ s.structures
  free : f.toNat ∈ s.bitmap.clearBits
  used : s'.bitmap.testBit f.toNat = true
  mapped : ∃ e, s'.lookup (pageOf ret) = some e ∧ e.address = f
  zero : ∀ i < 1024, s'.loadWord (ret + BitVec.ofNat 32 (4 * i)) = .ok 0
  heap : s'.placementHeap = s.placementHeap + 0x1000

/-- A call in state `s` does so, without a call of its own that recurses. -/
def CallPlaces (s : PagingState) : Prop :=
  ∀ depth, ∃ ret f s', pagingStructureAlloc depth s = .ok (ret, s') ∧ s.Places ret f s'

/-! ### While the table of the placement heap is there -/

/-- The next slot of the placement heap is free, and its table is no free frame. -/
structure SlotReady (s : PagingState) : Prop where
  bound : s.bitmap.wordCount.toNat ≤ 1024
  selfMap : s.SelfMapped
  aligned : isPageAligned s.placementHeap = true
  slot : s.TableAt s.placementHeap s.kernelTable
  empty : (s.mem s.kernelTable (tableIndex s.placementHeap)).present = false
  busy : ∀ f : Frame, s.bitmap.testBit f.toNat = false → f ≠ s.dir ∧ f ≠ s.kernelTable
  below : ∀ a ∈ s.structures, a < s.placementHeap

theorem exists_least_frame {bm : Bitmap} (bound : bm.wordCount.toNat ≤ 1024)
    (some : bm.clearBits.Nonempty) : ∃ f : Frame, IsLeast bm.clearBits f.toNat := by
  rcases bm.firstFree_cases with ⟨bit, least, -⟩ | ⟨none, -⟩
  · have inside : bit < bm.size := least.1.1
    unfold Bitmap.size bitsPerWord at inside
    refine ⟨BitVec.ofNat 20 bit, ?_⟩
    rwa [BitVec.toNat_ofNat, Nat.mod_eq_of_lt (by omega)]
  · exact absurd none some.ne_empty

theorem SlotReady.callPlaces (ready : s.SlotReady) (some : s.bitmap.clearBits.Nonempty) :
    s.CallPlaces := by
  intro depth
  obtain ⟨f, least⟩ := exists_least_frame ready.bound some
  obtain ⟨apart, other⟩ := ready.busy f least.1.2
  have found := withStructure_lookup ready.slot apart other
  have address : ((s.mem s.kernelTable (tableIndex s.placementHeap)).mapped (frameAddr f) true
      false).address = f := by rw [Entry.address_mapped, frameOf_frameAddr]
  refine ⟨s.placementHeap, f, s.withStructure s.kernelTable f, ?_, ?_⟩
  · exact (pagingStructureAlloc_iff ready.bound ready.selfMap ready.slot ready.busy).mpr
      ⟨ready.aligned, ready.empty, rfl, f, least, rfl⟩
  · refine ⟨ready.aligned, fun before => ?_, least.1, s.bitmap.testBit_setBit_self _,
      ⟨_, found, address⟩, fun i bound => ?_, rfl⟩
    · exact BitVec.lt_irrefl _ (ready.below _ before)
    · rw [← (pageOf_add ready.aligned bound).1] at found
      rw [loadWord_of_lookup found, address]
      exact congrArg Except.ok (fill_self _)

/-! ### At the end of that table -/

/-- The placement heap has reached directory entry 769, which is clear. -/
structure HeapFull (s : PagingState) : Prop where
  bound : s.bitmap.wordCount.toNat ≤ 1024
  selfMap : s.SelfMapped
  full : s.placementHeap = 0xC0400000
  next : s.mem s.dir 769 = 0
  zero : s.bitmap.testBit 0 = true
  dir : s.dir ≠ 0
  busy : ∀ f : Frame, s.bitmap.testBit f.toNat = false → f ≠ s.dir

theorem zeroPage_of_none {p : BitVec 32} (absent : s.lookup (pageOf p) = none) :
    s.zeroPage p = .error (.pageFault p) := by
  unfold zeroPage storeWord translate
  rw [List.range_succ_eq_map, List.foldlM_cons, show p + BitVec.ofNat 32 (4 * 0) = p from
    BitVec.add_zero p, absent]
  rfl

/-- A table for the slot is made by a call of `paging_structure_alloc` that takes the same
slot: it maps its page in frame 0, which the new directory entry refers to so far. -/
theorem HeapFull.newDirEntry (full : s.HeapFull)
    (made : newDirEntry (pagingStructureAlloc depth) s s.placementHeap = .ok s') :
    ∃ f, s'.SelfMapped ∧ s'.TableAt s.placementHeap f ∧ s'.placementHeap = 0xC0401000 ∧
      ∀ j, s'.mem f j = 0 := by
  have heap : dirIndex s.placementHeap = 769 := by rw [full.full]; decide
  have last : dirIndex s.placementHeap ≠ 1023 := by rw [heap]; decide
  obtain ⟨t, marking⟩ : ∃ t, t = s.setMem (write s.mem s.dir (dirIndex s.placementHeap)
    (s.mem s.dir (dirIndex s.placementHeap)).marked) := ⟨_, rfl⟩
  unfold PagingState.newDirEntry at made
  rw [markDirEntry_eq full.selfMap last, ok_bind, ← marking] at made
  have selfMap : t.SelfMapped := marking ▸ full.selfMap.write_dir last _
  have entry : t.mem t.dir (dirIndex t.placementHeap) = Entry.marked 0 := by
    rw [marking, setMem_mem, setMem_dir, setMem_placementHeap, write_self, heap, full.next]
  have dir : t.dir = s.dir := by rw [marking]; rfl
  have bitmap : t.bitmap = s.bitmap := by rw [marking]; rfl
  have place : t.placementHeap = s.placementHeap := by rw [marking]; rfl
  have slot : t.TableAt t.placementHeap 0 := by
    refine ⟨?_, dir ▸ Ne.symm full.dir⟩
    unfold Uses
    rw [entry]
    exact ⟨Entry.present_marked 0, by decide⟩
  have busy (f : Frame) (free : t.bitmap.testBit f.toNat = false) : f ≠ t.dir ∧ f ≠ 0 := by
    rw [bitmap] at free
    refine ⟨dir ▸ full.busy f free, ?_⟩
    rintro rfl
    exact absurd (full.zero.symm.trans free) (by decide)
  obtain ⟨⟨ret, u⟩, allocated, linked⟩ := bind_ok_iff.mp made
  obtain ⟨aligned, -, rfl, f, least, rfl⟩ :=
    (pagingStructureAlloc_iff (bitmap ▸ full.bound) selfMap slot busy).mp allocated
  obtain ⟨apart, away⟩ := busy f least.1.2
  -- Only now the entry gets the address of the new table.
  have link := newDirEntry_link (v := s.placementHeap) selfMap slot aligned apart away
  obtain rfl := Except.ok.inj (link.symm.trans linked)
  refine ⟨f, (selfMap.withStructure slot.apart apart).write_dir last _, ⟨?_, apart⟩, ?_,
    fun j => ?_⟩
  · refine ⟨?_, ?_⟩
    · show Entry.present (write _ t.dir _ _ t.dir _) = true
      rw [write_self, ← place, entry]
      exact Entry.present_linked 0 f
    · show Entry.address (write _ t.dir _ _ t.dir _) = f
      rw [write_self, Entry.address_setAddress]
  · show t.placementHeap + 0x1000 = _
    rw [place, full.full]
    decide
  · show write _ t.dir _ _ f j = 0
    rw [write_of_frame_ne _ apart]
    exact fill_self _

/-- So `page_map` for the slot comes back with the placement heap moved on. -/
theorem HeapFull.pageMap (full : s.HeapFull)
    (returned : pageMap depth s physaddr s.placementHeap rw user = .ok s') :
    s'.placementHeap = 0xC0401000 ∧ s'.lookup (pageOf 0xC0401000) = none := by
  have heap : dirIndex s.placementHeap = 769 := by rw [full.full]; decide
  have last : dirIndex s.placementHeap ≠ 1023 := by rw [heap]; decide
  have absent : (s.mem s.dir (dirIndex s.placementHeap)).present = false := by
    rw [heap, full.next]
    rfl
  cases depth with
  | zero =>
    obtain ⟨-, t, stopped, -⟩ := (pageMapWith_absent_iff full.selfMap absent).mp returned
    unfold PagingState.newDirEntry at stopped
    rw [markDirEntry_eq full.selfMap last, ok_bind] at stopped
    cases stopped
  | succ depth =>
    obtain ⟨-, t, made, set⟩ := (pageMapWith_absent_iff full.selfMap absent).mp returned
    obtain ⟨f, selfMap, table, place, empty⟩ := full.newDirEntry made
    obtain ⟨-, rfl⟩ := (setTableEntry_ok_iff selfMap table).mp set
    refine ⟨place, ?_⟩
    have uses := (table.write (tableIndex s.placementHeap)
      ((t.mem f (tableIndex s.placementHeap)).mapped physaddr rw user)).uses
    rw [heap] at uses
    refine (lookup_of_uses (uses : Uses _ _ _ (pageOf 0xC0401000).1 f)).trans (if_neg ?_)
    rw [setMem_mem, write_of_index_ne _ (by rw [full.full]; decide), empty]
    decide

/-- And the call itself ends in a page fault, when it clears the page behind the one it has
mapped. -/
theorem HeapFull.stops (full : s.HeapFull) : pagingStructureAlloc depth s ≠ .ok (ret, s') := by
  intro returned
  unfold pagingStructureAlloc pagingStructureAllocWith at returned
  rw [kassert_bind_ok_iff, bind_ok_iff] at returned
  obtain ⟨-, ⟨_ | pte, bitmap⟩, taken, placed⟩ := returned
  · cases placed
  · obtain ⟨least, rfl⟩ := pageAlloc_some full.bound taken
    obtain ⟨t, mapped, placed⟩ := bind_ok_iff.mp placed
    obtain ⟨u, zeroed, -⟩ := bind_ok_iff.mp placed
    have taken : HeapFull { s with bitmap := s.bitmap.setBit pte.address.toNat } := by
      refine ⟨full.bound, full.selfMap, full.full, full.next, ?_, full.dir, fun f free => ?_⟩
      · exact (Bitmap.testBit_setBit _ _ _).trans (by rw [full.zero, Bool.or_true])
      · have free := (Bitmap.testBit_setBit _ _ _).symm.trans free
        exact full.busy f (Bool.or_eq_false_iff.mp free).2
    obtain ⟨place, absent⟩ := taken.pageMap mapped
    rw [place, zeroPage_of_none absent] at zeroed
    cases zeroed

/-! ### What holds between calls -/

/-- The placement heap is in the 4 MiB of directory entry 768 or just behind them; what is
left of the table is clear, and so is the next directory entry. -/
structure Placement (s : PagingState) : Prop where
  tables : s.Tables
  aligned : isPageAligned s.placementHeap = true
  low : 0xC0000000 ≤ s.placementHeap.toNat
  high : s.placementHeap.toNat ≤ 0xC0400000
  empty : ∀ j : BitVec 10, s.placementHeap.toNat ≤ 0xC0000000 + 4096 * j.toNat →
    (s.mem s.kernelTable j).present = false
  below : ∀ a ∈ s.structures, a < s.placementHeap
  next : s.mem s.dir 769 = 0
  zero : s.bitmap.testBit 0 = true
  dir : s.dir ≠ 0

theorem Placement.aligned_toNat (inv : s.Placement) : s.placementHeap.toNat % 4096 = 0 :=
  isPageAligned_iff.mp inv.aligned

theorem Placement.slot_toNat (inv : s.Placement) (room : s.placementHeap < 0xC0400000) :
    dirIndex s.placementHeap = 768 ∧
      s.placementHeap.toNat = 0xC0000000 + 4096 * (tableIndex s.placementHeap).toNat := by
  have low := inv.low
  have aligned := inv.aligned_toNat
  have high : s.placementHeap.toNat < 0xC0400000 := room
  constructor
  · apply BitVec.eq_of_toNat_eq
    rw [toNat_dirIndex]
    show _ = 768
    omega
  · rw [toNat_tableIndex]
    omega

theorem Placement.slotEmpty (inv : s.Placement) (room : s.placementHeap < 0xC0400000) :
    (s.mem s.kernelTable (tableIndex s.placementHeap)).present = false :=
  inv.empty _ (Nat.le_of_eq (inv.slot_toNat room).2)

theorem Placement.slotReady (inv : s.Placement) (room : s.placementHeap < 0xC0400000) :
    s.SlotReady where
  bound := inv.tables.bound
  selfMap := inv.tables.selfMap
  aligned := inv.aligned
  slot := inv.tables.slotAt (inv.slot_toNat room).1
  empty := inv.slotEmpty room
  busy := fun _ free => ⟨(inv.tables.busy free).1, fun same =>
    (inv.tables.busy free).2 768 ⟨inv.tables.kernel, same.symm⟩⟩
  below := inv.below

theorem Placement.heapFull (inv : s.Placement) (full : ¬s.placementHeap < 0xC0400000) :
    s.HeapFull where
  bound := inv.tables.bound
  selfMap := inv.tables.selfMap
  full := by
    have high := inv.high
    have same : ¬s.placementHeap.toNat < 0xC0400000 := full
    apply BitVec.eq_of_toNat_eq
    show s.placementHeap.toNat = 0xC0400000
    omega
  next := inv.next
  zero := inv.zero
  dir := inv.dir
  busy := fun _ free => (inv.tables.busy free).1

/-! ### The call that `page_map` makes -/

/-- An address of the range that callers map. -/
structure CallerPage (v : BitVec 32) : Prop where
  low : 0xC4000000 ≤ v
  high : v < 0xFFC00000

theorem CallerPage.dirIndex_toNat (page : CallerPage v) :
    784 ≤ (dirIndex v).toNat ∧ (dirIndex v).toNat < 1023 := by
  have low : 0xC4000000#32 ≤ v := page.low
  have high : v < 0xFFC00000#32 := page.high
  rw [toNat_dirIndex]
  bv_omega

theorem CallerPage.dirIndex_ne (page : CallerPage v) (i : BitVec 10)
    (kernel : i.toNat < 784 ∨ i.toNat = 1023) : dirIndex v ≠ i := by
  rintro rfl
  have range := page.dirIndex_toNat
  omega

/-- The table of such a page is not that of the kernel. -/
theorem CallerPage.kernelTable_ne (page : CallerPage v) (tables : s.Tables) {table : Frame}
    (here : s.TableAt v table) : s.kernelTable ≠ table := by
  rintro rfl
  rcases (tables.uses_iff here.uses).mp ⟨tables.kernel, rfl⟩ with same | ⟨-, low⟩ | ⟨-, low⟩
  · exact page.dirIndex_ne 768 (by decide) same.symm
  · exact page.dirIndex_ne 768 (by decide) low
  · exact page.dirIndex_ne 0 (by decide) low

/-- `page_map` calls with its new directory entry marked. -/
theorem SlotReady.marked (ready : s.SlotReady) (page : CallerPage v)
    (heap : dirIndex s.placementHeap = 768) (e : Entry) :
    (s.setMem (write s.mem s.dir (dirIndex v) e)).SlotReady := by
  have other := page.dirIndex_ne 768 (by decide)
  have kernel : (s.setMem (write s.mem s.dir (dirIndex v) e)).kernelTable = s.kernelTable :=
    congrArg Entry.address (write_of_index_ne s.mem (Ne.symm other))
  refine ⟨ready.bound, ready.selfMap.write_dir (page.dirIndex_ne 1023 (by decide)) e,
    ready.aligned, ?_, ?_, ?_, ready.below⟩
  · rw [kernel]
    refine ⟨?_, ready.slot.apart⟩
    unfold Uses
    rw [setMem_mem, setMem_dir, setMem_placementHeap,
      write_of_index_ne s.mem (by rw [heap]; exact Ne.symm other)]
    exact ready.slot.uses
  · rw [kernel, setMem_mem, setMem_placementHeap, write_of_frame_ne s.mem ready.slot.apart]
    exact ready.empty
  · rw [kernel]
    exact ready.busy

theorem HeapFull.marked (full : s.HeapFull) (page : CallerPage v) (e : Entry) :
    (s.setMem (write s.mem s.dir (dirIndex v) e)).HeapFull where
  bound := full.bound
  selfMap := full.selfMap.write_dir (page.dirIndex_ne 1023 (by decide)) e
  full := full.full
  next := (write_of_index_ne s.mem (Ne.symm (page.dirIndex_ne 769 (by decide)))).trans full.next
  zero := full.zero
  dir := full.dir
  busy := full.busy

/-- Where calls of `paging_structure_alloc` begin between the steps of a run: with a call by
other code, and within `page_map` for a page without a table. -/
inductive CallBegins (s : PagingState) : PagingState → Prop
  | direct : CallBegins s s
  | map {v : BitVec 32} {t : PagingState} (page : CallerPage v)
      (absent : (s.mem s.dir (dirIndex v)).present = false)
      (marked : s.markDirEntry v = .ok t) : CallBegins s t

/-- A call does what it is for exactly when the placement heap begins inside the 4 MiB. -/
theorem Placement.callPlaces_iff (inv : s.Placement) (some : s.bitmap.clearBits.Nonempty)
    {t : PagingState} (begins : CallBegins s t) :
    t.CallPlaces ↔ s.placementHeap < 0xC0400000 := by
  have stops {t : PagingState} (full : t.HeapFull) (places : t.CallPlaces) : False := by
    obtain ⟨ret, f, s', returned, -⟩ := places 0
    exact full.stops returned
  constructor
  · intro places
    by_contra full
    cases begins with
    | direct => exact stops (inv.heapFull full) places
    | map page absent marked =>
      rw [markDirEntry_eq inv.tables.selfMap (page.dirIndex_ne 1023 (by decide))] at marked
      cases marked
      exact stops ((inv.heapFull full).marked page _) places
  · intro room
    cases begins with
    | direct => exact (inv.slotReady room).callPlaces some
    | map page absent marked =>
      rw [markDirEntry_eq inv.tables.selfMap (page.dirIndex_ne 1023 (by decide))] at marked
      cases marked
      exact ((inv.slotReady room).marked page (inv.slot_toNat room).1 _).callPlaces some

/-! ### Steps -/

/-- What stays when the placement heap and its slots do. -/
theorem Placement.keep (inv : s.Placement) (tables : s'.Tables) (dir : s'.dir = s.dir)
    (kernel : s'.mem s.dir 768 = s.mem s.dir 768) (next : s'.mem s.dir 769 = s.mem s.dir 769)
    (slots : ∀ j, s'.mem s.kernelTable j = s.mem s.kernelTable j)
    (heap : s'.placementHeap = s.placementHeap) (structures : s'.structures = s.structures)
    (bits : ∀ bit, s.bitmap.testBit bit = true → s'.bitmap.testBit bit = true) :
    s'.Placement := by
  have table : s'.kernelTable = s.kernelTable := by
    unfold kernelTable
    rw [dir, kernel]
  refine ⟨tables, heap ▸ inv.aligned, heap ▸ inv.low, heap ▸ inv.high, ?_, ?_, ?_,
    bits 0 inv.zero, dir ▸ inv.dir⟩
  · intro j behind
    rw [table, slots]
    exact inv.empty j (heap ▸ behind)
  · rw [structures, heap]
    exact inv.below
  · rw [dir, next]
    exact inv.next

/-- What stays when a slot is taken. -/
theorem Placement.grow (inv : s.Placement) (room : s.placementHeap < 0xC0400000)
    (tables : s'.Tables) (dir : s'.dir = s.dir)
    (kernel : s'.mem s.dir 768 = s.mem s.dir 768) (next : s'.mem s.dir 769 = s.mem s.dir 769)
    (slots : ∀ j ≠ tableIndex s.placementHeap,
      s'.mem s.kernelTable j = s.mem s.kernelTable j)
    (heap : s'.placementHeap = s.placementHeap + 0x1000)
    (structures : s'.structures = s.placementHeap :: s.structures)
    (bits : ∀ bit, s.bitmap.testBit bit = true → s'.bitmap.testBit bit = true) :
    s'.Placement := by
  have table : s'.kernelTable = s.kernelTable := by
    unfold kernelTable
    rw [dir, kernel]
  have low := inv.low
  have aligned := inv.aligned_toNat
  have high : s.placementHeap.toNat < 0xC0400000 := room
  have grown : s'.placementHeap.toNat = s.placementHeap.toNat + 4096 := by
    rw [heap, BitVec.toNat_add, show (0x1000 : BitVec 32).toNat = 4096 from rfl]
    omega
  refine ⟨tables, isPageAligned_iff.mpr (by omega), by omega, by omega, ?_, ?_, ?_,
    bits 0 inv.zero, dir ▸ inv.dir⟩
  · intro j behind
    have other : j ≠ tableIndex s.placementHeap := by
      rintro rfl
      have slot := (inv.slot_toNat room).2
      omega
    rw [table, slots j other]
    exact inv.empty j (by omega)
  · intro a member
    rw [BitVec.lt_def, grown]
    rw [structures, List.mem_cons] at member
    rcases member with rfl | before
    · omega
    · have below := inv.below a before
      rw [BitVec.lt_def] at below
      omega
  · rw [dir, next]
    exact inv.next

theorem PageMapped.placement (mapped : s.PageMapped physaddr v rw user s') (inv : s.Placement)
    (page : CallerPage v)
    (room : (s.mem s.dir (dirIndex v)).present = true ∨ s.placementHeap < 0xC0400000) :
    s'.Placement := by
  have other (i : BitVec 10) (kernel : i.toNat < 784 ∨ i.toNat = 1023) :=
    Ne.symm (page.dirIndex_ne i kernel)
  have away := inv.tables.kernelTable_ne_dir
  cases mapped with
  | @entry table here allowed absent =>
    have apart := page.kernelTable_ne inv.tables here
    refine inv.keep (inv.tables.setMem_table here.apart _ _) rfl ?_ ?_ ?_ rfl rfl fun _ => id
    · exact write_of_frame_ne s.mem (Ne.symm here.apart)
    · exact write_of_frame_ne s.mem (Ne.symm here.apart)
    · exact fun j => write_of_frame_ne s.mem apart
  | @table f absent allowed least slot =>
    have room := room.resolve_left (by simp [absent])
    obtain ⟨apart, unused⟩ := inv.tables.busy least.1.2
    have kernel : s.kernelTable ≠ f := fun same => unused 768 ⟨inv.tables.kernel, same⟩
    have tables := inv.tables.withTable (v := v) absent least.1.2
    refine inv.grow room (tables.setMem_table apart _ _) rfl ?_ ?_ (fun j different => ?_) rfl rfl ?_
    · rw [setMem_mem, write_of_frame_ne _ (Ne.symm apart), withTable_mem_dir away apart,
        if_neg (other 768 (by decide))]
    · rw [setMem_mem, write_of_frame_ne _ (Ne.symm apart), withTable_mem_dir away apart,
        if_neg (other 769 (by decide))]
    · rw [setMem_mem, write_of_frame_ne _ kernel]
      exact withTable_mem_slots away (Ne.symm kernel) different
    · intro bit set
      show (s.bitmap.setBit f.toNat).testBit bit = true
      rw [Bitmap.testBit_setBit, set, Bool.or_true]

theorem Placement.withStructure (inv : s.Placement) (room : s.placementHeap < 0xC0400000)
    (free : s.bitmap.testBit f.toNat = false) : (s.withStructure s.kernelTable f).Placement := by
  obtain ⟨apart, unused⟩ := inv.tables.busy free
  have kernel : s.kernelTable ≠ f := fun same => unused 768 ⟨inv.tables.kernel, same⟩
  have away := inv.tables.kernelTable_ne_dir
  have entries := withStructure_mem (s := s) (Ne.symm away) (Ne.symm apart)
  refine inv.grow room (inv.tables.withStructure away apart) rfl (entries 768) (entries 769)
    (fun _ different => withStructure_mem_slots (Ne.symm kernel) different) rfl rfl ?_
  · intro bit set
    show (s.bitmap.setBit f.toNat).testBit bit = true
    rw [Bitmap.testBit_setBit, set, Bool.or_true]

theorem HeapFull.newDirEntry_marked (full : s.HeapFull) (page : CallerPage v) :
    PagingState.newDirEntry (pagingStructureAlloc depth) s v ≠ .ok s' := by
  intro made
  unfold PagingState.newDirEntry at made
  rw [markDirEntry_eq full.selfMap (page.dirIndex_ne 1023 (by decide)), ok_bind] at made
  obtain ⟨⟨ret, t⟩, allocated, -⟩ := bind_ok_iff.mp made
  exact (full.marked page _).stops allocated

/-- A `page_map` that returns had its table or found the placement heap inside the 4 MiB. -/
theorem Placement.pageMap_room (inv : s.Placement) (page : CallerPage v)
    (returned : pageMap depth s physaddr v rw user = .ok s') :
    (s.mem s.dir (dirIndex v)).present = true ∨ s.placementHeap < 0xC0400000 := by
  cases present : (s.mem s.dir (dirIndex v)).present with
  | true => exact .inl rfl
  | false =>
    refine .inr (by_contra fun outside => ?_)
    have full := inv.heapFull outside
    cases depth with
    | zero =>
      obtain ⟨-, t, stopped, -⟩ := (pageMapWith_absent_iff inv.tables.selfMap present).mp returned
      unfold PagingState.newDirEntry at stopped
      rw [markDirEntry_eq full.selfMap (page.dirIndex_ne 1023 (by decide)), ok_bind] at stopped
      cases stopped
    | succ depth =>
      obtain ⟨-, t, made, -⟩ := (pageMapWith_absent_iff inv.tables.selfMap present).mp returned
      exact full.newDirEntry_marked page made

end PagingState

/-- The calls of a run, and frames that callers allocate in between. -/
inductive PlacementEvent where
  | map (physaddr v : BitVec 32) (rw user : Bool)
  | place (ret : BitVec 32)
  | alloc

/-- Calls that return. -/
inductive PlacementStep : PagingState → PlacementEvent → PagingState → Prop
  | map {s s' : PagingState} {physaddr v : BitVec 32} {rw user : Bool} {depth : Nat}
      (page : PagingState.CallerPage v)
      (returned : s.pageMap depth physaddr v rw user = .ok s') :
      PlacementStep s (.map physaddr v rw user) s'
  | place {s s' : PagingState} {ret : BitVec 32} {depth : Nat}
      (returned : PagingState.pagingStructureAlloc depth s = .ok (ret, s')) :
      PlacementStep s (.place ret) s'
  | alloc {s : PagingState} {page : Entry} {result : Option Entry} {bitmap : Bitmap}
      (returned : pageAlloc s.bitmap (some page) = .ok (result, bitmap)) :
      PlacementStep s .alloc { s with bitmap := bitmap }

open PagingState in
theorem PlacementStep.inv {s s' : PagingState} {e : PlacementEvent} (inv : s.Placement)
    (step : PlacementStep s e s') : s'.Placement := by
  cases step with
  | map page returned =>
    have room := inv.pageMap_room page returned
    have inside := room.imp_right fun room => (inv.slot_toNat room).1
    have mapped := pageMap_cases inv.tables (page.dirIndex_ne 1023 (by decide)) inside returned
    exact mapped.placement inv page room
  | place returned =>
    by_cases room : s.placementHeap < 0xC0400000
    · have ready := inv.slotReady room
      obtain ⟨-, -, -, f, least, rfl⟩ :=
        (pagingStructureAlloc_iff ready.bound ready.selfMap ready.slot ready.busy).mp returned
      exact inv.withStructure room least.1.2
    · exact ((inv.heapFull room).stops returned).elim
  | @alloc page result bitmap returned =>
    have kept : bitmap.wordCount = s.bitmap.wordCount ∧
        ∀ bit, s.bitmap.testBit bit = true → bitmap.testBit bit = true := by
      cases result with
      | none => rw [pageAlloc_none returned]; exact ⟨rfl, fun _ => id⟩
      | some page' =>
        obtain ⟨-, rfl⟩ := pageAlloc_some inv.tables.bound returned
        exact ⟨rfl, fun bit set => by rw [Bitmap.testBit_setBit, set, Bool.or_true]⟩
    exact inv.keep (inv.tables.congr rfl (fun _ => rfl) kept.1 kept.2) rfl rfl rfl (fun _ => rfl)
      rfl rfl kept.2

theorem BootTables.placement {image : BootImage} {m : PhysMem} (boot : BootTables image m)
    {bitmap : Bitmap} (inUse : KernelInUse image.toKernelImage bitmap)
    (zero : bitmap.testBit 0 = true) : (BootTables.state image m bitmap).Placement := by
  have tables := boot.tables inUse
  obtain ⟨aligned, low, high⟩ := image.placementHeap_bounds
  have kernel : (BootTables.state image m bitmap).kernelTable = image.tableFrame := by
    show (m image.dirFrame 768).address = _
    rw [boot.directory, if_pos (.inr rfl), address_bootEntry]
  refine ⟨tables, aligned, low, high, fun j behind => ?_, fun _ none => absurd none List.not_mem_nil,
    ?_, zero, ?_⟩
  · -- The table ends with the page that the kernel ends in.
    have bounds := image.bounds
    have first := image.placementHeap_toNat
    have last := image.realKernelEnd_toNat
    rw [kernel]
    show (m image.tableFrame j).present = false
    have unmapped : ¬(1 ≤ j.toNat ∧ j.toNat ≤ image.lastPage) := by
      change (pagingAllocatorInit image.toKernelImage).toNat ≤ _ at behind
      unfold BootImage.lastPage
      omega
    rw [boot.table, if_neg unmapped]
    rfl
  · exact (boot.directory 769).trans ((if_neg (by decide)).trans (if_neg (by decide)))
  · show image.dirFrame ≠ 0
    intro same
    have frames := image.frames_toNat.1
    have bounds := image.bounds
    rw [same] at frames
    change 4096 * 0 = _ at frames
    omega

open PagingState in
theorem run_placement {s₀ s : PagingState} {events : List PlacementEvent} (start : s₀.Placement)
    (run : Run.From PlacementStep s₀ events s) : s.Placement :=
  run.invariant (fun _ s => s.Placement) start fun _ _ _ _ _ inv step => step.inv inv

/-- After any run on the tables of `boot.S`, a call of `paging_structure_alloc` does what it
is for exactly when the placement heap is inside the 4 MiB of directory entry 768. -/
theorem pagingStructureAlloc_places_iff (image : BootImage) (fuel : Nat) (enough : 1024 ≤ fuel)
    (m₀ : PhysMem) (clean : ∀ i, m₀ image.dirFrame i = 0 ∧ m₀ image.tableFrame i = 0)
    (bitmap : Bitmap) (inUse : KernelInUse image.toKernelImage bitmap)
    (zero : bitmap.testBit 0 = true) :
    ∃ m, initBootstrapPaging fuel image m₀ = .ok m ∧
      ∀ events s, Run.From PlacementStep (BootTables.state image m bitmap) events s →
        s.bitmap.clearBits.Nonempty → ∀ t, PagingState.CallBegins s t →
          (t.CallPlaces ↔ s.placementHeap < 0xC0400000) := by
  obtain ⟨m, returned, boot⟩ := initBootstrapPaging_eq enough clean
  refine ⟨m, returned, fun events s run some t begins => ?_⟩
  exact (run_placement (boot.placement inUse zero) run).callPlaces_iff some begins

/-- A kernel that ends in the last page below 4 MiB. -/
def lastPageBoot : BootImage :=
  { smallBoot with kernEnd := 0xC03FF000, end_le := by decide, stack_le := by decide,
                   kernEnd_lt := by decide }

theorem lastPageBoot_tables : ∃ m, initBootstrapPaging 1024 lastPageBoot (fun _ _ => 0) = .ok m ∧
    BootTables lastPageBoot m :=
  initBootstrapPaging_eq (Nat.le_refl 1024) fun _ => ⟨rfl, rfl⟩

/-- There the first call does not return. -/
theorem lastPageBoot_stops : ∃ m,
    initBootstrapPaging 1024 lastPageBoot (fun _ _ => 0) = .ok m ∧
    (BootTables.state lastPageBoot m lowInUse).bitmap.clearBits.Nonempty ∧
    ∀ depth ret s', PagingState.pagingStructureAlloc depth
      (BootTables.state lastPageBoot m lowInUse) ≠ .ok (ret, s') := by
  obtain ⟨m, returned, boot⟩ := lastPageBoot_tables
  have inUse : KernelInUse lastPageBoot.toKernelImage lowInUse := by
    refine ⟨by decide, fun f reserved => ?_⟩
    have bounds : 0x100 ≤ f ∧ f ≤ 0x100 + 0x2FF := mem_regionPages.mp reserved
    rw [lowInUse_testBit, decide_eq_true_iff]
    omega
  have inv := boot.placement inUse ((lowInUse_testBit 0).trans (by decide))
  refine ⟨m, returned, ⟨_, lowInUse_least.1⟩, fun depth ret s' => (inv.heapFull ?_).stops⟩
  show ¬pagingAllocatorInit lastPageBoot.toKernelImage < 0xC0400000
  decide

/-- Two calls one after the other. -/
theorem smallBoot_places : ∃ m ret s, initBootstrapPaging 1024 smallBoot (fun _ _ => 0) = .ok m ∧
    Run.From PlacementStep (BootTables.state smallBoot m lowInUse) [.place ret] s ∧
    s.CallPlaces := by
  have zero : lowInUse.testBit 0 = true := (lowInUse_testBit 0).trans (by decide)
  obtain ⟨m, returned, runs⟩ := pagingStructureAlloc_places_iff smallBoot 1024 (Nat.le_refl 1024)
    (fun _ _ => 0) (fun _ => ⟨rfl, rfl⟩) lowInUse lowInUse_kernel zero
  obtain ⟨m', returned', boot⟩ := smallBoot_tables
  obtain rfl : m = m' := Except.ok.inj (returned.symm.trans returned')
  have room : (BootTables.state smallBoot m lowInUse).placementHeap < 0xC0400000 := by
    show pagingAllocatorInit smallImage < 0xC0400000
    decide
  have first : (BootTables.state smallBoot m lowInUse).CallPlaces :=
    (runs [] _ .nil ⟨_, lowInUse_least.1⟩ _ .direct).mpr room
  obtain ⟨ret, -, s, placed, -⟩ := first 0
  have ready := (boot.placement lowInUse_kernel zero).slotReady room
  obtain ⟨-, -, -, f, least, rfl⟩ :=
    (PagingState.pagingStructureAlloc_iff ready.bound ready.selfMap ready.slot ready.busy).mp
      placed
  have taken : f.toNat = 1024 := least.unique lowInUse_least
  have some : 1025 ∈ (lowInUse.setBit f.toNat).clearBits := by
    rw [taken]
    refine ⟨by decide, ?_⟩
    rw [Bitmap.testBit_setBit, lowInUse_testBit]
    decide
  have run := Run.From.single (PlacementStep.place placed)
  refine ⟨m, ret, _, returned, run, (runs _ _ run ⟨_, some⟩ _ .direct).mpr ?_⟩
  show pagingAllocatorInit smallImage + 0x1000 < 0xC0400000
  decide

end Treeos
