import Treeos.Pmm.Placement

/-!
# The address space of the running kernel

All calls that change the address space, in any order, and which pages they leave unmapped.
-/
namespace Treeos

open PageTable PagingState

/-- The page that a caller maps. -/
def PlacementEvent.mapped : PlacementEvent → Option (BitVec 32)
  | .map _ v _ _ => some v
  | .place _ => none
  | .alloc => none

/-- The calls of the placement runs, and `page_unmap` for any page below the windows. A step
is labelled with the page that a caller maps. -/
inductive KernelStep : PagingState → Option (BitVec 32) → PagingState → Prop
  | call {s s' : PagingState} {e : PlacementEvent} (step : PlacementStep s e s') :
      KernelStep s e.mapped s'
  | unmap {s s' : PagingState} {v : BitVec 32} (high : v < 0xFFC00000)
      (returned : s.pageUnmap v = .ok s') : KernelStep s none s'

namespace Entry

@[simp] theorem rw_marked (old : Entry) : (marked old).rw = true := by simp [marked]
@[simp] theorem rw_linked (old : Entry) (f : Frame) : (linked old f).rw = true := by simp [linked]

end Entry

theorem rw_bootEntry (f : Frame) : (bootEntry f).rw = true := bootEntry_bit f 1 (by decide)

namespace PagingState

/-- Between two calls the placement heap is sound, and every table may be written through. -/
structure KernelSpace (s : PagingState) : Prop where
  placement : s.Placement
  writable : ∀ i, (s.mem s.dir i).present = true → (s.mem s.dir i).rw = true

variable {s s' : PagingState} {v w physaddr : BitVec 32} {f : Frame} {rw user : Bool}

theorem KernelSpace.tables (space : s.KernelSpace) : s.Tables := space.placement.tables

/-! ### Which entries of the directory change -/

/-- Entries of the directory that are there stay. -/
def KeepsTables (s s' : PagingState) : Prop :=
  s'.dir = s.dir ∧ ∀ i, (s.mem s.dir i).present = true → s'.mem s'.dir i = s.mem s.dir i

/-- A new entry of the directory may be written through. -/
def WritableTables (s s' : PagingState) : Prop :=
  ∀ i, s'.mem s'.dir i = s.mem s.dir i ∨ (s'.mem s'.dir i).rw = true

theorem WritableTables.keeps (grown : WritableTables s s')
    (writable : ∀ i, (s.mem s.dir i).present = true → (s.mem s.dir i).rw = true) (i : BitVec 10)
    (present : (s'.mem s'.dir i).present = true) : (s'.mem s'.dir i).rw = true := by
  rcases grown i with same | new
  · rw [same] at present ⊢
    exact writable i present
  · exact new

theorem PageMapped.dir (mapped : s.PageMapped physaddr v rw user s') (tables : s.Tables)
    (i : BitVec 10) : s'.dir = s.dir ∧ (s'.mem s.dir i = s.mem s.dir i ∨
      i = dirIndex v ∧ (s.mem s.dir i).present = false ∧ (s'.mem s.dir i).rw = true) := by
  cases mapped with
  | entry here allowed absent => exact ⟨rfl, .inl (write_of_frame_ne s.mem (Ne.symm here.apart))⟩
  | @table f absent allowed least slot =>
    have apart := (tables.busy least.1.2).1
    refine ⟨rfl, ?_⟩
    rw [setMem_mem, write_of_frame_ne _ (Ne.symm apart),
      withTable_mem_dir tables.kernelTable_ne_dir apart]
    by_cases new : i = dirIndex v
    · rw [if_pos new]
      exact .inr ⟨new, new ▸ absent, Entry.rw_linked _ _⟩
    · exact .inl (if_neg new)

theorem PageMapped.writableTables (mapped : s.PageMapped physaddr v rw user s')
    (tables : s.Tables) : WritableTables s s' := by
  intro i
  obtain ⟨dir, same | ⟨-, -, new⟩⟩ := mapped.dir tables i
  · exact .inl (dir ▸ same)
  · exact .inr (dir ▸ new)

theorem PageMapped.keepsTables (mapped : s.PageMapped physaddr v rw user s')
    (tables : s.Tables) : KeepsTables s s' := by
  refine ⟨(mapped.dir tables 0).1, fun i present => ?_⟩
  obtain ⟨dir, same | ⟨-, absent, -⟩⟩ := mapped.dir tables i
  · exact dir ▸ same
  · rw [absent] at present
    cases present

/-! ### Steps -/

/-- An entry that is cleared was no slot that the placement heap still needs. -/
theorem Placement.unmap (inv : s.Placement) {table : Frame} (apart : table ≠ s.dir)
    (i : BitVec 10) : (s.setMem (write s.mem table i 0)).Placement := by
  have entry (j : BitVec 10) : (s.setMem (write s.mem table i 0)).mem s.dir j = s.mem s.dir j :=
    write_of_frame_ne s.mem (Ne.symm apart)
  have kernel : (s.setMem (write s.mem table i 0)).kernelTable = s.kernelTable :=
    congrArg Entry.address (entry 768)
  refine ⟨inv.tables.setMem_table apart i 0, inv.aligned, inv.low, inv.high, fun j behind => ?_,
    inv.below, (entry 769).trans inv.next, inv.zero, inv.dir⟩
  rw [kernel, setMem_mem, write]
  split
  · rfl
  · exact inv.empty j behind

theorem CallerPage.not_slot (page : CallerPage w) (heap : dirIndex v = 768) :
    pageOf w ∉ aliases (pageOf v) := by
  rintro ⟨same | ⟨low, -⟩ | ⟨-, low⟩, -⟩
  · exact page.dirIndex_ne 768 (by decide) (same.trans heap)
  · exact page.dirIndex_ne 0 (by decide) low
  · have zero : dirIndex v = 0 := low
    rw [heap] at zero
    exact absurd zero (by decide)

theorem CallerPage.low_le (page : CallerPage w) : 0x400000 ≤ w := by
  have low : 0xC4000000#32 ≤ w := page.low
  show 0x400000#32 ≤ w
  bv_omega

/-- A page of another caller stays as it was. -/
theorem PageMapped.lookup_other (mapped : s.PageMapped physaddr v rw user s') (inv : s.Placement)
    (page : CallerPage v) (room : (s.mem s.dir (dirIndex v)).present = true ∨
      s.placementHeap < 0xC0400000) (own : CallerPage w) (other : pageOf w ≠ pageOf v) :
    s'.lookup (pageOf w) = s.lookup (pageOf w) := by
  by_contra changed
  have inside := room.imp_right fun room => (inv.slot_toNat room).1
  rcases mapped.changes inv.tables inside changed with same | ⟨absent, slot | window⟩
  · exact other (aliases_high own.low_le page.low_le same)
  · have heap := inside.resolve_left (by simp [absent])
    exact own.not_slot heap slot
  · exact own.dirIndex_ne 1023 (by decide) (congrArg Prod.fst window)

/-- A page below 4 MiB that is mapped stays so, as the placement heap takes empty slots only. -/
theorem PageMapped.lookup_low (mapped : s.PageMapped physaddr v rw user s') (inv : s.Placement)
    (page : CallerPage v) (room : (s.mem s.dir (dirIndex v)).present = true ∨
      s.placementHeap < 0xC0400000) (low : w < 0x400000) {e : Entry}
    (found : s.lookup (pageOf w) = some e) : s'.lookup (pageOf w) = some e := by
  have zero : dirIndex w = 0 := by
    apply BitVec.eq_of_toNat_eq
    have bound : w.toNat < 0x400000 := low
    rw [toNat_dirIndex]
    show _ = 0
    omega
  by_contra changed
  have inside := room.imp_right fun room => (inv.slot_toNat room).1
  rw [← found] at changed
  rcases mapped.changes inv.tables inside changed with own | ⟨absent, slot | window⟩
  · rcases own.1 with same | ⟨-, kernel⟩ | ⟨kernel, -⟩
    · exact page.dirIndex_ne 0 (by decide) (same.symm.trans zero)
    · exact page.dirIndex_ne 768 (by decide) kernel
    · have kernel : dirIndex w = 768 := kernel
      rw [zero] at kernel
      exact absurd kernel (by decide)
  · -- the slot is not present, and the page is
    have room := room.resolve_left (by simp [absent])
    have empty := inv.empty (tableIndex s.placementHeap) (inv.slot_toNat room).2.le
    have index : tableIndex w = tableIndex s.placementHeap := slot.2
    obtain ⟨-, same, present⟩ := lookup_some found
    have entry : s.mem (s.mem s.dir (dirIndex w)).address (tableIndex w) = e := same
    have present : e.present = true := present
    rw [zero, inv.tables.shared, index] at entry
    have kernel : s.mem s.kernelTable (tableIndex s.placementHeap) = e := entry
    rw [kernel, present] at empty
    cases empty
  · have last : dirIndex w = 1023 := congrArg Prod.fst window
    rw [zero] at last
    exact absurd last (by decide)

theorem Tables.lookup_withStructure (tables : s.Tables) (heap : dirIndex s.placementHeap = 768)
    (free : s.bitmap.testBit f.toNat = false) (own : CallerPage w) :
    (s.withStructure s.kernelTable f).lookup (pageOf w) = s.lookup (pageOf w) := by
  obtain ⟨apart, unused⟩ := tables.busy free
  have away := tables.kernelTable_ne_dir
  obtain ⟨e, filled⟩ : ∃ e, (s.withStructure s.kernelTable f).lookup (pageOf w) =
      PageTable.lookup pagingFormat (write s.mem s.kernelTable (tableIndex s.placementHeap) e)
        s.dir (pageOf w) :=
    ⟨_, lookup_fill (Ne.symm apart) fun used => unused _ ((uses_write (Ne.symm away)).mp used)⟩
  rw [filled]
  refine lookup_write_of_not (Ne.symm away) fun ⟨used, same⟩ => own.not_slot heap ⟨?_, same⟩
  exact (tables.uses_iff (tables.slotAt heap).uses).mp used

/-! ### When `page_map` returns -/

/-- `page_map` finds a table for `v`, or a slot of the placement heap for a new one. -/
def HasSlot (s : PagingState) (v : BitVec 32) : Prop :=
  (s.mem s.dir (dirIndex v)).present = true ∨ s.placementHeap < 0xC0400000

/-- Without a free frame no table is made. -/
theorem KernelSpace.pageMap_full (space : s.KernelSpace) (page : CallerPage v)
    (absent : (s.mem s.dir (dirIndex v)).present = false) (allowed : s.MapAllowed physaddr v)
    (full : s.bitmap.clearBits = ∅) (depth : Nat) :
    s.pageMap (depth + 1) physaddr v rw user = .error (.msg "out of memory") := by
  have tables := space.tables
  obtain ⟨bm, none⟩ : ∃ bm, pageAlloc s.bitmap (some 0) = .ok (none, bm) :=
    (pageAlloc_none_iff tables.bound).mpr full
  have made : newDirEntry (pagingStructureAllocWith (pageMap depth)) s v =
      .error (.msg "out of memory") := by
    unfold PagingState.newDirEntry pagingStructureAllocWith
    rw [markDirEntry_eq tables.selfMap (page.dirIndex_ne 1023 (by decide)), ok_bind,
      setMem_placementHeap, space.placement.aligned, setMem_bitmap, none]
    rfl
  show pageMapWith _ s physaddr v rw user = _
  unfold pageMapWith
  rw [allowed.physAligned, allowed.virtAligned, allowed.allocated, tables.selfMap.loadWord_pde]
  simp only [panicIf, Bool.not_true, Bool.false_eq_true, if_false, ok_bind, absent, made]
  rfl

/-- For an unmapped page and a frame in use `page_map` returns, or it has no frame for a table. -/
theorem KernelSpace.pageMap_total (space : s.KernelSpace) (page : CallerPage v)
    (slot : s.HasSlot v) (allowed : s.MapAllowed physaddr v)
    (unmapped : s.lookup (pageOf v) = none) (depth : Nat) :
    (∃ s', s.PageMapped physaddr v rw user s' ∧
      s.pageMap (depth + 1) physaddr v rw user = .ok s') ∨
    s.pageMap (depth + 1) physaddr v rw user = .error (.msg "out of memory") ∧
      (s.mem s.dir (dirIndex v)).present = false ∧ s.bitmap.clearBits = ∅ := by
  have tables := space.tables
  have last := page.dirIndex_ne 1023 (by decide)
  have inside := slot.imp_right fun room => (space.placement.slot_toNat room).1
  have returned {s' : PagingState} (mapped : s.PageMapped physaddr v rw user s') :=
    mapped.returned tables last space.placement.aligned inside depth
  cases present : (s.mem s.dir (dirIndex v)).present with
  | true =>
    have table := tables.tableAt last present
    have absent : (s.mem (s.mem s.dir (dirIndex v)).address (tableIndex v)).present = false := by
      by_contra here
      have found : s.lookup (pageOf v) = some _ :=
        (lookup_eq_some table.uses).mpr ⟨Bool.not_eq_false _ ▸ here, rfl⟩
      rw [unmapped] at found
      cases found
    have mapped : s.PageMapped physaddr v rw user _ := .entry table allowed absent
    exact .inl ⟨_, mapped, returned mapped⟩
  | false =>
    have room := slot.resolve_left (by simp [present])
    by_cases some : s.bitmap.clearBits.Nonempty
    · obtain ⟨f, least⟩ := exists_least_frame tables.bound some
      have mapped : s.PageMapped physaddr v rw user _ :=
        .table present allowed least (space.placement.slotEmpty room)
      exact .inl ⟨_, mapped, returned mapped⟩
    · have full := Set.not_nonempty_iff_eq_empty.mp some
      exact .inr ⟨space.pageMap_full page present allowed full _, rfl, full⟩

end PagingState

theorem KernelStep.inv {s s' : PagingState} {label : Option (BitVec 32)} (space : s.KernelSpace)
    (step : KernelStep s label s') : s'.KernelSpace := by
  have tables := space.tables
  cases step with
  | call step =>
    refine ⟨step.inv space.placement, WritableTables.keeps ?_ space.writable⟩
    cases step with
    | map page returned =>
      have room := space.placement.pageMap_room page returned
      have inside := room.imp_right fun room => (space.placement.slot_toNat room).1
      exact (pageMap_cases tables (page.dirIndex_ne 1023 (by decide)) inside
        returned).writableTables tables
    | place returned =>
      by_cases room : s.placementHeap < 0xC0400000
      · have ready := space.placement.slotReady room
        obtain ⟨-, -, -, f, least, rfl⟩ :=
          (pagingStructureAlloc_iff ready.bound ready.selfMap ready.slot ready.busy).mp returned
        have apart := (tables.busy least.1.2).1
        exact fun i => .inl (withStructure_mem (Ne.symm tables.kernelTable_ne_dir)
          (Ne.symm apart) i)
      · exact ((space.placement.heapFull room).stops returned).elim
    | alloc returned => exact fun i => .inl rfl
  | unmap high returned =>
    obtain ⟨table, here, -, -, rfl⟩ := pageUnmap_cases tables (dirIndex_ne_last high) returned
    refine ⟨space.placement.unmap here.apart _, WritableTables.keeps (fun i => .inl ?_)
      space.writable⟩
    exact write_of_frame_ne s.mem (Ne.symm here.apart)

/-- Frames in use stay in use. -/
theorem KernelStep.bits {s s' : PagingState} {label : Option (BitVec 32)} (space : s.KernelSpace)
    (step : KernelStep s label s') {bit : Nat} (used : s.bitmap.testBit bit = true) :
    s'.bitmap.testBit bit = true := by
  have tables := space.tables
  have set (f : Frame) : (s.bitmap.setBit f.toNat).testBit bit = true := by
    rw [Bitmap.testBit_setBit, used, Bool.or_true]
  cases step with
  | call step =>
    cases step with
    | map page returned =>
      have room := space.placement.pageMap_room page returned
      have inside := room.imp_right fun room => (space.placement.slot_toNat room).1
      cases pageMap_cases tables (page.dirIndex_ne 1023 (by decide)) inside returned with
      | entry => exact used
      | table => exact set _
    | place returned =>
      by_cases room : s.placementHeap < 0xC0400000
      · have ready := space.placement.slotReady room
        obtain ⟨-, -, -, f, least, rfl⟩ :=
          (pagingStructureAlloc_iff ready.bound ready.selfMap ready.slot ready.busy).mp returned
        exact set f
      · exact ((space.placement.heapFull room).stops returned).elim
    | @alloc page result bitmap returned =>
      cases result with
      | none =>
        rw [pageAlloc_none returned]
        exact used
      | some page' =>
        obtain ⟨-, rfl⟩ := pageAlloc_some tables.bound returned
        exact set _
  | unmap high returned =>
    obtain ⟨table, here, -, -, rfl⟩ := pageUnmap_cases tables (dirIndex_ne_last high) returned
    exact used

/-- A page that no caller maps stays unmapped. -/
theorem KernelStep.unmapped {s s' : PagingState} {label : Option (BitVec 32)} {w : BitVec 32}
    (space : s.KernelSpace) (step : KernelStep s label s') (own : CallerPage w)
    (other : ∀ v ∈ label, pageOf w ≠ pageOf v) (before : s.lookup (pageOf w) = none) :
    s'.lookup (pageOf w) = none := by
  have tables := space.tables
  cases step with
  | call step =>
    cases step with
    | map page returned =>
      have room := space.placement.pageMap_room page returned
      have inside := room.imp_right fun room => (space.placement.slot_toNat room).1
      have mapped := pageMap_cases tables (page.dirIndex_ne 1023 (by decide)) inside returned
      rw [mapped.lookup_other space.placement page room own (other _ rfl), before]
    | place returned =>
      by_cases room : s.placementHeap < 0xC0400000
      · have ready := space.placement.slotReady room
        obtain ⟨-, -, -, f, least, rfl⟩ :=
          (pagingStructureAlloc_iff ready.bound ready.selfMap ready.slot ready.busy).mp returned
        rw [tables.lookup_withStructure (space.placement.slot_toNat room).1 least.1.2 own, before]
      · exact ((space.placement.heapFull room).stops returned).elim
    | alloc returned => exact before
  | @unmap _ v high returned =>
    obtain ⟨table, here, -, -, rfl⟩ := pageUnmap_cases tables (dirIndex_ne_last high) returned
    by_cases same : pageOf w ∈ aliases (pageOf v)
    · rw [tables.lookup_alias here same]
      rfl
    · rw [tables.lookup_other here same, before]

theorem BootTables.kernelSpace {image : BootImage} {m : PhysMem} (boot : BootTables image m)
    {bitmap : Bitmap} (inUse : KernelInUse image.toKernelImage bitmap)
    (zero : bitmap.testBit 0 = true) : (BootTables.state image m bitmap).KernelSpace := by
  refine ⟨boot.placement inUse zero, fun i present => ?_⟩
  have entry : (BootTables.state image m bitmap).mem (BootTables.state image m bitmap).dir i =
    m image.dirFrame i := rfl
  rw [entry] at present ⊢
  rcases (boot.present_iff i).mp present with rfl | rfl | rfl <;> rw [boot.directory]
  · exact rw_bootEntry _
  · exact rw_bootEntry _
  · exact rw_bootEntry _

theorem BootTables.unmapped {image : BootImage} {m : PhysMem} (boot : BootTables image m)
    (bitmap : Bitmap) {w : BitVec 32} (own : CallerPage w) :
    (BootTables.state image m bitmap).lookup (pageOf w) = none := by
  refine lookup_of_absent (Bool.eq_false_iff.mpr fun present => ?_)
  rcases (boot.present_iff _).mp present with low | kernel | last
  · exact own.dirIndex_ne 0 (by decide) low
  · exact own.dirIndex_ne 768 (by decide) kernel
  · exact own.dirIndex_ne 1023 (by decide) last

theorem run_kernelSpace {s₀ s : PagingState} {labels : List (Option (BitVec 32))}
    (start : s₀.KernelSpace) (run : Run.From KernelStep s₀ labels s) : s.KernelSpace :=
  run.invariant (fun _ s => s.KernelSpace) start fun _ _ _ _ _ inv step => step.inv inv

/-- After any run a page that no call has mapped is unmapped, if it was so before. -/
theorem run_unmapped {s₀ s : PagingState} {labels : List (Option (BitVec 32))}
    (start : s₀.KernelSpace) (run : Run.From KernelStep s₀ labels s) {w : BitVec 32}
    (own : CallerPage w) (other : ∀ v, some v ∈ labels → pageOf w ≠ pageOf v)
    (before : s₀.lookup (pageOf w) = none) : s.lookup (pageOf w) = none := by
  refine run.invariant (fun labels s => (∀ v, some v ∈ labels → pageOf w ≠ pageOf v) →
    s.lookup (pageOf w) = none) (fun _ => before) ?_ other
  intro labels s label s' run ih step other
  have unmapped := ih fun v member => other v (List.mem_append_left _ member)
  refine step.unmapped (run_kernelSpace start run) own (fun v last => ?_) unmapped
  exact other v (List.mem_append_right _ (List.mem_singleton.mpr last.symm))

theorem run_bits {s₀ s : PagingState} {labels : List (Option (BitVec 32))}
    (start : s₀.KernelSpace) (run : Run.From KernelStep s₀ labels s) {bit : Nat}
    (used : s₀.bitmap.testBit bit = true) : s.bitmap.testBit bit = true :=
  run.invariant (fun _ s => s.bitmap.testBit bit = true) used
    fun _ _ _ _ run used step => step.bits (run_kernelSpace start run) used

end Treeos
