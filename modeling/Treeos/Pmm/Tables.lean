import Treeos.Pmm.Paging

/-!
# The page tables as a whole

What holds of the directory and its tables at all times, and what `page_map` and
`page_unmap` do to the translation of every page.
-/
namespace Treeos

open PageTable

/-- The directory entries of the low and the high view of the kernel share a table. -/
def Twin (i j : BitVec 10) : Prop := i = j ∨ i = 0 ∧ j = 768 ∨ i = 768 ∧ j = 0

/-- The pages that are translated by the same table entry as `page`. -/
def aliases (page : Page) : Set Page := {q | Twin q.1 page.1 ∧ q.2 = page.2}

namespace PagingState

/-- The table of the kernel. -/
def kernelTable (s : PagingState) : Frame := (s.mem s.dir 768).address

/-- No two directory entries share a table but for the two of the kernel, and the frames
of the directory and the tables are in use. -/
structure Tables (s : PagingState) : Prop where
  selfMap : s.SelfMapped
  shared : s.mem s.dir 0 = s.mem s.dir 768
  kernel : (s.mem s.dir 768).present = true
  distinct : ∀ i j, (s.mem s.dir i).present = true → (s.mem s.dir j).present = true →
    (s.mem s.dir i).address = (s.mem s.dir j).address → Twin i j
  used : ∀ i, (s.mem s.dir i).present = true →
    s.bitmap.testBit (s.mem s.dir i).address.toNat = true
  bound : s.bitmap.wordCount.toNat ≤ 1024

variable {s s' : PagingState} {v physaddr : BitVec 32} {f table : Frame} {rw user : Bool}

theorem twin_last {i : BitVec 10} (twin : Twin i 1023) : i = 1023 := by
  rcases twin with same | ⟨-, impossible⟩ | ⟨-, impossible⟩
  · exact same
  · exact absurd impossible (by decide)
  · exact absurd impossible (by decide)

namespace Tables

theorem table_ne_dir (tables : s.Tables) {i : BitVec 10} (last : i ≠ 1023)
    (present : (s.mem s.dir i).present = true) : (s.mem s.dir i).address ≠ s.dir := fun same =>
  last (twin_last (tables.distinct i 1023 present tables.selfMap.1
    (same.trans tables.selfMap.2.symm)))

theorem tableAt (tables : s.Tables) (last : dirIndex v ≠ 1023)
    (present : (s.mem s.dir (dirIndex v)).present = true) :
    s.TableAt v (s.mem s.dir (dirIndex v)).address :=
  ⟨⟨present, rfl⟩, tables.table_ne_dir last present⟩

theorem kernelTable_ne_dir (tables : s.Tables) : s.kernelTable ≠ s.dir :=
  tables.table_ne_dir (by decide) tables.kernel

/-- A free frame is neither the directory nor a table. -/
theorem busy (tables : s.Tables) (free : s.bitmap.testBit f.toNat = false) :
    f ≠ s.dir ∧ ∀ i, ¬Uses pagingFormat s.mem s.dir i f := by
  have unused (i : BitVec 10) : ¬Uses pagingFormat s.mem s.dir i f := by
    rintro ⟨present, rfl⟩
    rw [show pagingFormat.frame = Entry.address from rfl, tables.used i present] at free
    cases free
  refine ⟨?_, unused⟩
  rintro rfl
  exact unused 1023 tables.selfMap

/-- The directory entries that use a table are those of its twins. -/
theorem uses_iff (tables : s.Tables) {i j : BitVec 10} {table : Frame}
    (uses : Uses pagingFormat s.mem s.dir i table) :
    Uses pagingFormat s.mem s.dir j table ↔ Twin j i := by
  constructor
  · rintro ⟨present, same⟩
    exact tables.distinct j i present uses.1 (same.trans uses.2.symm)
  · rintro (rfl | ⟨rfl, rfl⟩ | ⟨rfl, rfl⟩)
    · exact uses
    · unfold Uses
      rw [tables.shared]
      exact uses
    · unfold Uses
      rw [← tables.shared]
      exact uses

/-- The invariant is about the directory and the bitmap only. -/
theorem congr (tables : s.Tables) (dir : s'.dir = s.dir)
    (directory : ∀ i, s'.mem s.dir i = s.mem s.dir i)
    (wordCount : s'.bitmap.wordCount = s.bitmap.wordCount)
    (bits : ∀ bit, s.bitmap.testBit bit = true → s'.bitmap.testBit bit = true) : s'.Tables := by
  refine ⟨?_, ?_, ?_, ?_, ?_, wordCount ▸ tables.bound⟩
  · unfold SelfMapped Uses
    rw [dir, directory]
    exact tables.selfMap
  · rw [dir, directory, directory]
    exact tables.shared
  · rw [dir, directory]
    exact tables.kernel
  · intro i j
    rw [dir, directory, directory]
    exact tables.distinct i j
  · intro i present
    rw [dir, directory] at *
    exact bits _ (tables.used i present)

theorem setMem_table (tables : s.Tables) (apart : table ≠ s.dir) (i : BitVec 10) (e : Entry) :
    (s.setMem (write s.mem table i e)).Tables :=
  tables.congr rfl (fun _ => write_of_frame_ne s.mem (Ne.symm apart)) rfl fun _ => id

/-- A new page of the placement heap keeps the tables as they are. -/
theorem withStructure (tables : s.Tables) (apart : table ≠ s.dir) (away : f ≠ s.dir) :
    (s.withStructure table f).Tables := by
  refine tables.congr rfl (withStructure_mem (Ne.symm apart) (Ne.symm away)) rfl ?_
  intro bit set
  show (s.bitmap.setBit f.toNat).testBit bit = true
  rw [Bitmap.testBit_setBit, set, Bool.or_true]

end Tables

/-- The other slots of the table stay. -/
theorem withStructure_mem_slots (other : f ≠ table) {j : BitVec 10}
    (different : j ≠ tableIndex s.placementHeap) :
    (s.withStructure table f).mem table j = s.mem table j := by
  show fill (write s.mem table _ _) f 0 table j = _
  rw [fill_of_ne _ (Ne.symm other), write_of_index_ne _ different]

theorem withTable_mem_slots (slot : table ≠ s.dir) (other : f ≠ table) {j : BitVec 10}
    (different : j ≠ tableIndex s.placementHeap) :
    (s.withTable v table f).mem table j = s.mem table j := by
  show fill (write (write s.mem s.dir _ _) table (tableIndex s.placementHeap) _) f 0 table j = _
  rw [fill_of_ne _ (Ne.symm other), write_of_index_ne _ different, write_of_frame_ne s.mem slot]

theorem withTable_mem_dir (slot : table ≠ s.dir) (apart : f ≠ s.dir) (i : BitVec 10) :
    (s.withTable v table f).mem s.dir i =
      if i = dirIndex v then (s.mem s.dir (dirIndex v)).linked f else s.mem s.dir i := by
  unfold withTable
  rw [withStructure_mem (Ne.symm slot) (Ne.symm apart), setMem_mem]
  split
  next same => rw [same, write_self]
  next other => exact write_of_index_ne s.mem other

/-- A new table is one that no other directory entry refers to. -/
theorem Tables.withTable (tables : s.Tables) (absent : (s.mem s.dir (dirIndex v)).present = false)
    (free : s.bitmap.testBit f.toNat = false) : (s.withTable v s.kernelTable f).Tables := by
  obtain ⟨apart, unused⟩ := tables.busy free
  have slot := tables.kernelTable_ne_dir
  have entry (i : BitVec 10) := withTable_mem_dir (v := v) slot apart i
  have dir : (s.withTable v s.kernelTable f).dir = s.dir := rfl
  -- An entry that was present is not the new one.
  have other {i : BitVec 10} (present : (s.mem s.dir i).present = true) : i ≠ dirIndex v := by
    rintro rfl
    rw [absent] at present
    cases present
  have bits (bit : Nat) : (s.withTable v s.kernelTable f).bitmap.testBit bit =
      (decide (f.toNat = bit) || s.bitmap.testBit bit) := s.bitmap.testBit_setBit _ _
  refine ⟨?_, ?_, ?_, ?_, ?_, tables.bound⟩
  · unfold SelfMapped Uses
    rw [dir, entry, if_neg (other tables.selfMap.1)]
    exact tables.selfMap
  · rw [dir, entry, entry, if_neg (other tables.kernel),
      if_neg (other (tables.shared ▸ tables.kernel))]
    exact tables.shared
  · rw [dir, entry, if_neg (other tables.kernel)]
    exact tables.kernel
  · intro i j first second same
    rw [dir, entry] at first second same
    rw [entry] at same
    by_cases newI : i = dirIndex v
    · by_cases newJ : j = dirIndex v
      · exact .inl (newI.trans newJ.symm)
      · rw [if_neg newJ] at second same
        rw [if_pos newI, Entry.address_linked] at same
        exact absurd ⟨second, same.symm⟩ (unused j)
    · rw [if_neg newI] at first same
      by_cases newJ : j = dirIndex v
      · rw [if_pos newJ, Entry.address_linked] at same
        exact absurd ⟨first, same⟩ (unused i)
      · rw [if_neg newJ] at second same
        exact tables.distinct i j first second same
  · intro i present
    rw [dir, entry] at present ⊢
    rw [bits]
    by_cases new : i = dirIndex v
    · rw [if_pos new, Entry.address_linked, decide_eq_true rfl, Bool.true_or]
    · rw [if_neg new] at present ⊢
      rw [tables.used i present, Bool.or_true]

/-! ### `page_map` over all pages -/

/-- What a `page_map` that returns has done. -/
inductive PageMapped (s : PagingState) (physaddr v : BitVec 32) (rw user : Bool) :
    PagingState → Prop
  -- in a table that was there
  | entry {table : Frame} (here : s.TableAt v table) (allowed : s.MapAllowed physaddr v)
      (absent : (s.mem table (tableIndex v)).present = false) :
      PageMapped s physaddr v rw user (s.setMem (write s.mem table (tableIndex v)
        ((s.mem table (tableIndex v)).mapped physaddr rw user)))
  -- in a new table, which takes a slot of the placement heap
  | table {f : Frame} (absent : (s.mem s.dir (dirIndex v)).present = false)
      (allowed : s.MapAllowed physaddr v) (least : IsLeast s.bitmap.clearBits f.toNat)
      (slot : (s.mem s.kernelTable (tableIndex s.placementHeap)).present = false) :
      PageMapped s physaddr v rw user ((s.withTable v s.kernelTable f).setMem
        (write (s.withTable v s.kernelTable f).mem f (tableIndex v)
          ((0 : Entry).mapped physaddr rw user)))

theorem Tables.slotAt (tables : s.Tables) (heap : dirIndex s.placementHeap = 768) :
    s.TableAt s.placementHeap s.kernelTable := by
  refine ⟨?_, tables.kernelTable_ne_dir⟩
  rw [heap]
  exact ⟨tables.kernel, rfl⟩

/-- The new table is empty. -/
theorem withTable_tableAt (slot : table ≠ s.dir) (apart : f ≠ s.dir) :
    (s.withTable v table f).TableAt v f := by
  refine ⟨?_, apart⟩
  unfold Uses
  rw [show (s.withTable v table f).dir = s.dir from rfl, withTable_mem_dir slot apart, if_pos rfl]
  exact ⟨Entry.present_linked _ _, Entry.address_linked _ _⟩

theorem withTable_mem (i : BitVec 10) : (s.withTable v table f).mem f i = 0 := fill_self _

/-- What `page_map` needs of the placement heap to make a new table. -/
theorem Tables.newDirEntry_iff (tables : s.Tables) (last : dirIndex v ≠ 1023)
    (absent : (s.mem s.dir (dirIndex v)).present = false)
    (heap : dirIndex s.placementHeap = 768) (depth : Nat) :
    newDirEntry (pagingStructureAlloc depth) s v = .ok s' ↔
      isPageAligned s.placementHeap = true ∧
      (s.mem s.kernelTable (tableIndex s.placementHeap)).present = false ∧
      ∃ f : Frame, IsLeast s.bitmap.clearBits f.toNat ∧ s' = s.withTable v s.kernelTable f := by
  refine PagingState.newDirEntry_iff tables.bound tables.selfMap last (tables.slotAt heap) ?_ ?_
  · intro same
    rw [← same, heap, tables.kernel] at absent
    cases absent
  · intro f free
    obtain ⟨apart, unused⟩ := tables.busy free
    exact ⟨apart, fun same => unused 768 ⟨tables.kernel, same.symm⟩⟩

/-- What is left for `page_map` to do in the new table, which has no entries. -/
theorem Tables.setTableEntry_withTable (tables : s.Tables)
    (absent : (s.mem s.dir (dirIndex v)).present = false)
    (least : IsLeast s.bitmap.clearBits f.toNat) (physaddr : BitVec 32) (rw user : Bool) :
    (s.withTable v s.kernelTable f).setTableEntry physaddr v rw user =
      .ok ((s.withTable v s.kernelTable f).setMem (write (s.withTable v s.kernelTable f).mem f
        (tableIndex v) ((0 : Entry).mapped physaddr rw user))) := by
  have apart := (tables.busy least.1.2).1
  rw [setTableEntry_eq (tables.withTable absent least.1.2).selfMap
    (withTable_tableAt tables.kernelTable_ne_dir apart) (by rw [withTable_mem]; rfl), withTable_mem]

theorem pageMap_cases (tables : s.Tables) (last : dirIndex v ≠ 1023)
    (inside : (s.mem s.dir (dirIndex v)).present = true ∨ dirIndex s.placementHeap = 768)
    {depth : Nat} (returned : pageMap depth s physaddr v rw user = .ok s') :
    PageMapped s physaddr v rw user s' := by
  cases present : (s.mem s.dir (dirIndex v)).present with
  | true =>
    obtain ⟨alloc, mapping⟩ := pageMap_eq depth
    have table := tables.tableAt last present
    rw [mapping, pageMapWith_table_iff tables.selfMap table] at returned
    obtain ⟨allowed, absent, rfl⟩ := returned
    exact .entry table allowed absent
  | false =>
    have heap : dirIndex s.placementHeap = 768 := inside.resolve_left (by simp [present])
    cases depth with
    | zero =>
      obtain ⟨-, t, stopped, -⟩ := (pageMapWith_absent_iff tables.selfMap present).mp returned
      unfold newDirEntry at stopped
      rw [markDirEntry_eq tables.selfMap last, ok_bind] at stopped
      cases stopped
    | succ depth =>
      obtain ⟨allowed, t, made, set⟩ := (pageMapWith_absent_iff tables.selfMap present).mp returned
      obtain ⟨-, free, f, least, rfl⟩ :=
        (tables.newDirEntry_iff last present heap depth).mp made
      rw [tables.setTableEntry_withTable present least] at set
      cases set
      exact .table present allowed least free

/-- One level of recursion is enough for `page_map` while the placement heap is in the
4 MiB of directory entry 768. -/
theorem PageMapped.returned (mapped : s.PageMapped physaddr v rw user s') (tables : s.Tables)
    (last : dirIndex v ≠ 1023) (aligned : isPageAligned s.placementHeap = true)
    (inside : (s.mem s.dir (dirIndex v)).present = true ∨ dirIndex s.placementHeap = 768)
    (depth : Nat) : pageMap (depth + 1) s physaddr v rw user = .ok s' := by
  cases mapped with
  | entry here allowed absent =>
    exact (pageMapWith_table_iff tables.selfMap here).mpr ⟨allowed, absent, rfl⟩
  | @table f absent allowed least slot =>
    have heap : dirIndex s.placementHeap = 768 := inside.resolve_left (by simp [absent])
    exact (pageMapWith_absent_iff tables.selfMap absent).mpr ⟨allowed, _,
      (tables.newDirEntry_iff last absent heap depth).mpr ⟨aligned, slot, f, least, rfl⟩,
      tables.setTableEntry_withTable absent least physaddr rw user⟩

end PagingState

end Treeos
