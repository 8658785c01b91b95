import Treeos.Vmm.HeapGrowth

/-!
# The pages of the heap, counted

`liballoc_alloc` takes every page behind the heap, and `liballoc_free` does not make the heap
smaller, so that no page is handed out twice.
-/
namespace Treeos

open PageTable PagingState KernelHeap

variable {s₀ : PagingState} {h h' : KernelHeap} {leases : List Lease} {depth count : Nat}
variable {t t' : HeapHistory} {live freed : List Block} {b : Block}

/-! ### After `boot.S` -/

/-- The tables of `boot.S`, with pages that have been mapped and unmapped outside of the heap. -/
inductive Booted : PagingState → Prop
  | run {image : BootImage} {fuel : Nat} {m₀ m : PhysMem} {bitmap : Bitmap}
      {labels : List (Option (BitVec 32))} {s₀ : PagingState} (enough : 1024 ≤ fuel)
      (clean : ∀ i, m₀ image.dirFrame i = 0 ∧ m₀ image.tableFrame i = 0)
      (booted : initBootstrapPaging fuel image m₀ = .ok m)
      (inUse : KernelInUse image.toKernelImage bitmap) (zero : bitmap.testBit 0 = true)
      (setup : Run.From KernelStep (BootTables.state image m bitmap) labels s₀)
      (outside : ∀ v, some v ∈ labels → ¬HeapAddress v) : Booted s₀

theorem Booted.kernelSpace (booted : Booted s₀) : s₀.KernelSpace := by
  cases booted with
  | run enough clean returned inUse zero setup outside =>
    obtain ⟨m, returned', boot⟩ := initBootstrapPaging_eq enough clean
    obtain rfl := Except.ok.inj (returned.symm.trans returned')
    exact run_kernelSpace (boot.kernelSpace inUse zero) setup

/-- No page of the heap is mapped before the first call. -/
theorem Booted.unmapped (booted : Booted s₀) {v : BitVec 32} (inside : HeapAddress v) :
    s₀.lookup (pageOf v) = none := by
  cases booted with
  | @run image fuel m₀ m bitmap labels _ enough clean returned inUse zero setup outside =>
    obtain ⟨m', returned', boot⟩ := initBootstrapPaging_eq enough clean
    obtain rfl := Except.ok.inj (returned.symm.trans returned')
    refine run_unmapped (boot.kernelSpace inUse zero) setup inside.callerPage ?_
      (boot.unmapped bitmap inside.callerPage)
    intro w label same
    exact outside w label (inside.samePage same)

/-! ### Pages -/

/-- The pages of the heap that are mapped. -/
def heapPages (s : PagingState) : Set (BitVec 32) :=
  {v | HeapAddress v ∧ isPageAligned v = true ∧ s.lookup (pageOf v) ≠ none}

theorem Leased.heapPages_eq (inv : Leased s₀ h leases) :
    heapPages h.paging = {v | v ∈ leases.map Lease.page} := by
  ext v
  constructor
  · rintro ⟨address, aligned, mapped⟩
    by_contra none
    refine mapped (inv.unmapped v address fun l member same => none ?_)
    have equal := pageOf_inj aligned (inv.inside l member).1 same
    exact List.mem_map.mpr ⟨l, member, equal.symm⟩
  · intro member
    obtain ⟨l, listed, rfl⟩ := List.mem_map.mp member
    obtain ⟨e, found, -⟩ := inv.mapped l listed
    refine ⟨inv.heapAddress listed, (inv.inside l listed).1, ?_⟩
    rw [found]
    nofun

/-- Each lease is one page. -/
theorem Leased.ncard_heapPages (inv : Leased s₀ h leases) :
    (heapPages h.paging).ncard = leases.length := by
  have finite : heapPages h.paging = ((leases.map Lease.page).toFinset : Set _) := by
    rw [inv.heapPages_eq]
    ext v
    simp
  rw [finite, Set.ncard_coe_finset, List.toFinset_card_of_nodup inv.pages, List.length_map]

/-- There are 256 pages in a heap of maximal size. -/
theorem Leased.length_le (inv : Leased s₀ h leases) : leases.length ≤ 256 := by
  have start : kheapStart.toNat = 0xD0000000 := rfl
  have size := inv.size.1
  have place (l : Lease) (member : l ∈ leases) : l.page.toNat % 4096 = 0 ∧
      0xD0000000 ≤ l.page.toNat ∧ l.page.toNat < 0xD0100000 := by
    obtain ⟨aligned, low, high⟩ := inv.inside l member
    rw [isPageAligned_iff] at aligned
    omega
  have nodup : (leases.map fun l => (l.page.toNat - 0xD0000000) / 4096).Nodup := by
    refine List.Nodup.map_on (fun l first l' second same => ?_) inv.pages.of_map
    have here := place l first
    have there := place l' second
    have page : l.page = l'.page := BitVec.eq_of_toNat_eq (by omega)
    exact List.inj_on_of_nodup_map inv.pages first second page
  have subset : (leases.map fun l => (l.page.toNat - 0xD0000000) / 4096) ⊆ List.range 256 := by
    intro n member
    obtain ⟨l, listed, rfl⟩ := List.mem_map.mp member
    have here := place l listed
    rw [List.mem_range]
    omega
  have length := (List.subperm_of_subset nodup subset).length_le
  rwa [List.length_map, List.length_range] at length

/-- The number of pages of some blocks. -/
def pageCount (blocks : List Block) : Nat := (blocks.map fun b => b.pages.toNat).sum

theorem HeapInv.length_leases (inv : HeapInv s₀ t) {blocks : List Block}
    (subset : blocks ⊆ t.live ++ t.freed) :
    (blocks.flatMap Block.leases).length = pageCount blocks := by
  unfold pageCount
  rw [List.length_flatMap]
  refine congrArg List.sum (List.map_congr_left fun b member => ?_)
  have shape := congrArg List.length (inv.shape b (subset member))
  unfold pagesFrom at shape
  simpa using shape

theorem HeapInv.ncard_heapPages (inv : HeapInv s₀ t) :
    (heapPages t.heap.paging).ncard = pageCount t.live := by
  rw [inv.leased.ncard_heapPages, inv.length_leases (List.subset_append_left _ _)]

/-! ### The size of the heap -/

theorem Leased.allocPages_size (inv : Leased s₀ h leases)
    (returned : h.allocPages depth count = .ok h') :
    h'.kheap.size.toNat = h.kheap.size.toNat + 4096 * count := by
  induction count generalizing h leases with
  | zero =>
    cases returned
    omega
  | succ count ih =>
    obtain ⟨h₁, first, rest⟩ := bind_ok_iff.mp returned
    obtain ⟨f, leased, size, -⟩ := inv.allocPage first
    have small := inv.size.1
    have grown : h₁.kheap.size.toNat = h.kheap.size.toNat + 4096 := by
      rw [size, BitVec.toNat_add]
      show (_ + 4096) % 2 ^ 32 = _
      omega
    rw [ih leased rest, grown]
    omega

theorem Leased.liballocAlloc_size {pages block : BitVec 32} (inv : Leased s₀ h leases)
    (returned : h.liballocAlloc depth pages = .ok (block, h')) :
    h'.kheap.size.toNat = h.kheap.size.toNat + 4096 * pages.toNat := by
  by_cases zero : pages = 0
  · unfold liballocAlloc at returned
    rw [if_pos zero] at returned
    cases returned
    simp [zero]
  · exact inv.allocPages_size (allocPages_of_liballocAlloc zero returned)

theorem freePages_kheap {block : BitVec 32}
    (returned : KernelHeap.freePages block count h = .ok h') : h'.kheap = h.kheap := by
  induction count generalizing h with
  | zero =>
    cases returned
    rfl
  | succ count ih =>
    obtain ⟨h₁, first, rest⟩ := bind_ok_iff.mp returned
    rw [ih rest]
    unfold KernelHeap.freePage at first
    obtain ⟨paddr, -, first⟩ := bind_ok_iff.mp first
    obtain ⟨s₁, -, first⟩ := bind_ok_iff.mp first
    obtain ⟨bitmap, -, first⟩ := bind_ok_iff.mp first
    cases first
    rfl

/-- Every page of the heap has been in one block. -/
def HeapCounted (t : HeapHistory) : Prop :=
  t.heap.kheap.size.toNat = 4096 * pageCount (t.live ++ t.freed)

theorem HeapStep.counted {call : HeapCall} (inv : HeapInv s₀ t) (counted : HeapCounted t)
    (step : HeapStep t call t') : HeapCounted t' := by
  unfold HeapCounted at *
  cases step with
  | alloc returned =>
    have grown := inv.leased.liballocAlloc_size returned
    dsimp only at grown counted ⊢
    rw [grown, counted]
    simp only [pageCount, List.cons_append, List.map_cons, List.sum_cons]
    omega
  | @free h h' live freed b result member returned =>
    have order : (live ++ freed).Perm (live.erase b ++ b :: freed) :=
      ((List.perm_cons_erase member).append_right freed).trans List.perm_middle.symm
    have same : pageCount (live.erase b ++ b :: freed) = pageCount (live ++ freed) := by
      unfold pageCount
      exact (order.map _).sum_eq.symm
    dsimp only at counted ⊢
    rw [freePages_kheap (freePages_of_liballocFree returned), counted, same]

theorem run_counted {calls : List HeapCall} (start : s₀.KernelSpace)
    (unmapped : ∀ v, HeapAddress v → s₀.lookup (pageOf v) = none)
    (run : Run.From HeapStep (emptyHeap s₀) calls t) : HeapInv s₀ t ∧ HeapCounted t := by
  refine run.invariant (fun _ t => HeapInv s₀ t ∧ HeapCounted t)
    ⟨emptyHeap_inv start unmapped, rfl⟩ ?_
  intro calls t call t' _ both step
  obtain ⟨inv, counted⟩ := both
  exact ⟨step.inv start inv, step.counted inv counted⟩

/-- The pages of some blocks. -/
def blockPages (blocks : List Block) : List (BitVec 32) :=
  blocks.flatMap fun b => pagesFrom b.start b.pages.toNat

theorem HeapInv.leasePages (inv : HeapInv s₀ t) {blocks : List Block}
    (subset : blocks ⊆ t.live ++ t.freed) :
    (blocks.flatMap Block.leases).map Lease.page = blockPages blocks := by
  rw [blockPages, List.map_flatMap, List.flatMap_congr]
  exact fun b member => inv.shape b (subset member)

/-- The heap has the size of all blocks that have ever been allocated, also of those that have been
freed, which is 256 pages at most. No page is in two of them, and the pages of the others are the
ones that are mapped. -/
theorem heap_pagesOnce {calls : List HeapCall} (booted : Booted s₀)
    (run : Run.From HeapStep (emptyHeap s₀) calls t) :
    t.heap.kheap.size.toNat = 4096 * pageCount (t.live ++ t.freed) ∧
      pageCount (t.live ++ t.freed) ≤ 256 ∧ (blockPages (t.live ++ t.freed)).Nodup ∧
      heapPages t.heap.paging = {v | v ∈ blockPages t.live} ∧
      (heapPages t.heap.paging).ncard = pageCount t.live := by
  obtain ⟨inv, counted⟩ := run_counted booted.kernelSpace (fun v => booted.unmapped) run
  have limit := inv.leased.size.1
  unfold HeapCounted at counted
  refine ⟨counted, by omega, ?_, ?_, inv.ncard_heapPages⟩
  · rw [← inv.leasePages (List.Subset.refl _)]
    exact inv.once
  · rw [inv.leased.heapPages_eq, inv.leasePages (List.subset_append_left _ _)]

/-- The page that has been freed is not mapped, and still counts. -/
theorem smallBoot_pagesOnce : ∃ s₀ t, Booted s₀ ∧
    Run.From HeapStep (emptyHeap s₀) [.alloc 1 kheapStart, .free kheapStart 1] t ∧
    t.heap.kheap.size.toNat = 4096 ∧ heapPages t.heap.paging = ∅ := by
  obtain ⟨m, returned, boot⟩ := smallBoot_tables
  have clean : ∀ i : BitVec 10, (0 : Entry) = 0 ∧ (0 : Entry) = 0 := fun _ => ⟨rfl, rfl⟩
  have booted : Booted (BootTables.state smallBoot m lowInUse) :=
    .run (Nat.le_refl 1024) clean returned lowInUse_kernel lowInUse_zero .nil nofun
  obtain ⟨t, run, live, freed⟩ := smallBoot_free boot
  obtain ⟨size, -, -, pages, -⟩ := heap_pagesOnce booted run
  refine ⟨_, t, booted, run, ?_, ?_⟩
  · have count : pageCount t.freed = ((t.freed.map Block.pages).map BitVec.toNat).sum := by
      rw [List.map_map]
      rfl
    rw [size, live, List.nil_append, count, freed]
    rfl
  · rw [pages, live]
    exact Set.eq_empty_of_forall_notMem fun v => List.not_mem_nil

end Treeos
