import Treeos.Vmm.KernelHeap

/-!
# Histories of the kernel heap

Any sequence of `liballoc_alloc` and `liballoc_free` calls, against the blocks that it has
allocated and freed.
-/
namespace Treeos

open PageTable PagingState KernelHeap

variable {s₀ : PagingState} {h h' : KernelHeap} {leases : List Lease} {depth : Nat}

/-- The frame that `v` is mapped to. -/
def PagingState.frameAt (s : PagingState) (v : BitVec 32) : Frame :=
  match s.lookup (pageOf v) with
  | some e => e.address
  | none => 0

/-- What `liballoc_alloc` has returned, and the frames that its pages were mapped to then. -/
structure Block where
  start : BitVec 32
  pages : BitVec 32
  leases : List Lease
deriving DecidableEq

/-- The leases of a block in state `s`. -/
def leasesAt (s : PagingState) (start : BitVec 32) (count : Nat) : List Lease :=
  (pagesFrom start count).map fun v => ⟨v, s.frameAt v⟩

/-- The addresses of a block. -/
def Block.range (b : Block) : Set Nat :=
  {a | b.start.toNat ≤ a ∧ a < b.start.toNat + 4096 * b.pages.toNat}

structure HeapHistory where
  heap : KernelHeap
  live : List Block
  freed : List Block

inductive HeapCall where
  | alloc (pages block : BitVec 32)
  | free (block pages : BitVec 32)

/-- Calls that return. `liballoc_free` is given a live block and its page count. -/
inductive HeapStep : HeapHistory → HeapCall → HeapHistory → Prop
  | alloc {h h' : KernelHeap} {live freed : List Block} {pages block : BitVec 32} {depth : Nat}
      (returned : h.liballocAlloc depth pages = .ok (block, h')) :
      HeapStep ⟨h, live, freed⟩ (.alloc pages block)
        ⟨h', ⟨block, pages, leasesAt h'.paging block pages.toNat⟩ :: live, freed⟩
  | free {h h' : KernelHeap} {live freed : List Block} {b : Block} {result : BitVec 32}
      (member : b ∈ live) (returned : h.liballocFree b.start b.pages = .ok (result, h')) :
      HeapStep ⟨h, live, freed⟩ (.free b.start b.pages) ⟨h', live.erase b, b :: freed⟩

/-- The live blocks hold the leases of the heap, and every page of it has been in one block
only. -/
structure HeapInv (s₀ : PagingState) (t : HeapHistory) : Prop where
  leased : Leased s₀ t.heap (t.live.flatMap Block.leases)
  shape : ∀ b ∈ t.live ++ t.freed, b.leases.map Lease.page = pagesFrom b.start b.pages.toNat
  once : (((t.live ++ t.freed).flatMap Block.leases).map Lease.page).Nodup
  inside : ∀ b ∈ t.live ++ t.freed, ∀ l ∈ b.leases, isPageAligned l.page = true ∧
    kheapStart.toNat ≤ l.page.toNat ∧
    l.page.toNat < kheapStart.toNat + t.heap.kheap.size.toNat
  returned : t.heap.returned = (t.freed.flatMap Block.leases).map Lease.record

theorem Leased.frameAt (leased : Leased s₀ h leases) {l : Lease} (member : l ∈ leases) :
    h.paging.frameAt l.page = l.frame := by
  obtain ⟨e, found, frame, -⟩ := leased.mapped l member
  rw [PagingState.frameAt, found]
  exact frame

theorem leasesAt_eq {new : List Lease} {start : BitVec 32} {count : Nat}
    (leased : Leased s₀ h (new ++ leases)) (pages : new.map Lease.page = pagesFrom start count) :
    leasesAt h.paging start count = new := by
  rw [leasesAt, ← pages, List.map_map]
  refine (List.map_congr_left fun l member => ?_).trans (List.map_id new)
  exact congrArg (Lease.mk l.page) (leased.frameAt (List.mem_append_left _ member))

/-- A block without pages changes nothing, the others are what the loop has leased. -/
theorem HeapInv.alloc {h h' : KernelHeap} {live freed : List Block} {pages block : BitVec 32}
    (inv : HeapInv s₀ ⟨h, live, freed⟩) (returned : h.liballocAlloc depth pages = .ok (block, h')) :
    HeapInv s₀ ⟨h', ⟨block, pages, leasesAt h'.paging block pages.toNat⟩ :: live, freed⟩ := by
  obtain ⟨new, leased, shape, behind, grown, same⟩ : ∃ new : List Lease,
      Leased s₀ h' (new ++ live.flatMap Block.leases) ∧
      new.map Lease.page = pagesFrom block pages.toNat ∧
      (∀ l ∈ new, kheapStart.toNat + h.kheap.size.toNat ≤ l.page.toNat) ∧
      h.kheap.size.toNat ≤ h'.kheap.size.toNat ∧ h'.returned = h.returned := by
    unfold liballocAlloc at returned
    split at returned
    next zero =>
      cases returned
      subst zero
      exact ⟨[], inv.leased, rfl, fun l none => absurd none List.not_mem_nil, Nat.le_refl _, rfl⟩
    next =>
      obtain ⟨h₁, looped, done⟩ := bind_ok_iff.mp returned
      cases done
      exact inv.leased.allocPages looped
  rw [leasesAt_eq leased shape]
  refine ⟨leased, ?_, ?_, ?_, same.trans inv.returned⟩
  · rintro b (_ | ⟨_, member⟩)
    · exact shape
    · exact inv.shape b member
  · -- the new pages are behind all pages of the blocks before
    show ((new ++ (live ++ freed).flatMap Block.leases).map Lease.page).Nodup
    rw [List.map_append, List.nodup_append]
    refine ⟨?_, inv.once, ?_⟩
    · have pages := leased.pages
      rw [List.map_append, List.nodup_append] at pages
      exact pages.1
    · rintro v first w second rfl
      obtain ⟨l, member, rfl⟩ := List.mem_map.mp first
      obtain ⟨l', member', same⟩ := List.mem_map.mp second
      obtain ⟨b, old, here⟩ := List.mem_flatMap.mp member'
      have low := behind l member
      have high := (inv.inside b old l' here).2.2
      rw [same] at high
      exact absurd high (Nat.not_lt.mpr low)
  · rintro b (_ | ⟨_, member⟩) l here
    · exact leased.inside l (List.mem_append_left _ here)
    · obtain ⟨aligned, low, high⟩ := inv.inside b member l here
      exact ⟨aligned, low, Nat.lt_of_lt_of_le high (Nat.add_le_add_left grown _)⟩

theorem HeapInv.free {h h' : KernelHeap} {live freed : List Block} {b : Block} {result : BitVec 32}
    (start : s₀.KernelSpace) (inv : HeapInv s₀ ⟨h, live, freed⟩) (member : b ∈ live)
    (returned : h.liballocFree b.start b.pages = .ok (result, h')) :
    HeapInv s₀ ⟨h', live.erase b, b :: freed⟩ := by
  have looped : KernelHeap.freePages b.start b.pages.toNat h = .ok h' := by
    unfold liballocFree at returned
    obtain ⟨-, -, returned⟩ := bind_ok_iff.mp returned
    obtain ⟨-, -, returned⟩ := bind_ok_iff.mp returned
    split at returned
    next zero =>
      cases returned
      rw [zero]
      rfl
    next =>
      obtain ⟨-, -, returned⟩ := bind_ok_iff.mp returned
      obtain ⟨h₁, looped, done⟩ := bind_ok_iff.mp returned
      cases done
      exact looped
  have order : live.Perm (b :: live.erase b) := List.perm_cons_erase member
  have moved : (live ++ freed).Perm (live.erase b ++ b :: freed) :=
    (order.append_right freed).trans List.perm_middle.symm
  have shape := inv.shape b (List.mem_append_left _ member)
  have leased : Leased s₀ h (b.leases ++ (live.erase b).flatMap Block.leases) :=
    inv.leased.perm (order.flatMap_right _)
  obtain ⟨rest, heap, given⟩ := leased.freePages start shape looped
  refine ⟨rest, fun c here => inv.shape c (moved.mem_iff.mpr here), ?_, fun c here => ?_, ?_⟩
  · exact ((moved.flatMap_right _).map _).nodup_iff.mp inv.once
  · show ∀ l ∈ c.leases, _ ∧ _ ∧ _ < _ + h'.kheap.size.toNat
    rw [heap]
    exact inv.inside c (moved.mem_iff.mpr here)
  · show h'.returned = ((b :: freed).flatMap Block.leases).map Lease.record
    rw [given, List.flatMap_cons, List.map_append]
    exact congrArg (b.leases.map Lease.record ++ ·) inv.returned

theorem HeapStep.inv {t t' : HeapHistory} {call : HeapCall} (start : s₀.KernelSpace)
    (inv : HeapInv s₀ t) (step : HeapStep t call t') : HeapInv s₀ t' := by
  cases step with
  | alloc returned => exact inv.alloc returned
  | free member returned => exact inv.free start member returned

/-- The heap in state `s₀`, before the first call. -/
def emptyHeap (s₀ : PagingState) : HeapHistory := ⟨⟨s₀, ⟨kheapStart, 0⟩, []⟩, [], []⟩

theorem emptyHeap_inv (start : s₀.KernelSpace)
    (unmapped : ∀ v, HeapAddress v → s₀.lookup (pageOf v) = none) : HeapInv s₀ (emptyHeap s₀) :=
  ⟨leased_empty start unmapped, nofun, .nil, nofun, rfl⟩

theorem run_heapInv {t : HeapHistory} {calls : List HeapCall} (start : s₀.KernelSpace)
    (unmapped : ∀ v, HeapAddress v → s₀.lookup (pageOf v) = none)
    (run : Run.From HeapStep (emptyHeap s₀) calls t) : HeapInv s₀ t :=
  run.invariant (fun _ t => HeapInv s₀ t) (emptyHeap_inv start unmapped)
    fun _ _ _ _ _ inv step => step.inv start inv

/-! ### Who owns the pages and the frames -/

/-- The pages of a block, at their addresses. -/
theorem HeapInv.block {t : HeapHistory} (inv : HeapInv s₀ t) {b : Block}
    (member : b ∈ t.live ++ t.freed) : ∀ i < b.pages.toNat, ∃ l ∈ b.leases,
      l.page = b.start + BitVec.ofNat 32 (4096 * i) ∧
      l.page.toNat = b.start.toNat + 4096 * i := by
  have start : kheapStart.toNat = 0xD0000000 := rfl
  have size := inv.leased.size.1
  have page (i : Nat) (bound : i < b.pages.toNat) : ∃ l ∈ b.leases,
      l.page = b.start + BitVec.ofNat 32 (4096 * i) := by
    have listed : b.start + BitVec.ofNat 32 (4096 * i) ∈ b.leases.map Lease.page := by
      rw [inv.shape b member]
      exact List.mem_map.mpr ⟨i, List.mem_range.mpr bound, rfl⟩
    obtain ⟨l, here, same⟩ := List.mem_map.mp listed
    exact ⟨l, here, same⟩
  have value (i : Nat) (few : i ≤ 256) (bound : i < b.pages.toNat) :
      (b.start + BitVec.ofNat 32 (4096 * i)).toNat = b.start.toNat + 4096 * i := by
    obtain ⟨l, here, first⟩ := page 0 (by omega)
    have low := (inv.inside b member l here).2.2
    rw [first, show b.start + BitVec.ofNat 32 (4096 * 0) = b.start from BitVec.add_zero _] at low
    rw [BitVec.toNat_add, BitVec.toNat_ofNat]
    omega
  -- a block that long would not fit into the heap
  have few : b.pages.toNat ≤ 256 := by
    by_contra many
    obtain ⟨l, here, same⟩ := page 256 (by omega)
    obtain ⟨l', here', first⟩ := page 0 (by omega)
    have high := (inv.inside b member l here).2.2
    have low := (inv.inside b member l' here').2.1
    rw [same, value 256 (Nat.le_refl _) (by omega)] at high
    rw [first, show b.start + BitVec.ofNat 32 (4096 * 0) = b.start from BitVec.add_zero _] at low
    omega
  intro i bound
  obtain ⟨l, here, same⟩ := page i bound
  exact ⟨l, here, same, same ▸ value i (by omega) bound⟩

/-- An address of a block is in one of its pages. -/
theorem HeapInv.range {t : HeapHistory} (inv : HeapInv s₀ t) {b : Block}
    (member : b ∈ t.live ++ t.freed) {a : Nat} (here : a ∈ b.range) :
    ∃ l ∈ b.leases, l.page.toNat ≤ a ∧ a < l.page.toNat + 4096 := by
  obtain ⟨low, high⟩ := here
  obtain ⟨l, lease, -, value⟩ := inv.block member ((a - b.start.toNat) / 4096) (by omega)
  exact ⟨l, lease, by omega, by omega⟩

/-- What holds of the heap after a history of calls that began in state `s₀`. -/
structure HeapOwned (s₀ : PagingState) (t : HeapHistory) : Prop where
  disjoint : t.live.Pairwise fun b c => ∀ a ∈ b.range, a ∉ c.range
  inside : ∀ b ∈ t.live, ∀ a ∈ b.range, t.heap.kheap.base.toNat ≤ a ∧
    a < t.heap.kheap.base.toNat + t.heap.kheap.size.toNat
  mapped : ∀ b ∈ t.live, ∀ i < b.pages.toNat, ∃ e,
    t.heap.paging.lookup (pageOf (b.start + BitVec.ofNat 32 (4096 * i))) = some e ∧
    e.rw = true ∧ t.heap.paging.bitmap.testBit e.address.toNat = true ∧
    (t.heap.paging.mem t.heap.paging.dir
      (dirIndex (b.start + BitVec.ofNat 32 (4096 * i)))).rw = true
  injective : ∀ v w, HeapAddress v → HeapAddress w → ∀ e e',
    t.heap.paging.lookup (pageOf v) = some e → t.heap.paging.lookup (pageOf w) = some e' →
    e.address = e'.address → pageOf v = pageOf w
  freed : ∀ b ∈ t.freed, ∀ i < b.pages.toNat, ∃ f,
    ⟨b.start + BitVec.ofNat 32 (4096 * i), f⟩ ∈ b.leases ∧
    t.heap.paging.lookup (pageOf (b.start + BitVec.ofNat 32 (4096 * i))) = none ∧
    (b.start + BitVec.ofNat 32 (4096 * i), f, true) ∈ t.heap.returned ∧
    (t.heap.returned.map Prod.fst).count (b.start + BitVec.ofNat 32 (4096 * i)) = 1
  inUse : ∀ bit, t.heap.paging.bitmap.testBit bit = true ↔ s₀.bitmap.testBit bit = true ∨
    (∃ b ∈ t.live, ∃ i < b.pages.toNat,
      (t.heap.paging.frameAt (b.start + BitVec.ofNat 32 (4096 * i))).toNat = bit) ∨
    ∃ f ∈ tableFrames s₀ t.heap.paging, f.toNat = bit

/-- Two blocks that are both allocated share no address. -/
theorem HeapInv.disjoint {t : HeapHistory} (inv : HeapInv s₀ t) :
    t.live.Pairwise fun b c => ∀ a ∈ b.range, a ∉ c.range := by
  have once := inv.once
  rw [List.flatMap_append, List.map_append, List.nodup_append] at once
  have liveOnce := once.1
  rw [List.map_flatMap, List.nodup_flatMap] at liveOnce
  refine liveOnce.2.imp_of_mem fun {b c} first second disjoint => ?_
  intro a here there
  have first := List.mem_append_left t.freed first
  have second := List.mem_append_left t.freed second
  obtain ⟨l, lease, low, high⟩ := inv.range first here
  obtain ⟨l', lease', low', high'⟩ := inv.range second there
  -- aligned pages that share an address are the same page, which has one lease
  have aligned := isPageAligned_iff.mp (inv.inside b first l lease).1
  have aligned' := isPageAligned_iff.mp (inv.inside c second l' lease').1
  have same : l.page = l'.page := BitVec.eq_of_toNat_eq (by omega)
  exact disjoint (List.mem_map.mpr ⟨l, lease, rfl⟩) (List.mem_map.mpr ⟨l', lease', same.symm⟩)

/-- A block lies within the heap as far as it has grown. -/
theorem HeapInv.range_inside {t : HeapHistory} (inv : HeapInv s₀ t) {b : Block}
    (member : b ∈ t.live ++ t.freed) {a : Nat} (here : a ∈ b.range) :
    t.heap.kheap.base.toNat ≤ a ∧
      a < t.heap.kheap.base.toNat + t.heap.kheap.size.toNat := by
  obtain ⟨l, lease, low, high⟩ := inv.range member here
  obtain ⟨aligned, first, last⟩ := inv.inside b member l lease
  have whole := inv.leased.size.2
  rw [isPageAligned_iff] at aligned
  rw [inv.leased.base]
  have start : kheapStart.toNat = 0xD0000000 := rfl
  omega

/-- A page of the heap that is mapped is leased, with the frame it is mapped to. -/
theorem HeapInv.lease_of_mapped {t : HeapHistory} (inv : HeapInv s₀ t) {v : BitVec 32} {e : Entry}
    (inside : HeapAddress v) (found : t.heap.paging.lookup (pageOf v) = some e) :
    ∃ l ∈ t.live.flatMap Block.leases, pageOf v = pageOf l.page ∧ l.frame = e.address := by
  by_contra none
  rw [inv.leased.unmapped v inside fun l member page => none ?_] at found
  · cases found
  · obtain ⟨e', mapped, frame, -⟩ := inv.leased.mapped l member
    rw [← page, found] at mapped
    cases mapped
    exact ⟨l, member, page, frame.symm⟩

/-- A page that was freed is unmapped and was returned once. -/
theorem HeapInv.freed_page {t : HeapHistory} (inv : HeapInv s₀ t) {b : Block}
    (member : b ∈ t.freed) {l : Lease} (lease : l ∈ b.leases) :
    t.heap.paging.lookup (pageOf l.page) = none ∧
      (l.page, l.frame, true) ∈ t.heap.returned ∧
      (t.heap.returned.map Prod.fst).count l.page = 1 := by
  have once := inv.once
  rw [List.flatMap_append, List.map_append, List.nodup_append] at once
  obtain ⟨-, freedOnce, apart⟩ := once
  have listed : l ∈ t.freed.flatMap Block.leases := List.mem_flatMap.mpr ⟨b, member, lease⟩
  obtain ⟨aligned, low, high⟩ := inv.inside b (List.mem_append_right _ member) l lease
  refine ⟨?_, ?_, ?_⟩
  · -- no block that is still allocated has the page
    refine inv.leased.unmapped _ (inv.leased.address low high) fun l' member' same => ?_
    have equal := pageOf_inj aligned (inv.leased.inside l' member').1 same
    exact apart l'.page (List.mem_map.mpr ⟨l', member', rfl⟩) l.page
      (List.mem_map.mpr ⟨l, listed, rfl⟩) equal.symm
  · rw [inv.returned]
    exact List.mem_map.mpr ⟨l, listed, rfl⟩
  · rw [inv.returned, List.map_map]
    exact List.count_eq_one_of_mem freedOnce (List.mem_map.mpr ⟨l, listed, rfl⟩)

/-- The frames of the leases are those behind the pages of the blocks. -/
theorem HeapInv.lease_frame_iff {t : HeapHistory} (inv : HeapInv s₀ t) (bit : Nat) :
    (∃ l ∈ t.live.flatMap Block.leases, l.frame.toNat = bit) ↔
      ∃ b ∈ t.live, ∃ i < b.pages.toNat,
        (t.heap.paging.frameAt (b.start + BitVec.ofNat 32 (4096 * i))).toNat = bit := by
  constructor
  · rintro ⟨l, member, same⟩
    obtain ⟨b, here, lease⟩ := List.mem_flatMap.mp member
    have listed : l.page ∈ pagesFrom b.start b.pages.toNat := by
      rw [← inv.shape b (List.mem_append_left _ here)]
      exact List.mem_map.mpr ⟨l, lease, rfl⟩
    obtain ⟨i, bound, page⟩ := List.mem_map.mp listed
    refine ⟨b, here, i, List.mem_range.mp bound, ?_⟩
    rw [page, inv.leased.frameAt member, same]
  · rintro ⟨b, member, i, bound, same⟩
    obtain ⟨l, lease, page, -⟩ := inv.block (List.mem_append_left _ member) i bound
    have leased := List.mem_flatMap.mpr ⟨b, member, lease⟩
    rw [← page, inv.leased.frameAt leased] at same
    exact ⟨l, leased, same⟩

theorem HeapInv.owned {t : HeapHistory} (inv : HeapInv s₀ t) : HeapOwned s₀ t where
  disjoint := inv.disjoint
  inside b member a here := inv.range_inside (List.mem_append_left _ member) here
  mapped b member i bound := by
    obtain ⟨l, lease, page, -⟩ := inv.block (List.mem_append_left _ member) i bound
    have leased := List.mem_flatMap.mpr ⟨b, member, lease⟩
    obtain ⟨e, found, frame, rw⟩ := inv.leased.mapped l leased
    rw [← page]
    have used := (inv.leased.bits l.frame.toNat).mpr (.inr (.inl ⟨l, leased, rfl⟩))
    exact ⟨e, found, rw, frame ▸ used, inv.leased.space.writable _ (lookup_some found).1.1⟩
  injective v w first second e e' found found' same := by
    obtain ⟨l, member, page, frame⟩ := inv.lease_of_mapped first found
    obtain ⟨l', member', page', frame'⟩ := inv.lease_of_mapped second found'
    have equal := List.inj_on_of_nodup_map inv.leased.frames member member'
      (frame.trans (same.trans frame'.symm))
    rw [page, page', equal]
  freed b member i bound := by
    obtain ⟨l, lease, page, -⟩ := inv.block (List.mem_append_right _ member) i bound
    rw [← page]
    exact ⟨l.frame, lease, inv.freed_page member lease⟩
  inUse bit := by
    rw [inv.leased.bits]
    exact or_congr_right (or_congr_left (inv.lease_frame_iff bit))

/-- After any run of the kernel on the tables of `boot.S` that has mapped no heap page, and any
history of heap calls behind it, the blocks own their pages and frames. -/
theorem kernelHeap_owned (image : BootImage) (fuel : Nat) (enough : 1024 ≤ fuel) (m₀ : PhysMem)
    (clean : ∀ i, m₀ image.dirFrame i = 0 ∧ m₀ image.tableFrame i = 0) (bitmap : Bitmap)
    (inUse : KernelInUse image.toKernelImage bitmap) (zero : bitmap.testBit 0 = true) :
    ∃ m, initBootstrapPaging fuel image m₀ = .ok m ∧ ∀ labels s₀,
      Run.From KernelStep (BootTables.state image m bitmap) labels s₀ →
      (∀ v, some v ∈ labels → ¬HeapAddress v) →
      ∀ calls t, Run.From HeapStep (emptyHeap s₀) calls t → HeapOwned s₀ t := by
  obtain ⟨m, returned, boot⟩ := initBootstrapPaging_eq enough clean
  refine ⟨m, returned, fun labels s₀ setup outside calls t run => ?_⟩
  have space := boot.kernelSpace inUse zero
  refine (run_heapInv (run_kernelSpace space setup) (fun v inside => ?_) run).owned
  refine run_unmapped space setup inside.callerPage (fun w label same => outside w label ?_)
    (boot.unmapped bitmap inside.callerPage)
  exact inside.samePage same

/-- The first page of the heap, for which `page_map` makes a table. -/
theorem smallBoot_alloc {m : PhysMem} (boot : BootTables smallBoot m) : ∃ h',
    (emptyHeap (BootTables.state smallBoot m lowInUse)).heap.liballocAlloc 1 1 =
      .ok (kheapStart, h') := by
  have taken (bit : Nat) : (lowInUse.setBit (1024#20).toNat).testBit bit = decide (bit < 1025) := by
    rw [Bitmap.testBit_setBit, lowInUse_testBit, ← Bool.decide_or, decide_eq_decide]
    show 1024 = bit ∨ _ ↔ _
    omega
  have inUse : KernelInUse smallImage (lowInUse.setBit (1024#20).toNat) := by
    refine ⟨by decide, fun f reserved => ?_⟩
    rw [Bitmap.testBit_setBit, lowInUse_kernel.used f reserved, Bool.or_true]
  have least : IsLeast (lowInUse.setBit (1024#20).toNat).clearBits (1025#20).toNat := by
    refine ⟨⟨by decide, (taken _).trans (by decide)⟩, fun bit free => ?_⟩
    have clear := free.2
    rw [taken, decide_eq_false_iff_not] at clear
    exact Nat.le_of_not_lt clear
  have absent : (m smallBoot.dirFrame (dirIndex kheapStart)).present = false := by
    rw [boot.directory, if_neg (by decide), if_neg (by decide)]
    rfl
  obtain ⟨pte, found, frame⟩ := pageAlloc_of_least (by decide) lowInUse_least 0
  have allowed : (BootTables.state smallBoot m (lowInUse.setBit (1024#20).toNat)).MapAllowed
      (frameAddr pte.address) kheapStart := by
    refine ⟨isPageAligned_frameAddr _, by decide, ?_⟩
    rw [frameAddr_shift, frame]
    exact lowInUse.testBit_setBit_self _
  obtain ⟨s', -, mapping⟩ := smallBoot_newTable boot inUse least allowed (by decide) absent
  have small : decide (kheapMaxSize < (0 : BitVec 32) + 0x1000) = false := by decide
  have page : (emptyHeap (BootTables.state smallBoot m lowInUse)).heap.allocPage 1 =
      .ok ⟨s', ⟨kheapStart, 0 + 0x1000⟩, []⟩ :=
    bind_ok_iff.mpr ⟨_, found, bind_ok_iff.mpr ⟨s', mapping,
      panicIf_bind_ok_iff.mpr ⟨small, rfl⟩⟩⟩
  have looped : (emptyHeap (BootTables.state smallBoot m lowInUse)).heap.allocPages 1 1 =
      .ok ⟨s', ⟨kheapStart, 0 + 0x1000⟩, []⟩ := bind_ok_iff.mpr ⟨_, page, rfl⟩
  refine ⟨⟨s', ⟨kheapStart, 0 + 0x1000⟩, []⟩, ?_⟩
  have some : ¬(1 : BitVec 32) = 0 := by decide
  exact (if_neg some).trans (bind_ok_iff.mpr ⟨_, looped, rfl⟩)

end Treeos
