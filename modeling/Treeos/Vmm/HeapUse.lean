import Treeos.Vmm.KernelHeap

/-!
# What liballoc does to the address space

liballoc reaches the address space through `liballoc_alloc` and through its stores to heap
pages. Both keep the leases and leave the pages outside of the heap alone.
-/
namespace Treeos

open PageTable PagingState KernelHeap

/-- One access of liballoc to the heap. -/
inductive HeapUse where
  | request (pages : BitVec 32)
  | load (v : BitVec 32)
  | store (v : BitVec 32) (w : Entry)

def HeapUse.run (depth : Nat) (h : KernelHeap) : HeapUse → Except Panic KernelHeap
  | .request pages => do
    let (_, h) ← h.liballocAlloc depth pages
    .ok h
  | .load v => do
    let _ ← h.paging.loadWord v
    .ok h
  | .store v w => do
    let s ← h.paging.storeWord v w
    .ok { h with paging := s }

/-- The pages that are asked for. -/
def HeapUse.requested : HeapUse → Nat
  | .request pages => pages.toNat
  | .load _ => 0
  | .store _ _ => 0

/-- `kcalloc`: what it returns and what it leaves of the heap, for a number and a size -/
abbrev Kcalloc := KernelHeap → BitVec 32 → BitVec 32 → Except Panic (BitVec 32 × KernelHeap)

/-- The heap has only grown since `s₀`. Its table is there and has taken at most one slot of the
placement heap, or there is a slot for it. -/
structure HeapGrown (s₀ : PagingState) (h : KernelHeap) : Prop where
  leased : ∃ leases, Leased s₀ h leases
  table : (h.paging.mem h.paging.dir (dirIndex kheapStart)).present = true ∧
      h.paging.placementHeap.toNat ≤ s₀.placementHeap.toNat + 4096 ∨
    s₀.placementHeap < 0xC0400000 ∧ h.paging.placementHeap = s₀.placementHeap
  other : ∀ w, CallerPage w → ¬HeapAddress w →
    h.paging.lookup (pageOf w) = s₀.lookup (pageOf w)

variable {s₀ : PagingState} {h h' : KernelHeap} {leases : List Lease} {depth : Nat}

theorem HeapGrown.slot (inv : HeapGrown s₀ h) : h.paging.HasSlot kheapStart := by
  rcases inv.table with ⟨present, -⟩ | ⟨room, same⟩
  · exact .inl present
  · exact .inr (same ▸ room)

/-! ### Stores -/

/-- A store to a heap page changes no table. -/
theorem Leased.store (start : s₀.KernelSpace) (inv : Leased s₀ h leases) {l : Lease}
    (member : l ∈ leases) (i : BitVec 10) (w : Entry) :
    Leased s₀ { h with paging := h.paging.setMem (write h.paging.mem l.frame i w) } leases ∧
      ∀ page, (h.paging.setMem (write h.paging.mem l.frame i w)).lookup page =
        h.paging.lookup page := by
  have tables := inv.space.tables
  have placement := inv.space.placement
  have unused := inv.unused start member
  have apart : h.paging.dir ≠ l.frame := fun same => unused 1023 tables.selfMap.1
    (tables.selfMap.2.trans same)
  have kernel : h.paging.kernelTable ≠ l.frame := unused 768 tables.kernel
  have entry (j : BitVec 10) : (h.paging.setMem (write h.paging.mem l.frame i w)).mem
      h.paging.dir j = h.paging.mem h.paging.dir j := write_of_frame_ne _ apart
  have lookups (page : Page) : (h.paging.setMem (write h.paging.mem l.frame i w)).lookup page =
      h.paging.lookup page :=
    lookup_write_of_not apart fun used => unused page.1 used.1.1 used.1.2
  have space : (h.paging.setMem (write h.paging.mem l.frame i w)).KernelSpace := by
    refine ⟨placement.keep (tables.setMem_table (Ne.symm apart) i w) rfl (entry 768) (entry 769)
      (fun j => write_of_frame_ne _ kernel) rfl rfl fun _ => id, fun j present => ?_⟩
    rw [setMem_dir, entry] at present ⊢
    exact inv.space.writable j present
  have frames : tableFrames s₀ (h.paging.setMem (write h.paging.mem l.frame i w)) =
      tableFrames s₀ h.paging := tableFrames_congr rfl entry
  refine ⟨⟨space, ⟨inv.kept.1, fun j present => (entry j).trans (inv.kept.2 j present)⟩, inv.base,
    inv.size, inv.inside, inv.pages, inv.frames, fun l' here => ?_, fun v own away => ?_, ?_, ?_,
    ?_⟩, lookups⟩
  · rw [lookups]
    exact inv.mapped l' here
  · rw [lookups]
    exact inv.unmapped v own away
  · rw [frames]
    exact inv.fresh
  · rw [frames]
    exact inv.tables
  · rw [frames]
    exact inv.bits

/-- A store to the heap is one to the frame of a lease. -/
theorem Leased.storeWord (start : s₀.KernelSpace) (inv : Leased s₀ h leases) {v : BitVec 32}
    (own : HeapAddress v) {w : Entry} {s' : PagingState}
    (stored : h.paging.storeWord v w = .ok s') :
    Leased s₀ { h with paging := s' } leases ∧ (∀ page, s'.lookup page = h.paging.lookup page) ∧
      s'.dir = h.paging.dir ∧ ∀ i, s'.mem s'.dir i = h.paging.mem h.paging.dir i := by
  cases found : h.paging.lookup (pageOf v) with
  | none =>
    rw [storeWord_of_none found] at stored
    cases stored
  | some e =>
    obtain ⟨l, member, page⟩ : ∃ l ∈ leases, pageOf v = pageOf l.page := by
      by_contra none
      rw [inv.unmapped v own fun l member page => none ⟨l, member, page⟩] at found
      cases found
    obtain ⟨e', mapped, frame, -⟩ := inv.mapped l member
    rw [← page, found, Option.some.injEq] at mapped
    rw [storeWord_of_lookup found, mapped, frame] at stored
    cases stored
    obtain ⟨kept, lookups⟩ := inv.store start member (wordIndex v) w
    have apart : h.paging.dir ≠ l.frame := fun same =>
      inv.unused start member 1023 inv.space.tables.selfMap.1
        (inv.space.tables.selfMap.2.trans same)
    exact ⟨kept, lookups, rfl, fun i => write_of_frame_ne _ apart⟩

/-! ### Requests -/

/-- The page that is mapped next has directory entry 832, like the whole heap. -/
theorem Leased.nextPage (inv : Leased s₀ h leases) :
    CallerPage (h.kheap.base + h.kheap.size) ∧
      dirIndex (h.kheap.base + h.kheap.size) = dirIndex kheapStart ∧
      isPageAligned (h.kheap.base + h.kheap.size) = true := by
  have next := inv.next
  obtain ⟨small, whole⟩ := inv.size
  have start : kheapStart.toNat = 0xD0000000 := rfl
  refine ⟨⟨?_, ?_⟩, ?_, ?_⟩
  · show 0xC4000000 ≤ (h.kheap.base + h.kheap.size).toNat
    omega
  · show (h.kheap.base + h.kheap.size).toNat < 0xFFC00000
    omega
  · apply BitVec.eq_of_toNat_eq
    rw [toNat_dirIndex, toNat_dirIndex]
    omega
  · rw [isPageAligned_iff]
    omega

/-- A new page takes a slot of the placement heap if it has no table. -/
theorem Leased.allocPage_placementHeap (inv : Leased s₀ h leases)
    (returned : h.allocPage depth = .ok h') :
    h'.paging.placementHeap = if (h.paging.mem h.paging.dir (dirIndex kheapStart)).present
      then h.paging.placementHeap else h.paging.placementHeap + 0x1000 := by
  obtain ⟨f, t, s', least, taken, step, mapping, fits, rfl⟩ :=
    allocPage_cases returned inv.space.tables.bound
  obtain ⟨page, index, -⟩ := inv.nextPage
  have space : t.KernelSpace := (KernelStep.call step).inv inv.space
  have inside := (space.placement.pageMap_room page mapping).imp_right fun room =>
    (space.placement.slot_toNat room).1
  have heap := (pageMap_cases space.tables (page.dirIndex_ne 1023 (by decide)) inside mapping).heap
  rw [index, taken] at heap
  exact heap

/-- A page that has been mapped had a table, or a slot for one. -/
theorem Leased.allocPage_slot (inv : Leased s₀ h leases) (returned : h.allocPage depth = .ok h') :
    h.paging.HasSlot kheapStart := by
  obtain ⟨f, t, s', least, taken, step, mapping, fits, rfl⟩ :=
    allocPage_cases returned inv.space.tables.bound
  obtain ⟨page, index, -⟩ := inv.nextPage
  have space : t.KernelSpace := (KernelStep.call step).inv inv.space
  have room := space.placement.pageMap_room page mapping
  rw [index, taken] at room
  exact room

theorem HeapGrown.next_unmapped (inv : HeapGrown s₀ h) (leased : Leased s₀ h leases)
    (behind : s₀.lookup (pageOf (kheapStart + kheapMaxSize)) = none) :
    h.paging.lookup (pageOf (h.kheap.base + h.kheap.size)) = none := by
  have next := leased.next
  obtain ⟨small, whole⟩ := leased.size
  have start : kheapStart.toNat = 0xD0000000 := rfl
  by_cases room : h.kheap.size.toNat < 0x100000
  · refine leased.unmapped _ ⟨?_, ?_⟩ fun l member same => ?_
    · show 0xD0000000 ≤ (h.kheap.base + h.kheap.size).toNat
      omega
    · show (h.kheap.base + h.kheap.size).toNat < 0xD0100000
      omega
    · obtain ⟨aligned, low, high⟩ := leased.inside l member
      rw [pageOf_eq_iff] at same
      rw [isPageAligned_iff] at aligned
      omega
  · -- the heap has its maximal size
    have full : h.kheap.base + h.kheap.size = kheapStart + kheapMaxSize := by
      apply BitVec.eq_of_toNat_eq
      show _ = 0xD0100000
      omega
    rw [full, inv.other _ ⟨by decide, by decide⟩ fun own => absurd own.high (by decide)]
    exact behind

theorem HeapGrown.allocPage (inv : HeapGrown s₀ h) (returned : h.allocPage depth = .ok h') :
    HeapGrown s₀ h' := by
  obtain ⟨leases, leased⟩ := inv.leased
  obtain ⟨page, index, aligned⟩ := leased.nextPage
  obtain ⟨f, leased', size, -, other⟩ := leased.allocPage returned
  obtain ⟨e, found, -⟩ := leased'.mapped _ List.mem_cons_self
  have own := leased'.heapAddress List.mem_cons_self
  have heap := leased.allocPage_placementHeap returned
  refine ⟨⟨_, leased'⟩, .inl ⟨?_, ?_⟩, fun w caller outside => ?_⟩
  · rw [← index]
    exact (lookup_some found).1.1
  · rcases inv.table with ⟨present, least⟩ | ⟨room, same⟩
    · rw [heap, if_pos present]
      exact least
    · rw [heap, same]
      split
      · omega
      · rw [BitVec.toNat_add]
        exact Nat.mod_le _ _
  · rw [other w caller fun same => outside (own.samePage same.symm)]
    exact inv.other w caller outside

theorem HeapGrown.allocPages {count : Nat} (inv : HeapGrown s₀ h)
    (returned : h.allocPages depth count = .ok h') : HeapGrown s₀ h' := by
  induction count generalizing h with
  | zero =>
    cases returned
    exact inv
  | succ count ih =>
    obtain ⟨h₁, first, rest⟩ := bind_ok_iff.mp returned
    exact ih (inv.allocPage first) rest

end Treeos
