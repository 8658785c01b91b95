import Treeos.Klibc.LiballocRuns
import Treeos.Vmm.HeapAccounts

/-!
# liballoc in the kernel

The hooks of `vmm/kernel_heap.c` keep what liballoc relies on: the blocks that have been
allocated and not been freed are mapped, each byte of them to one place of its own.
-/
namespace Treeos

open PageTable PagingState KernelHeap ByteMemory

/-- Memory as the kernel sees it, and its heap. -/
def kernelHooks (depth : Nat) : Hooks KernelHeap where
  load8 h v := h.paging.loadByte v
  store8 h v b := do
    let s ← h.paging.storeByte v b
    .ok { h with paging := s }
  liballocAlloc h pages := h.liballocAlloc depth pages
  liballocFree h block pages := h.liballocFree block pages

@[simp] theorem kernelHooks_liballocAlloc (depth : Nat) (h : KernelHeap) (pages : BitVec 32) :
    (kernelHooks depth).liballocAlloc h pages = h.liballocAlloc depth pages := rfl

instance (v : BitVec 32) : Decidable (HeapAddress v) :=
  decidable_of_iff (kheapStart ≤ v ∧ v < kheapStart + kheapMaxSize)
    ⟨fun both => ⟨both.1, both.2⟩, fun inside => ⟨inside.low, inside.high⟩⟩

/-- The bytes of the heap, and zero elsewhere and where no page is mapped. -/
def heapView (h : KernelHeap) : Memory := fun v =>
  if HeapAddress v then
    match h.paging.loadByte v with
    | .ok b => b
    | .error _ => 0
  else 0

def Block.area (b : Block) : PageArea := ⟨b.start, b.pages⟩

/-- The heap after requests for `live`, of which none is empty. -/
structure HeapState (s₀ : PagingState) (h : KernelHeap) (live freed : List Block) : Prop where
  inv : HeapInv s₀ ⟨h, live, freed⟩
  some : ∀ b ∈ live, b.pages ≠ 0
  grown : HeapReady s₀ → HeapGrown s₀ h

/-- The areas are the blocks that have been allocated and not been freed. -/
def OwnsBlocks (s₀ : PagingState) (h : KernelHeap) (areas : List PageArea) : Prop :=
  ∃ live freed, HeapState s₀ h live freed ∧ (live.map Block.area).Perm areas

variable {s₀ : PagingState} {h h' : KernelHeap} {live freed : List Block} {b c : Block}
variable {areas : List PageArea} {a : PageArea} {v w : BitVec 32} {depth : Nat}

theorem OwnsBlocks.block (owns : OwnsBlocks s₀ h areas) (member : a ∈ areas) :
    ∃ live freed b, HeapState s₀ h live freed ∧ (live.map Block.area).Perm areas ∧ b ∈ live ∧
      b.area = a := by
  obtain ⟨live, freed, state, perm⟩ := owns
  obtain ⟨b, here, same⟩ := List.mem_map.mp (perm.mem_iff.mpr member)
  exact ⟨live, freed, b, state, perm, here, same⟩

/-- The pages of a block in the heap. -/
theorem HeapInv.area_sound (inv : HeapInv s₀ ⟨h, live, freed⟩) (member : b ∈ live)
    (some : b.pages ≠ 0) : b.area.Sound ∧ kheapStart.toNat ≤ b.start.toNat ∧
      b.start.toNat + 4096 * b.pages.toNat ≤ kheapStart.toNat + 0x100000 := by
  have listed : b ∈ live ++ freed := List.mem_append_left freed member
  have count : 0 < b.pages.toNat := Nat.pos_of_ne_zero fun zero => some (BitVec.eq_of_toNat_eq zero)
  have size := inv.leased.size.1
  have base : kheapStart.toNat = 0xD0000000 := rfl
  obtain ⟨l, lease, page, value⟩ := inv.block listed 0 count
  obtain ⟨l', lease', -, value'⟩ := inv.block listed (b.pages.toNat - 1) (by omega)
  obtain ⟨aligned, low, -⟩ := inv.inside b listed l lease
  obtain ⟨aligned', -, high⟩ := inv.inside b listed l' lease'
  rw [isPageAligned_iff] at aligned aligned'
  have whole := inv.leased.size.2
  have last : b.start.toNat + 4096 * b.pages.toNat ≤ kheapStart.toNat + 0x100000 := by
    show _ ≤ kheapStart.toNat + 0x100000
    change l'.page.toNat < kheapStart.toNat + h.kheap.size.toNat at high
    change h.kheap.size.toNat ≤ _ at size
    change h.kheap.size.toNat % _ = _ at whole
    omega
  refine ⟨⟨count, ?_, ?_, ?_⟩, by omega, last⟩
  · show b.start.toNat % 4096 = 0
    omega
  · show 0 < b.start.toNat
    omega
  · show b.start.toNat + 4096 * b.pages.toNat < 2 ^ 32
    omega

theorem HeapInv.mem_range (inv : HeapInv s₀ ⟨h, live, freed⟩) (member : b ∈ live)
    (some : b.pages ≠ 0) : v ∈ b.area.range ↔ v.toNat ∈ b.range :=
  (inv.area_sound member some).1.mem_range

/-- An address of a block is one of the heap, in the page of a lease. -/
theorem HeapInv.lease (inv : HeapInv s₀ ⟨h, live, freed⟩) (member : b ∈ live)
    (some : b.pages ≠ 0) (inside : v ∈ b.area.range) :
    HeapAddress v ∧ ∃ l ∈ b.leases, pageOf v = pageOf l.page := by
  have here := (inv.mem_range member some).mp inside
  obtain ⟨l, lease, low, high⟩ := inv.range (List.mem_append_left _ member) here
  obtain ⟨aligned, -, -⟩ := inv.inside b (List.mem_append_left _ member) l lease
  rw [isPageAligned_iff] at aligned
  have page : pageOf v = pageOf l.page := by
    rw [pageOf_eq_iff]
    omega
  have listed := List.mem_flatMap.mpr ⟨b, member, lease⟩
  exact ⟨(inv.leased.heapAddress listed).samePage page.symm, l, lease, page⟩

theorem Leased.view {leases : List Lease} {l : Lease} (inv : Leased s₀ h leases)
    (member : l ∈ leases) (page : pageOf v = pageOf l.page) :
    h.paging.loadByte v = .ok (heapView h v) ∧
      heapView h v = (h.paging.mem l.frame (wordIndex v)).byte (v &&& 3).toNat := by
  have loaded := inv.loadByte member page
  have address := (inv.heapAddress member).samePage page.symm
  have value : heapView h v = (h.paging.mem l.frame (wordIndex v)).byte (v &&& 3).toNat := by
    unfold heapView
    rw [if_pos address, loaded]
  exact ⟨by rw [loaded, value], value⟩

/-- A byte of a block is stored at its place, and there is no other place. -/
theorem Leased.store_view {leases : List Lease} {l : Lease} (start : s₀.KernelSpace)
    (inv : Leased s₀ h leases) (member : l ∈ leases) (page : pageOf v = pageOf l.page)
    (b : BitVec 8) : ∃ s', h.paging.storeByte v b = .ok s' ∧
      Leased s₀ { h with paging := s' } leases ∧ SameOutside h.paging s' ∧
      heapView { h with paging := s' } = store8 (heapView h) v b := by
  have stored := inv.storeByte (b := b) member page
  obtain ⟨kept, lookups⟩ := inv.store start member (wordIndex v)
    ((h.paging.mem l.frame (wordIndex v)).setByte (v &&& 3).toNat b)
  refine ⟨_, stored, kept, inv.store_outside start member _ _, ?_⟩
  have place (x : BitVec 32) : (x &&& 3).toNat < 4 := by
    rw [toNat_and_3]
    omega
  funext x
  by_cases address : HeapAddress x
  · by_cases mapped : ∃ l' ∈ leases, pageOf x = pageOf l'.page
    · obtain ⟨l', member', page'⟩ := mapped
      rw [(kept.view member' page').2]
      show ((write h.paging.mem l.frame (wordIndex v) _) l'.frame (wordIndex x)).byte _ = _
      unfold ByteMemory.store8
      by_cases same : l'.frame = l.frame ∧ wordIndex x = wordIndex v
      · obtain ⟨frame, word⟩ := same
        have equal := List.inj_on_of_nodup_map inv.frames member' member frame
        rw [frame, word, write_self, Entry.byte_setByte _ _ (place x) (place v)]
        by_cases byte : (x &&& 3).toNat = (v &&& 3).toNat
        · have address : x = v := address_eq (by rw [page', page, equal]) word byte
          rw [if_pos byte, if_pos address]
        · rw [if_neg byte, if_neg (fun same => byte (by rw [same])),
            (inv.view member' page').2, frame, word]
      · have other : x ≠ v := by
          rintro rfl
          rw [page] at page'
          have equal := List.inj_on_of_nodup_map inv.pages member' member
            (pageOf_inj (inv.inside l' member').1 (inv.inside l member).1 page'.symm)
          exact same ⟨by rw [equal], rfl⟩
        have kept' : write h.paging.mem l.frame (wordIndex v)
            ((h.paging.mem l.frame (wordIndex v)).setByte (v &&& 3).toNat b) l'.frame
              (wordIndex x) = h.paging.mem l'.frame (wordIndex x) := if_neg same
        rw [kept', if_neg other, (inv.view member' page').2]
    · -- no page is mapped there
      have none : ∀ l ∈ leases, pageOf x ≠ pageOf l.page := fun l member page =>
        mapped ⟨l, member, page⟩
      have other : x ≠ v := by
        rintro rfl
        exact none l member page
      rw [store8_of_ne other]
      unfold heapView
      rw [if_pos address, if_pos address, loadByte_of_none (kept.unmapped x address none),
        loadByte_of_none (inv.unmapped x address none)]
  · have other : x ≠ v := by
      rintro rfl
      exact address ((inv.heapAddress member).samePage page.symm)
    rw [store8_of_ne other]
    unfold heapView
    rw [if_neg address, if_neg address]

/-- The block that a call of `liballoc_free` has ended is not mapped. -/
theorem HeapInv.freed_fault (inv : HeapInv s₀ ⟨h, live, freed⟩) (member : b ∈ freed)
    (inside : v.toNat ∈ b.range) : h.paging.loadByte v = .error (.pageFault v) := by
  have listed := List.mem_append_right live member
  obtain ⟨l, lease, low, high⟩ := inv.range listed inside
  obtain ⟨aligned, -, -⟩ := inv.inside b listed l lease
  rw [isPageAligned_iff] at aligned
  have page : pageOf v = pageOf l.page := by
    rw [pageOf_eq_iff]
    omega
  have gone := (inv.freed_page member lease).1
  rw [← page] at gone
  exact loadByte_of_none gone

/-- The hooks keep what liballoc relies on. -/
theorem kernelHooks_lawful (start : s₀.KernelSpace) (depth : Nat) :
    (kernelHooks (depth + 1)).Lawful (OwnsBlocks s₀) heapView where
  sound := by
    intro h areas owns a member
    obtain ⟨live, freed, b, state, -, here, rfl⟩ := owns.block member
    exact (state.inv.area_sound here (state.some b here)).1
  apart := by
    intro h areas owns
    obtain ⟨live, freed, ⟨inv, some, -⟩, perm⟩ := owns
    have disjoint : (live.map Block.area).Pairwise fun a b => ∀ x ∈ a.range, x ∉ b.range := by
      rw [List.pairwise_map]
      refine inv.disjoint.imp_of_mem fun {b c} first second apart x here there => ?_
      exact apart _ ((inv.mem_range first (some b first)).mp here)
        ((inv.mem_range second (some c second)).mp there)
    exact (perm.pairwise_iff fun {a b} apart x there here => apart x here there).mp disjoint
  perm := by
    intro h areas areas' owns same
    obtain ⟨live, freed, state, perm⟩ := owns
    exact ⟨live, freed, state, perm.trans same⟩
  load := by
    intro h areas a v owns member inside
    obtain ⟨live, freed, b, ⟨inv, some, -⟩, -, here, rfl⟩ := owns.block member
    obtain ⟨-, l, lease, page⟩ := inv.lease here (some b here) inside
    exact (inv.leased.view (List.mem_flatMap.mpr ⟨b, here, lease⟩) page).1
  store := by
    intro h areas a v owns member inside byte
    obtain ⟨live, freed, b, ⟨inv, some, grown⟩, perm, here, rfl⟩ := owns.block member
    obtain ⟨-, l, lease, page⟩ := inv.lease here (some b here) inside
    obtain ⟨s', stored, kept, same, value⟩ := inv.leased.store_view start
      (List.mem_flatMap.mpr ⟨b, here, lease⟩) page byte
    refine ⟨{ h with paging := s' }, bind_ok_iff.mpr ⟨s', stored, rfl⟩, ?_, value⟩
    exact ⟨live, freed, ⟨⟨kept, inv.shape, inv.once, inv.inside, inv.returned⟩, some,
      fun ready => (grown ready).keep kept same⟩, perm⟩
  alloc := by
    intro h areas pages block h' owns nonzero returned
    obtain ⟨live, freed, ⟨inv, some, grown⟩, perm⟩ := owns
    have inv' := inv.alloc returned
    refine ⟨⟨_, freed, ⟨inv', ?_, ?_⟩, perm.cons _⟩, ?_⟩
    · intro b member
      rcases List.mem_cons.mp member with rfl | member
      · exact nonzero
      · exact some b member
    · intro ready
      rw [kernelHooks_liballocAlloc] at returned
      exact (grown ready).allocPages (allocPages_of_liballocAlloc nonzero returned)
    · intro a member v inside
      obtain ⟨b, here, rfl⟩ := List.mem_map.mp (perm.mem_iff.mpr member)
      obtain ⟨-, l, lease, page⟩ := inv.lease here (some b here) inside
      have listed : l ∈ live.flatMap Block.leases := List.mem_flatMap.mpr ⟨b, here, lease⟩
      rw [(inv'.leased.view (List.mem_append_right _ listed) page).2,
        inv.leased.allocPages_mem start (allocPages_of_liballocAlloc nonzero returned) listed,
        (inv.leased.view listed page).2]
  free := by
    intro h a areas owns
    obtain ⟨live, freed, b, ⟨inv, some, grown⟩, perm, here, rfl⟩ :=
      owns.block List.mem_cons_self
    obtain ⟨r, h', returned⟩ := inv.free_returns here (some b here)
    have inv' := inv.free start here returned
    have order : live.Perm (b :: live.erase b) := List.perm_cons_erase here
    have rest : ((live.erase b).map Block.area).Perm areas := by
      have split := (order.map Block.area).symm.trans perm
      rw [List.map_cons] at split
      exact split.cons_inv
    refine ⟨r, h', returned, ⟨live.erase b, b :: freed, ⟨inv', ?_, ?_⟩, rest⟩, ?_, ?_⟩
    · intro c member
      exact some c (List.mem_of_mem_erase member)
    · intro ready
      exact (grown ready).free start inv here returned
    · intro a member v inside
      obtain ⟨c, there, rfl⟩ := List.mem_map.mp (rest.mem_iff.mpr member)
      have live' := List.mem_of_mem_erase there
      obtain ⟨-, l, lease, page⟩ := inv.lease live' (some c live') inside
      have listed : l ∈ (live.erase b).flatMap Block.leases :=
        List.mem_flatMap.mpr ⟨c, there, lease⟩
      have before : l ∈ live.flatMap Block.leases := List.mem_flatMap.mpr ⟨c, live', lease⟩
      rw [(inv'.leased.view listed page).2, inv.free_mem start here returned listed,
        (inv.leased.view before page).2]
    · intro v inside
      exact inv'.freed_fault List.mem_cons_self ((inv.mem_range here (some b here)).mp inside)

/-! ### As long as nothing is freed -/

/-- How the host `h₀` became `h` when it allocated the areas: `kmalloc` and `kcalloc` have made
uses of the heap. -/
structure GrownWith (depth : Nat) (h₀ h : KernelHeap) (areas : List PageArea) : Prop where
  uses : ∃ uses : List HeapUse, (∀ v w, .store v w ∈ uses → HeapAddress v) ∧
    uses.foldlM (HeapUse.run depth) h₀ = .ok h ∧
    (uses.map HeapUse.requested).sum = (areas.map fun a => a.pages.toNat).sum
  frames : h.paging.bitmap.freeCount + (areas.map fun a => a.pages.toNat).sum + h₀.tableCount =
    h₀.paging.bitmap.freeCount + h.tableCount
  size : h.kheap.size.toNat =
    h₀.kheap.size.toNat + 4096 * (areas.map fun a => a.pages.toNat).sum

theorem grownWith_nil (depth : Nat) (h : KernelHeap) : GrownWith depth h h [] :=
  ⟨⟨[], nofun, rfl, rfl⟩, rfl, rfl⟩

theorem GrownWith.snoc {h₀ : KernelHeap} (grown : GrownWith depth h₀ h areas) {use : HeapUse}
    (own : ∀ v w, use = .store v w → HeapAddress v) (ran : use.run depth h = .ok h') :
    ∃ uses : List HeapUse, (∀ v w, .store v w ∈ uses → HeapAddress v) ∧
      uses.foldlM (HeapUse.run depth) h₀ = .ok h' ∧
      (uses.map HeapUse.requested).sum =
        (areas.map fun a => a.pages.toNat).sum + use.requested := by
  obtain ⟨uses, stores, done, sum⟩ := grown.uses
  refine ⟨uses ++ [use], fun v w member => ?_, ?_, ?_⟩
  · rcases List.mem_append.mp member with before | last
    · exact stores v w before
    · exact own v w (List.mem_singleton.mp last).symm
  · rw [List.foldlM_append, done, ok_bind, List.foldlM_cons, ran]
    rfl
  · rw [List.map_append, List.sum_append, sum]
    rfl

theorem kernelHooks_grow (start : s₀.KernelSpace) (ready : HeapReady s₀) (h₀ : KernelHeap)
    (depth : Nat) :
    (kernelHooks (depth + 1)).GrowingKeeps (OwnsBlocks s₀) (GrownWith (depth + 1) h₀) where
  perm grown same := by
    have sum := (same.map fun a : PageArea => a.pages.toNat).sum_eq
    exact ⟨sum ▸ grown.uses, sum ▸ grown.frames, sum ▸ grown.size⟩
  store := by
    intro h h' areas a v b owns grown member inside stored
    obtain ⟨live, freed, blk, ⟨inv, some, -⟩, -, here, rfl⟩ := owns.block member
    obtain ⟨address, -⟩ := inv.lease here (some blk here) inside
    obtain ⟨s', byte, done⟩ := bind_ok_iff.mp stored
    cases done
    obtain ⟨e, -, word⟩ := bind_ok_iff.mp byte
    have ran : HeapUse.run (depth + 1) h (.store v (e.setByte (v &&& 3).toNat b)) =
        .ok { h with paging := s' } := bind_ok_iff.mpr ⟨s', word, rfl⟩
    obtain ⟨-, -, dir, entry⟩ := inv.leased.storeWord start address word
    refine ⟨grown.snoc (fun w _ same => ?_) ran, ?_, grown.size⟩
    · cases same
      exact address
    · have table : KernelHeap.tableCount { h with paging := s' } = h.tableCount := by
        unfold KernelHeap.tableCount
        dsimp only
        rw [entry]
      rw [table]
      show s'.bitmap.freeCount + _ + _ = _
      rw [storeWord_bitmap word]
      exact grown.frames
  alloc := by
    intro h h' areas pages block owns grown nonzero returned
    obtain ⟨live, freed, state, -⟩ := owns
    rw [kernelHooks_liballocAlloc] at returned
    have ran : HeapUse.run (depth + 1) h (.request pages) = .ok h' :=
      bind_ok_iff.mpr ⟨_, returned, rfl⟩
    have frames := (state.grown ready).allocPages_frames ready
      (allocPages_of_liballocAlloc nonzero returned)
    have before := grown.frames
    have sum : ((⟨block, pages⟩ :: areas).map fun a : PageArea => a.pages.toNat).sum =
        (areas.map fun a => a.pages.toNat).sum + pages.toNat := Nat.add_comm _ _
    have larger : h'.kheap.size.toNat = h.kheap.size.toNat + 4096 * pages.toNat :=
      state.inv.leased.liballocAlloc_size returned
    have size := grown.size
    refine ⟨?_, ?_, ?_⟩
    · rw [sum]
      refine grown.snoc (fun v w same => ?_) ran
      cases same
    · rw [sum]
      omega
    · rw [sum]
      omega

end Treeos
