import Treeos.Pmm.BootCode
import Treeos.Vmm.HeapHistory

/-!
# What `liballoc_free` gives back

Which pages a call unmaps before it returns or panics, for any block it is given. The guard
looks at the first page of the block, and the loop starts with the last one.
-/
namespace Treeos

open PageTable PagingState KernelHeap

namespace KernelHeap

variable (h : KernelHeap)

/-- The pages that the loop of `liballoc_free` has unmapped and freed when it ends, by itself
or in a panic. -/
def freedBy (base : BitVec 32) : Nat → KernelHeap → List (BitVec 32)
  | 0, _ => []
  | pages + 1, h =>
    match h.freePage (base + BitVec.ofNat 32 (4096 * pages)) with
    | .ok h => (base + BitVec.ofNat 32 (4096 * pages)) :: freedBy base pages h
    | .error _ => []

/-- The pages that a call of `liballoc_free` has unmapped and freed when it ends. -/
def liballocFreed (block pages : BitVec 32) : List (BitVec 32) :=
  if block = 0 ∨ isPageAligned block = false ∨ pages = 0 ∨ h.kheap.base + h.kheap.size < block
  then [] else freedBy block pages.toNat h

/-- The page at `v` belongs to the heap. -/
def InHeap (v : BitVec 32) : Prop :=
  h.kheap.base.toNat ≤ v.toNat ∧ v.toNat + 4096 ≤ h.kheap.base.toNat + h.kheap.size.toNat

/-- A call gives back pages of the heap only, or it panics before it has given back any. -/
def FreesInside (block pages : BitVec 32) : Prop :=
  (∃ result, h.liballocFree block pages = .ok result ∧ ∀ v ∈ h.liballocFreed block pages, h.InHeap v) ∨
  (∃ e, h.liballocFree block pages = .error e ∧ h.liballocFreed block pages = [])

/-- What every state of the kernel heap has: the last directory entry refers to the directory,
no two entries share a table but for the two of the kernel, and the heap has its place. -/
structure Sound : Prop where
  selfMap : h.paging.SelfMapped
  distinct : ∀ i j, (h.paging.mem h.paging.dir i).present = true →
    (h.paging.mem h.paging.dir j).present = true →
    (h.paging.mem h.paging.dir i).address = (h.paging.mem h.paging.dir j).address → Twin i j
  base : h.kheap.base = kheapStart
  size : h.kheap.size.toNat ≤ kheapMaxSize.toNat

end KernelHeap

/-- The states of a history of the heap are sound. -/
theorem Leased.sound {s₀ : PagingState} {h : KernelHeap} {leases : List Lease}
    (inv : Leased s₀ h leases) : h.Sound :=
  ⟨inv.space.tables.selfMap, inv.space.tables.distinct, inv.base, inv.size.1⟩

/-- Page `k` of a block. -/
def blockPage (block : BitVec 32) (k : Nat) : BitVec 32 := block + BitVec.ofNat 32 (4096 * k)

/-! ### One page -/

variable {h h' : KernelHeap} {v w block pages : BitVec 32} {n : Nat}

/-- `virt_to_phys` panics for a page that is not mapped, before anything has changed. -/
theorem freePage_of_none (selfMap : h.paging.SelfMapped)
    (absent : h.paging.lookup (pageOf v) = none) : ∃ e, h.freePage v = .error e := by
  obtain ⟨format, args, stopped⟩ := virtToPhys_of_none selfMap absent
  exact ⟨_, bind_error_iff.mpr (.inl stopped)⟩

/-- The table entry of a mapped page is cleared, and the bit of its frame. -/
theorem freePage_of_some (selfMap : h.paging.SelfMapped) (aligned : isPageAligned v = true)
    {e : Entry} (found : h.paging.lookup (pageOf v) = some e) :
    ∃ h', h.freePage v = .ok h' ∧ h'.kheap = h.kheap ∧ h'.paging.dir = h.paging.dir ∧
      h'.paging.mem = write h.paging.mem (h.paging.mem h.paging.dir (dirIndex v)).address
        (tableIndex v) 0 := by
  have unmapped := selfMap.pageUnmap_of_lookup aligned found
  refine ⟨_, bind_ok_iff.mpr ⟨_, virtToPhys_of_lookup selfMap found,
    bind_ok_iff.mpr ⟨_, unmapped, bind_ok_iff.mpr ⟨_, rfl, rfl⟩⟩⟩, rfl, rfl, rfl⟩

theorem KernelHeap.Sound.table_ne_dir (sound : h.Sound) (page : CallerPage v)
    (here : (h.paging.mem h.paging.dir (dirIndex v)).present = true) :
    (h.paging.mem h.paging.dir (dirIndex v)).address ≠ h.paging.dir := by
  intro same
  have twin := sound.distinct _ 1023 here sound.selfMap.1 (same.trans sound.selfMap.2.symm)
  exact page.dirIndex_ne 1023 (.inr rfl) (twin_last twin)

/-- Freeing a mapped page leaves the others as they were. -/
theorem freePage_other (sound : h.Sound) (page : CallerPage v) (aligned : isPageAligned v = true)
    {e : Entry} (found : h.paging.lookup (pageOf v) = some e) :
    ∃ h', h.freePage v = .ok h' ∧ h'.Sound ∧ ∀ w, CallerPage w → pageOf w ≠ pageOf v →
      h'.paging.lookup (pageOf w) = h.paging.lookup (pageOf w) := by
  obtain ⟨h', freed, kheap, dir, mem⟩ := freePage_of_some sound.selfMap aligned found
  obtain ⟨uses, -, -⟩ := lookup_some found
  have apart := sound.table_ne_dir page uses.1
  have entry (i : BitVec 10) : h'.paging.mem h'.paging.dir i = h.paging.mem h.paging.dir i := by
    rw [mem, dir]
    exact write_of_frame_ne _ (Ne.symm apart)
  refine ⟨h', freed, ⟨?_, fun i j => ?_, by rw [kheap, sound.base], by rw [kheap]; exact sound.size⟩,
    fun w own other => ?_⟩
  · unfold SelfMapped Uses
    rw [entry, dir]
    exact sound.selfMap
  · rw [entry, entry]
    exact sound.distinct i j
  · unfold PagingState.lookup
    rw [mem, dir]
    refine lookup_write_of_not (Ne.symm apart) fun ⟨shared, index⟩ => other ?_
    -- two pages of callers in one table have one directory entry
    rcases sound.distinct _ _ shared.1 uses.1 shared.2 with same | ⟨low, -⟩ | ⟨kernel, -⟩
    · exact Prod.ext same index
    · exact absurd low (own.dirIndex_ne 0 (by decide))
    · exact absurd kernel (own.dirIndex_ne 768 (by decide))

/-! ### The loop -/

theorem mem_freedBy (freed : v ∈ freedBy block n h) : ∃ k < n, v = blockPage block k := by
  induction n generalizing h with
  | zero => cases freed
  | succ n ih =>
    unfold freedBy at freed
    split at freed
    next h₁ _ =>
      rcases List.mem_cons.mp freed with rfl | later
      · exact ⟨n, Nat.lt_succ_self n, rfl⟩
      · obtain ⟨k, small, same⟩ := ih later
        exact ⟨k, Nat.lt_succ_of_lt small, same⟩
    next => cases freed

/-- A loop that returns has freed the whole block. -/
theorem freedBy_of_returned (returned : freePages block n h = .ok h') {k : Nat} (small : k < n) :
    blockPage block k ∈ freedBy block n h := by
  induction n generalizing h with
  | zero => cases small
  | succ n ih =>
    obtain ⟨h₁, first, rest⟩ := bind_ok_iff.mp returned
    unfold freedBy
    rw [first]
    rcases Nat.lt_succ_iff_lt_or_eq.mp small with later | rfl
    · exact List.mem_cons_of_mem _ (ih rest later)
    · exact List.mem_cons_self

/-- The loop returns exactly when all pages are mapped before it. -/
theorem freePages_returns_iff (sound : h.Sound) (own : ∀ k < n, CallerPage (blockPage block k))
    (aligned : ∀ k < n, isPageAligned (blockPage block k) = true)
    (distinct : ∀ i < n, ∀ j < n, pageOf (blockPage block i) = pageOf (blockPage block j) → i = j) :
    (∃ h', freePages block n h = .ok h') ↔
      ∀ k < n, h.paging.lookup (pageOf (blockPage block k)) ≠ none := by
  induction n generalizing h with
  | zero => exact iff_of_true ⟨h, rfl⟩ nofun
  | succ n ih =>
    have last : n < n + 1 := Nat.lt_succ_self n
    cases found : h.paging.lookup (pageOf (blockPage block n)) with
    | none =>
      obtain ⟨e, stopped⟩ := freePage_of_none sound.selfMap found
      refine iff_of_false ?_ fun all => all n last found
      rintro ⟨h', returned⟩
      obtain ⟨h₁, first, -⟩ := bind_ok_iff.mp returned
      cases stopped.symm.trans first
    | some e =>
      obtain ⟨h₁, first, sound₁, other⟩ := freePage_other sound (own n last) (aligned n last) found
      have rest := ih sound₁ (fun k small => own k (Nat.lt_succ_of_lt small))
        (fun k small => aligned k (Nat.lt_succ_of_lt small)) fun i small j small' =>
          distinct i (Nat.lt_succ_of_lt small) j (Nat.lt_succ_of_lt small')
      -- the last page is freed first, and the pages below are other ones
      have same (k : Nat) (small : k < n) : h₁.paging.lookup (pageOf (blockPage block k)) =
          h.paging.lookup (pageOf (blockPage block k)) := by
        refine other _ (own k (Nat.lt_succ_of_lt small)) fun equal => ?_
        exact Nat.ne_of_lt small (distinct k (Nat.lt_succ_of_lt small) n last equal)
      have unfolded : freePages block (n + 1) h = freePages block n h₁ := by
        show h.freePage (blockPage block n) >>= _ = _
        rw [first]
        rfl
      rw [unfolded, rest]
      constructor
      · intro all k small
        rcases Nat.lt_succ_iff_lt_or_eq.mp small with later | rfl
        · exact same k later ▸ all k later
        · rw [found]
          exact nofun
      · intro all k small
        rw [same k small]
        exact all k (Nat.lt_succ_of_lt small)

/-! ### Blocks inside the heap -/

theorem blockPage_aligned (aligned : isPageAligned block = true) (k : Nat) :
    isPageAligned (blockPage block k) = true := by
  rw [isPageAligned_iff] at aligned ⊢
  unfold blockPage
  rw [BitVec.toNat_add, BitVec.toNat_ofNat]
  omega

/-- A block inside the heap does not wrap around. -/
theorem blockPage_toNat (sound : h.Sound) (inside : ∀ k < n, h.InHeap (blockPage block k)) {k : Nat}
    (small : k < n) : (blockPage block k).toNat = block.toNat + 4096 * k := by
  induction k with
  | zero =>
    unfold blockPage
    rw [Nat.mul_zero, Nat.add_zero, BitVec.add_zero]
  | succ k ih =>
    have before := ih (Nat.lt_of_succ_lt small)
    have high := (inside k (Nat.lt_of_succ_lt small)).2
    have size : h.kheap.size.toNat ≤ 0x100000 := sound.size
    rw [sound.base] at high
    change _ ≤ 0xD0000000 + _ at high
    have next : blockPage block (k + 1) = blockPage block k + 0x1000 := by
      unfold blockPage
      rw [Nat.mul_succ, BitVec.ofNat_add, BitVec.add_assoc]
      rfl
    rw [next, BitVec.toNat_add, before]
    show (block.toNat + 4096 * k + 4096) % 2 ^ 32 = _
    omega

theorem KernelHeap.InHeap.callerPage (sound : h.Sound) (inside : h.InHeap v) : CallerPage v := by
  have size : h.kheap.size.toNat ≤ 0x100000 := sound.size
  obtain ⟨low, high⟩ := inside
  rw [sound.base] at low high
  change 0xD0000000 ≤ _ at low
  change _ ≤ 0xD0000000 + _ at high
  constructor
  · show 0xC4000000 ≤ v.toNat
    omega
  · show v.toNat < 0xFFC00000
    omega

/-- Over a block inside the heap, the loop returns exactly when all its pages are mapped. -/
theorem freePages_inside_iff (sound : h.Sound) (aligned : isPageAligned block = true)
    (inside : ∀ k < n, h.InHeap (blockPage block k)) :
    (∃ h', freePages block n h = .ok h') ↔
      ∀ k < n, h.paging.lookup (pageOf (blockPage block k)) ≠ none := by
  refine freePages_returns_iff sound (fun k small => (inside k small).callerPage sound)
    (fun k _ => blockPage_aligned aligned k) ?_
  · intro i small j small' same
    have place := blockPage_toNat sound inside small
    have place' := blockPage_toNat sound inside small'
    rw [pageOf_eq_iff] at same
    omega

/-- The last page is looked at first: when it is not mapped, nothing is freed. -/
theorem freedBy_last (sound : h.Sound) (aligned : isPageAligned (blockPage block n) = true) :
    h.paging.lookup (pageOf (blockPage block n)) = none ∧ freedBy block (n + 1) h = [] ∧
        (∃ e, freePages block (n + 1) h = .error e) ∨
      h.paging.lookup (pageOf (blockPage block n)) ≠ none ∧
        blockPage block n ∈ freedBy block (n + 1) h := by
  unfold freedBy
  cases found : h.paging.lookup (pageOf (blockPage block n)) with
  | none =>
    obtain ⟨e, stopped⟩ := freePage_of_none sound.selfMap found
    refine .inl ⟨rfl, ?_, e, bind_error_iff.mpr (.inl stopped)⟩
    rw [show h.freePage (block + BitVec.ofNat 32 (4096 * n)) = _ from stopped]
  | some e =>
    obtain ⟨h₁, first, -⟩ := freePage_of_some sound.selfMap aligned found
    refine .inr ⟨nofun, ?_⟩
    rw [show h.freePage (block + BitVec.ofNat 32 (4096 * n)) = _ from first]
    exact List.mem_cons_self

/-! ### The call -/

/-- A call that gets past the checks is its loop. -/
theorem liballocFree_loop (aligned : isPageAligned block = true) (nonzero : block ≠ 0)
    (some : pages ≠ 0) (inside : ¬h.kheap.base + h.kheap.size < block) :
    h.liballocFree block pages = (do
      let h ← freePages block pages.toNat h
      .ok (0, h)) ∧ h.liballocFreed block pages = freedBy block pages.toNat h := by
  constructor
  · unfold liballocFree
    rw [kassert, if_pos (decide_eq_true nonzero), ok_bind, kassert, if_pos aligned, ok_bind,
      if_neg some, panicIf, if_neg (fun guard => inside (of_decide_eq_true guard)), ok_bind]
  · unfold liballocFreed
    rw [if_neg]
    rintro (null | unaligned | none | behind)
    · exact nonzero null
    · rw [aligned] at unaligned
      cases unaligned
    · exact some none
    · exact inside behind

/-- A call that does not get past the checks panics there. -/
theorem liballocFree_guard (some : pages ≠ 0)
    (guard : block = 0 ∨ h.kheap.base + h.kheap.size < block) : h.FreesInside block pages := by
  have nothing : h.liballocFreed block pages = [] :=
    if_pos (guard.imp_right fun behind => .inr (.inr behind))
  suffices stopped : ∃ e, h.liballocFree block pages = .error e from
    .inr (stopped.imp fun e same => ⟨same, nothing⟩)
  cases called : h.liballocFree block pages with
  | error e => exact ⟨e, rfl⟩
  | ok result =>
    unfold liballocFree at called
    obtain ⟨nonzero, called⟩ := kassert_bind_ok_iff.mp called
    obtain ⟨-, called⟩ := kassert_bind_ok_iff.mp called
    rw [if_neg some, panicIf_bind_ok_iff] at called
    rcases guard with null | behind
    · exact absurd null (of_decide_eq_true nonzero)
    · exact absurd behind (of_decide_eq_false called.1)

/-- `liballoc_free` keeps to the heap or panics in time when it does not reach the loop, when
the last page of the block is not mapped, or when the block lies in the heap with all its pages
mapped, and in no other case. -/
theorem liballocFree_inside_iff (h : KernelHeap) (sound : h.Sound) (block pages : BitVec 32)
    (aligned : isPageAligned block = true) (some : pages ≠ 0) :
    h.FreesInside block pages ↔
      block = 0 ∨ h.kheap.base + h.kheap.size < block ∨
      h.paging.lookup (pageOf (blockPage block (pages.toNat - 1))) = none ∨
      ∀ k < pages.toNat, h.InHeap (blockPage block k) ∧
        h.paging.lookup (pageOf (blockPage block k)) ≠ none := by
  by_cases guard : block = 0 ∨ h.kheap.base + h.kheap.size < block
  · exact iff_of_true (liballocFree_guard some guard)
      (guard.imp_right fun behind => .inl behind)
  obtain ⟨nonzero, inHeap⟩ := not_or.mp guard
  obtain ⟨called, freed⟩ := liballocFree_loop aligned nonzero some inHeap
  obtain ⟨n, count⟩ : ∃ n, pages.toNat = n + 1 := by
    refine Nat.exists_eq_succ_of_ne_zero fun zero => some ?_
    exact BitVec.eq_of_toNat_eq zero
  rw [count] at called freed
  rw [count, Nat.add_sub_cancel]
  unfold FreesInside
  rw [called, freed]
  -- a loop that stops has freed the last page of the block before, unless that is unmapped
  have last := freedBy_last sound (n := n) (blockPage_aligned aligned n)
  constructor
  · rintro (⟨result, returned, inside⟩ | ⟨e, stopped, nothing⟩)
    · obtain ⟨h', looped, -⟩ := bind_ok_iff.mp returned
      have inHeap (k : Nat) (small : k < n + 1) : h.InHeap (blockPage block k) :=
        inside _ (freedBy_of_returned looped small)
      have mapped := (freePages_inside_iff sound aligned inHeap).mp ⟨h', looped⟩
      exact .inr (.inr (.inr fun k small => ⟨inHeap k small, mapped k small⟩))
    · rcases last with ⟨none, -⟩ | ⟨-, member⟩
      · exact .inr (.inr (.inl none))
      · rw [nothing] at member
        cases member
  · rintro (null | behind | none | all)
    · exact absurd null nonzero
    · exact absurd behind inHeap
    · rcases last with ⟨-, nothing, e, stopped⟩ | ⟨mapped, -⟩
      · exact .inr ⟨e, bind_error_iff.mpr (.inl stopped), nothing⟩
      · exact absurd none mapped
    · have inHeap (k : Nat) (small : k < n + 1) : h.InHeap (blockPage block k) := (all k small).1
      obtain ⟨h', looped⟩ := (freePages_inside_iff sound aligned inHeap).mpr
        fun k small => (all k small).2
      refine .inl ⟨_, bind_ok_iff.mpr ⟨h', looped, rfl⟩, fun v member => ?_⟩
      obtain ⟨k, small, rfl⟩ := mem_freedBy member
      exact inHeap k small

/-! ### Two blocks of one page -/

/-- With the heap empty, a page of the kernel image is unmapped and freed. -/
theorem kernelPage_freed : ∃ m, initBootstrapPaging 1024 smallBoot (fun _ _ => 0) = .ok m ∧
    (emptyHeap (BootTables.state smallBoot m lowInUse)).heap.Sound ∧
    ¬(emptyHeap (BootTables.state smallBoot m lowInUse)).heap.FreesInside 0xC0100000 1 := by
  obtain ⟨m, returned, boot⟩ := smallBoot_tables
  have start := boot.kernelSpace lowInUse_kernel ((lowInUse_testBit 0).trans (by decide))
  have sound := (leased_empty start fun v inside => boot.unmapped lowInUse inside.callerPage).sound
  refine ⟨m, returned, sound, fun inside => ?_⟩
  have found : (BootTables.state smallBoot m lowInUse).lookup (pageOf 0xC0100000) =
      some (bootEntry (BitVec.ofNat 20 0x100)) :=
    (boot.lookup_iff (by decide)).mpr ⟨0x100, by decide, by decide, by decide, rfl⟩
  have passed : ¬kheapStart + 0 < 0xC0100000 := by decide
  have freed : (emptyHeap (BootTables.state smallBoot m lowInUse)).heap.liballocFreed 0xC0100000 1 =
      freedBy 0xC0100000 1 (emptyHeap (BootTables.state smallBoot m lowInUse)).heap :=
    (liballocFree_loop (by decide) (by decide) (by decide) passed).2
  have member : blockPage 0xC0100000 0 ∈
      (emptyHeap (BootTables.state smallBoot m lowInUse)).heap.liballocFreed 0xC0100000 1 := by
    rw [freed]
    have aligned : isPageAligned (blockPage 0xC0100000 0) = true := by decide
    rcases freedBy_last sound aligned with ⟨none, -⟩ | ⟨-, member⟩
    · exact absurd (found.symm.trans none) nofun
    · exact member
  rcases inside with ⟨result, -, all⟩ | ⟨e, -, nothing⟩
  · have low : 0xD0000000 ≤ (blockPage 0xC0100000 0).toNat := (all _ member).1
    exact absurd low (by decide)
  · rw [nothing] at member
    cases member

/-- The first page of the heap is freed as it should be. -/
theorem firstPage_freed : ∃ h : KernelHeap, h.Sound ∧
    h.paging.lookup (pageOf kheapStart) ≠ none ∧ h.FreesInside kheapStart 1 := by
  obtain ⟨m, returned, boot⟩ := smallBoot_tables
  have start := boot.kernelSpace lowInUse_kernel ((lowInUse_testBit 0).trans (by decide))
  obtain ⟨h, allocated⟩ := smallBoot_alloc boot
  have inv := (emptyHeap_inv start fun v inside => boot.unmapped lowInUse inside.callerPage).alloc
    allocated
  -- the block is the first page, and it is leased
  obtain ⟨l, member, page, -⟩ := inv.block List.mem_cons_self 0 Nat.zero_lt_one
  obtain ⟨e, found, -, -⟩ := inv.leased.mapped l (List.mem_append_left _ member)
  obtain ⟨-, low, high⟩ := inv.inside _ List.mem_cons_self l member
  have first : l.page = kheapStart := page
  rw [first] at found low high
  have mapped : h.paging.lookup (pageOf kheapStart) ≠ none := fun none =>
    absurd (found.symm.trans none) nofun
  have whole : 4096 ≤ h.kheap.size.toNat := by
    have size : h.kheap.size.toNat % 4096 = 0 := inv.leased.size.2
    have some : 0 < h.kheap.size.toNat := Nat.lt_add_right_iff_pos.mp high
    omega
  have inHeap : h.InHeap kheapStart := by
    unfold InHeap
    rw [inv.leased.sound.base]
    exact ⟨Nat.le_refl _, Nat.add_le_add_left whole _⟩
  refine ⟨h, inv.leased.sound, mapped, (liballocFree_inside_iff h inv.leased.sound kheapStart 1
    (by decide) (by decide)).mpr (.inr (.inr (.inr fun k small => ?_)))⟩
  obtain rfl : k = 0 := Nat.lt_one_iff.mp small
  exact ⟨inHeap, mapped⟩

end Treeos
