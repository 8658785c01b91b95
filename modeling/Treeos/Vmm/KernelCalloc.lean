import Treeos.Vmm.KernelObjects

/-!
# The first `kcalloc`

`module_table_init` is the first in the kernel to call liballoc. Its `kcalloc` asks for one block
of pages, and it stops only where `liballoc_alloc` does.
-/
namespace Treeos

open PageTable PagingState KernelHeap Liballoc

/-- `kcalloc`, when nothing has called liballoc before -/
def kernelKcalloc (depth fuel : Nat) (flag : Bool) : Kcalloc := fun h num size => do
  let (p, s) ← (Liballoc.initial h flag).calloc (kernelHooks depth) fuel num size
  .ok (p, s.host)

/-- The pages that it asks for -/
def kcallocPages (num size : BitVec 32) : Nat := (pagesFor (num * size + 32)).toNat

theorem kcallocPages_eq {num size : BitVec 32} (small : num.toNat * size.toNat + 80 < 2 ^ 32) :
    kcallocPages num size = max 16 ((num.toNat * size.toNat + 80 + 4095) / 4096) := by
  have product : (num * size).toNat = num.toNat * size.toNat := by
    rw [BitVec.toNat_mul, Nat.mod_eq_of_lt (by omega)]
  rw [← product] at small ⊢
  have asked : (num * size + 32).toNat = (num * size).toNat + 32 := by
    rw [BitVec.toNat_add]
    exact Nat.mod_eq_of_lt (show (num * size).toNat + 32 < 2 ^ 32 by omega)
  rw [kcallocPages, toNat_pagesFor (request_of_lt small), asked]

theorem kcalloc_some {num size : BitVec 32} (small : num.toNat * size.toNat + 80 < 2 ^ 32) :
    pagesFor (num * size + 32) ≠ 0 := by
  have product : (num * size).toNat = num.toNat * size.toNat := by
    rw [BitVec.toNat_mul, Nat.mod_eq_of_lt (by omega)]
  rw [← product] at small
  exact pagesFor_ne_zero (request_of_lt small)

/-- What the first `kcalloc` has done to the heap `h` of the state `s₀` -/
structure KcallocDone (s₀ : PagingState) (depth pages : Nat) (h h' : KernelHeap) : Prop where
  grown : HeapGrown s₀ h'
  uses : ∃ uses : List HeapUse, (∀ v w, .store v w ∈ uses → HeapAddress v) ∧
    uses.foldlM (HeapUse.run depth) h = .ok h' ∧ (uses.map HeapUse.requested).sum = pages
  frames : h'.paging.bitmap.freeCount + pages + h.tableCount =
    h.paging.bitmap.freeCount + h'.tableCount
  size : h'.kheap.size.toNat = h.kheap.size.toNat + 4096 * pages

variable {s₀ : PagingState} {depth fuel : Nat} {flag : Bool} {num size : BitVec 32}

/-- The block that has been allocated is the only one. -/
theorem GrownWith.kcallocDone {h h' : KernelHeap} {start pages : BitVec 32}
    (grown : GrownWith depth h h' [⟨start, pages⟩]) (heap : HeapGrown s₀ h') :
    KcallocDone s₀ depth pages.toNat h h' := by
  obtain ⟨⟨uses, own, done, requested⟩, frames, size⟩ := grown
  rw [List.map_singleton, List.sum_singleton] at requested frames size
  exact ⟨heap, ⟨uses, own, done, requested⟩, frames, size⟩

theorem kernelKcalloc_ends (start : s₀.KernelSpace) (ready : HeapReady s₀)
    (unmapped : ∀ v, HeapAddress v → s₀.lookup (pageOf v) = none)
    (small : num.toNat * size.toNat + 80 < 2 ^ 32) (enough : 3 ≤ fuel) :
    Ends ((emptyHeap s₀).heap.Refuses (kcallocPages num size))
      (fun result =>
        KcallocDone s₀ (depth + 1) (kcallocPages num size) (emptyHeap s₀).heap result.2)
      (kernelKcalloc (depth + 1) fuel flag (emptyHeap s₀).heap num size) := by
  have some := kcalloc_some small
  have empty := ready.grown_empty start unmapped
  have owns : OwnsBlocks s₀ (emptyHeap s₀).heap [] :=
    ⟨[], [], ⟨emptyHeap_inv start unmapped, nofun, fun _ => empty⟩, .nil⟩
  -- two laws about the same calls: which blocks are owned, and what they have cost
  have law := (kernelHooks_lawful start depth).toGrowing.and
    (kernelHooks_grow start ready (emptyHeap s₀).heap depth)
  have called := @initial_calloc _ _ _ _ _ _ flag law ⟨owns, grownWith_nil (depth + 1) _⟩ _ _ small
    enough
  rw [kcallocPages]
  rcases called with
    ⟨q, s', block, returned, -, ⟨⟨live, freed, state, -⟩, grown⟩⟩ | ⟨e, stopped, refused⟩
  · have done : kernelKcalloc (depth + 1) fuel flag (emptyHeap s₀).heap num size =
        .ok (q, s'.host) := bind_ok_iff.mpr ⟨_, returned, rfl⟩
    rw [done]
    exact grown.kcallocDone (state.grown ready)
  · have ended : kernelKcalloc (depth + 1) fuel flag (emptyHeap s₀).heap num size = .error e :=
      bind_error_iff.mpr (.inl stopped)
    rw [ended]
    rw [kernelHooks_liballocAlloc] at refused
    rcases empty.liballocAlloc_ends depth ready some with ⟨r, given, -⟩ | ⟨e', same, full⟩
    · rw [refused] at given
      cases given
    · rw [refused] at same
      cases same
      exact full

/-- A `kcalloc` that returns has found a slot for the table of the heap. -/
theorem kernelKcalloc_done (start : s₀.KernelSpace)
    (unmapped : ∀ v, HeapAddress v → s₀.lookup (pageOf v) = none)
    (behind : s₀.lookup (pageOf (kheapStart + kheapMaxSize)) = none)
    (small : num.toNat * size.toNat + 80 < 2 ^ 32) (enough : 3 ≤ fuel) {p : BitVec 32}
    {h : KernelHeap}
    (returned : kernelKcalloc (depth + 1) fuel flag (emptyHeap s₀).heap num size = .ok (p, h)) :
    KcallocDone s₀ (depth + 1) (kcallocPages num size) (emptyHeap s₀).heap h := by
  have some := kcalloc_some small
  have owns : OwnsBlocks s₀ (emptyHeap s₀).heap [] :=
    ⟨[], [], ⟨emptyHeap_inv start unmapped, nofun, fun ready => ready.grown_empty start unmapped⟩,
      .nil⟩
  have called := @initial_calloc _ _ _ _ _ _ flag (kernelHooks_lawful start depth).toGrowing owns
    _ _ small enough
  obtain ⟨⟨q, s'⟩, ran, -⟩ := bind_ok_iff.mp returned
  -- the first page that `liballoc_alloc` has mapped had a table, or a slot for one
  have slot : s₀.HasSlot kheapStart := by
    rcases called with ⟨_, _, _, -, ⟨⟨block, h₁⟩, given⟩, -⟩ | ⟨e, stopped, -⟩
    · rw [kernelHooks_liballocAlloc] at given
      have looped := allocPages_of_liballocAlloc some given
      obtain ⟨count, more⟩ : ∃ count, (pagesFor (num * size + 32)).toNat = count + 1 :=
        Nat.exists_eq_succ_of_ne_zero fun zero => some (BitVec.eq_of_toNat_eq zero)
      rw [more] at looped
      obtain ⟨h₂, first, -⟩ := bind_ok_iff.mp looped
      exact (leased_empty start unmapped).allocPage_slot first
    · rw [ran] at stopped
      cases stopped
  have ends := @kernelKcalloc_ends s₀ depth fuel flag num size start ⟨slot, behind⟩ unmapped small
    enough
  rw [returned] at ends
  exact ends

end Treeos
