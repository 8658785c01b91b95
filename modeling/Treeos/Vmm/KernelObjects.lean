import Mathlib.Algebra.Order.BigOperators.Group.List
import Mathlib.Order.Interval.Finset.Nat
import Treeos.Vmm.HeapAccounts
import Treeos.Vmm.KernelMalloc

/-!
# The objects of the kernel

What callers of `kmalloc`, `kcalloc`, `kfree` and `krealloc` can rely on after any sequence of
calls, from the tables of `boot.S` on.
-/
namespace Treeos

open PageTable PagingState KernelHeap ByteMemory Liballoc
open ObjectStore (Object Call Allowed after)

/-- Calls of liballoc in a kernel that has booted, with the objects of its callers. -/
structure KernelRun (s₀ : PagingState) (depth fuel : Nat) (flag : Bool)
    (history : List (Call × BitVec 32)) (t : Liballoc KernelHeap × List Object) : Prop where
  booted : Booted s₀
  calls : Run.From (CallerStep (kernelHooks (depth + 1)) fuel)
    (.initial (emptyHeap s₀).heap flag, []) history t
  enough : 3 * history.length + 3 ≤ fuel

variable {s₀ : PagingState} {h : KernelHeap} {depth fuel : Nat} {flag : Bool}
variable {history : List (Call × BitVec 32)} {t : Liballoc KernelHeap × List Object}
variable {majors : List Major} {objects : List Object} {s s' : Liballoc KernelHeap}

theorem Booted.owns (booted : Booted s₀) : OwnsBlocks s₀ (emptyHeap s₀).heap [] := by
  have start := booted.kernelSpace
  refine ⟨[], [], ⟨emptyHeap_inv start fun v => booted.unmapped, nofun, ?_⟩, .nil⟩
  intro ready
  exact ready.grown_empty start fun v => booted.unmapped

theorem KernelRun.law (run : KernelRun s₀ depth fuel flag history t) :
    (kernelHooks (depth + 1)).Lawful (OwnsBlocks s₀) heapView :=
  kernelHooks_lawful run.booted.kernelSpace depth

theorem KernelRun.inv (run : KernelRun s₀ depth fuel flag history t) :
    ∃ majors, RunInv (OwnsBlocks s₀) heapView flag history.length t.1 majors t.2 :=
  run_inv run.law run.booted.owns run.calls run.enough

/-- A byte of a block is one of the heap. -/
theorem OwnsBlocks.heapAddress {areas : List PageArea} {a : PageArea} {v : BitVec 32}
    (owns : OwnsBlocks s₀ h areas) (member : a ∈ areas) (inside : v ∈ a.range) :
    HeapAddress v := by
  obtain ⟨live, freed, b, state, -, here, rfl⟩ := owns.block member
  exact (state.inv.lease here (state.some b here) inside).1

/-- A call that stops has asked for pages that the heap does not have. -/
theorem RunInv.stops {n : Nat} (inv : RunInv (OwnsBlocks s₀) heapView flag n s majors objects)
    (depth : Nat) (start : s₀.KernelSpace) (ready : HeapReady s₀) (enough : 3 * n + 3 ≤ fuel)
    {call : Call} (allowed : Allowed objects call) (small : SmallCall call) :
    (∃ q s', s.call (kernelHooks (depth + 1)) fuel call = .ok (q, s') ∧
      s'.interruptFlag = flag) ∨
    ∃ e, s.call (kernelHooks (depth + 1)) fuel call = .error e ∧
      s.host.Refuses (pagesFor (BitVec.ofNat 32 call.size + 32)).toNat e := by
  have ends := call_backs (kernelHooks_lawful start depth) inv.backs allowed small
    (inv.enough enough)
  have request := small.request
  generalize s.call (kernelHooks (depth + 1)) fuel call = result at *
  cases ends with
  | returns backs count same => exact .inl ⟨_, _, rfl, same.trans inv.flag⟩
  | @stops e full stopped =>
    obtain ⟨live, freed, state, -⟩ := inv.backs.layout.owns
    have ends := (state.grown ready).liballocAlloc_ends depth ready (pagesFor_ne_zero request)
    rw [kernelHooks_liballocAlloc] at stopped
    rw [stopped] at ends
    rcases ends with ⟨r, returned, -⟩ | ⟨e', same, refused⟩
    · cases returned
    · cases same
      exact .inr ⟨e, rfl, refused⟩

/-! ### A small kernel -/

theorem smallBoot_booted : ∃ s₀, Booted s₀ ∧ HeapReady s₀ ∧ 40 ≤ s₀.bitmap.freeCount := by
  obtain ⟨m, returned, boot⟩ := smallBoot_tables
  have clean : ∀ i : BitVec 10, (0 : Entry) = 0 ∧ (0 : Entry) = 0 := fun _ => ⟨rfl, rfl⟩
  refine ⟨BootTables.state smallBoot m lowInUse, .run (Nat.le_refl 1024) clean returned
    lowInUse_kernel lowInUse_zero .nil nofun, ⟨.inr ?_, ?_⟩, ?_⟩
  · show pagingAllocatorInit smallImage < 0xC0400000
    decide
  · exact boot.unmapped lowInUse ⟨by decide, by decide⟩
  · -- the frames from 1024 on are free
    refine Bitmap.le_freeCount 1024 40 fun bit above below => ⟨?_, ?_⟩
    · show bit < 2048
      omega
    · show lowInUse.testBit bit = false
      rw [lowInUse_testBit, decide_eq_false_iff_not]
      omega

theorem KernelHeap.tableCount_le (h : KernelHeap) : h.tableCount ≤ 1 := by
  unfold KernelHeap.tableCount
  split <;> decide

/-- The first object of the kernel is in a block of 16 pages. -/
theorem smallBoot_kmalloc : ∃ s₀ q t, HeapReady s₀ ∧ KernelRun s₀ 0 9 true [(.malloc 100, q)] t ∧
    t.2 = [⟨q, List.replicate 100 none⟩] ∧ t.1.host.Meets 16 := by
  obtain ⟨s₀, booted, ready, frames⟩ := smallBoot_booted
  have start := booted.kernelSpace
  have small : SmallCall (.malloc 100) := by
    unfold SmallCall
    decide
  have allowed : Allowed [] (.malloc 100) := trivial
  have pages : (pagesFor (100 + 32)).toNat = 16 := by decide
  have table := (emptyHeap s₀).heap.tableCount_le
  have law := (kernelHooks_lawful start 0).toGrowing.and
    (kernelHooks_grow start ready (emptyHeap s₀).heap 0)
  rcases initial_malloc law ⟨booted.owns, grownWith_nil 1 _⟩ small (by decide : 3 ≤ 9) with
    ⟨q, s', block, returned, -, ⟨owns, -, left, size⟩, -⟩ | ⟨e, -, refused⟩
  · refine ⟨s₀, q, _, ready, ⟨booted, .single (.call allowed small returned), ?_⟩, rfl, ?_⟩
    · show 3 * 1 + 3 ≤ 9
      decide
    · rw [List.map_singleton, List.sum_singleton, pages] at left size
      change _ = s₀.bitmap.freeCount + _ at left
      change _ = 0 + 4096 * 16 at size
      have more := KernelHeap.tableCount_le s'.host
      have meets : s'.host.Meets 16 := ⟨by omega, by omega⟩
      exact meets
  · have grown := ready.grown_empty start fun v => booted.unmapped
    rcases grown.liballocAlloc_ends 0 ready (by decide : pagesFor (100 + 32) ≠ 0) with
      ⟨r, returned, -⟩ | ⟨e, -, full⟩
    · cases refused.symm.trans returned
    · refine absurd ⟨?_, ?_⟩ full.not_meets
      · show (pagesFor (100 + 32)).toNat + (emptyHeap s₀).heap.tableCount ≤ s₀.bitmap.freeCount
        omega
      · show 0 + 4096 * (pagesFor (100 + 32)).toNat ≤ 0x100000
        decide

/-- It is freed again. -/
theorem smallBoot_kfree : ∃ s₀ q t,
    KernelRun s₀ 0 9 true [(.malloc 100, q), (.free q, 0)] t ∧ t.2 = [] := by
  obtain ⟨s₀, q, t, -, run, same, -⟩ := smallBoot_kmalloc
  obtain ⟨majors, backs, -, -⟩ := run.inv
  have member : (⟨q, List.replicate 100 none⟩ : Object) ∈ t.2 := by
    rw [same]
    exact List.mem_cons_self
  obtain ⟨s', majors', freed, -⟩ := free_backs run.law backs member
  have returned : t.1.call (kernelHooks 1) 9 (.free q) = .ok (0, s') :=
    bind_ok_iff.mpr ⟨s', freed, rfl⟩
  have small : SmallCall (.free q) := (by decide : 0 + 80 < 2 ^ 32)
  have allowed : Allowed t.2 (.free q) := .inr ⟨_, member, rfl⟩
  refine ⟨s₀, q, _, ⟨run.booted, run.calls.snoc _ (.call allowed small returned), ?_⟩, ?_⟩
  · show 3 * 2 + 3 ≤ 9
    decide
  show ObjectStore.without t.2 q = []
  rw [same]
  simp [ObjectStore.without]

/-! ### Objects -/

/-- After every sequence of calls the objects are those of the history, apart from each other and
inside of the heap, and memory holds what has been written to them. -/
theorem kernel_objects (run : KernelRun s₀ depth fuel flag history t) :
    t.2 = objectsOf history ∧ ObjectStore.Sound 16 t.2 ∧
      ∀ o ∈ t.2, ∀ i < o.bytes.length, HeapAddress (o.ptr + BitVec.ofNat 32 i) ∧
        ∃ b, t.1.host.paging.loadByte (o.ptr + BitVec.ofNat 32 i) = .ok b ∧
          ∀ b', o.bytes[i]? = some (some b') → b = b' := by
  have law := run.law
  obtain ⟨majors, backs, -, -⟩ := run.inv
  refine ⟨run_objects run.calls, backs.sound law.toGrowing, fun o member i bound => ?_⟩
  obtain ⟨M, there, -, -, -, payload⟩ := backs.payload member bound
  have inside := (backs.layout.sound M there).payload_subset payload
  have listed : M.area ∈ majors.map Major.area := List.mem_map.mpr ⟨M, there, rfl⟩
  refine ⟨backs.layout.owns.heapAddress listed inside, _, law.load backs.layout.owns listed inside,
    fun b' known => ?_⟩
  exact backs.holds o member i b' known

theorem smallBoot_objects : ∃ s₀ q t, KernelRun s₀ 0 9 true [(.malloc 100, q)] t ∧
    t.2 = [⟨q, List.replicate 100 none⟩] ∧ ObjectStore.Sound 16 t.2 := by
  obtain ⟨s₀, q, t, -, run, same, -⟩ := smallBoot_kmalloc
  exact ⟨s₀, q, t, run, same, (kernel_objects run).2.1⟩

/-- The next call returns and leaves the interrupt flag as it was, or there are not enough frames
for a new block, or no room for it in the heap. -/
theorem kernel_progress (run : KernelRun s₀ depth fuel flag history t) (ready : HeapReady s₀)
    {call : Call} (allowed : Allowed t.2 call) (small : SmallCall call) :
    (∃ q s', t.1.call (kernelHooks (depth + 1)) fuel call = .ok (q, s') ∧
      s'.interruptFlag = flag) ∨
    ∃ e, t.1.call (kernelHooks (depth + 1)) fuel call = .error e ∧
      t.1.host.Refuses (pagesFor (BitVec.ofNat 32 call.size + 32)).toNat e := by
  obtain ⟨majors, inv⟩ := run.inv
  exact inv.stops depth run.booted.kernelSpace ready run.enough allowed small

theorem smallBoot_progress : ∃ s₀ q t, KernelRun s₀ 0 9 true [(.malloc 100, q)] t ∧
    ∃ p s', t.1.call (kernelHooks 1) 9 (.realloc q 2000) = .ok (p, s') ∧
      s'.interruptFlag = true := by
  obtain ⟨s₀, q, t, ready, run, same, meets⟩ := smallBoot_kmalloc
  have member : (⟨q, List.replicate 100 none⟩ : Object) ∈ t.2 := by
    rw [same]
    exact List.mem_cons_self
  have allowed : Allowed t.2 (.realloc q 2000) := .inr ⟨_, member, rfl⟩
  have small : SmallCall (.realloc q 2000) := (by decide : 2000 + 80 < 2 ^ 32)
  rcases kernel_progress run ready allowed small with returns | ⟨e, -, refused⟩
  · exact ⟨s₀, q, t, run, returns⟩
  · have pages : (pagesFor (2000 + 32)).toNat = 16 := by decide
    exact absurd (pages ▸ meets) refused.not_meets

/-- A request for pages returns exactly when there are frames for them and for the table of the
heap, and the heap stays below its maximal size; otherwise the kernel says which of both it is. -/
theorem kernel_request_iff (run : KernelRun s₀ depth fuel flag history t) (ready : HeapReady s₀)
    (pages : BitVec 32) :
    ((∃ r, t.1.host.liballocAlloc (depth + 1) pages = .ok r) ↔ pages = 0 ∨
        pages.toNat + t.1.host.tableCount ≤ t.1.host.paging.bitmap.freeCount ∧
          t.1.host.kheap.size.toNat + 4096 * pages.toNat ≤ 0x100000) ∧
      ∀ e, t.1.host.liballocAlloc (depth + 1) pages = .error e →
        t.1.host.Refuses pages.toNat e := by
  by_cases none : pages = 0
  · have returned : t.1.host.liballocAlloc (depth + 1) pages = .ok (_, t.1.host) := if_pos none
    rw [returned]
    exact ⟨iff_of_true ⟨_, rfl⟩ (.inl none), nofun⟩
  obtain ⟨majors, inv⟩ := run.inv
  obtain ⟨live, freed, state, -⟩ := inv.backs.layout.owns
  rcases (state.grown ready).liballocAlloc_ends depth ready none with
    ⟨r, returned, meets⟩ | ⟨e, stopped, refused⟩
  · rw [returned]
    exact ⟨iff_of_true ⟨r, rfl⟩ (.inr meets), nofun⟩
  · rw [stopped]
    constructor
    · refine iff_of_false ?_ (not_or.mpr ⟨none, refused.not_meets⟩)
      rintro ⟨r, returned⟩
      cases returned
    · intro e' same
      cases same
      exact refused

/-- There are 16 more pages, but not 300. -/
theorem smallBoot_request : ∃ s₀ q t, KernelRun s₀ 0 9 true [(.malloc 100, q)] t ∧
    (∃ r, t.1.host.liballocAlloc 1 16 = .ok r) ∧ ¬∃ r, t.1.host.liballocAlloc 1 300 = .ok r := by
  obtain ⟨s₀, q, t, ready, run, -, meets⟩ := smallBoot_kmalloc
  refine ⟨s₀, q, t, run, (kernel_request_iff run ready 16).1.mpr (.inr meets), fun returns => ?_⟩
  rcases (kernel_request_iff run ready 300).1.mp returns with none | ⟨-, room⟩
  · exact absurd none (by decide)
  · change _ + 4096 * 300 ≤ _ at room
    omega

/-! ### Structures and counters -/

/-- The structures of liballoc describe the blocks, in which the headers of the objects lie in
order, and no block is without objects. -/
theorem kernel_layout (run : KernelRun s₀ depth fuel flag history t) :
    ∃ majors, Layout (OwnsBlocks s₀) heapView t.1 majors ∧ (∀ M ∈ majors, M.minors ≠ []) ∧
      (t.2.map shapeOf).Perm ((minorsOf majors).map Minor.shape) := by
  obtain ⟨majors, backs, -, -⟩ := run.inv
  exact ⟨majors, backs.layout, backs.used, backs.shapes⟩

theorem smallBoot_layout : ∃ s₀ q t, KernelRun s₀ 0 9 true [(.malloc 100, q)] t ∧
    ∃ majors, Layout (OwnsBlocks s₀) heapView t.1 majors ∧ (∀ M ∈ majors, M.minors ≠ []) ∧
      (t.2.map shapeOf).Perm ((minorsOf majors).map Minor.shape) := by
  obtain ⟨s₀, q, t, -, run, -⟩ := smallBoot_kmalloc
  exact ⟨s₀, q, t, run, kernel_layout run⟩

/-- The pages of the blocks are those of the heap that are mapped. -/
theorem OwnsBlocks.pages {areas : List PageArea} (owns : OwnsBlocks s₀ h areas) :
    (heapPages h.paging).ncard = (areas.map fun a => a.pages.toNat).sum ∧
      (heapPages h.paging).ncard ≤ 256 := by
  obtain ⟨live, freed, state, perm⟩ := owns
  have count := state.inv.ncard_heapPages
  have leased := state.inv.leased
  dsimp only at count leased
  constructor
  · rw [count, ← (perm.map fun a : PageArea => a.pages.toNat).sum_eq, List.map_map]
    rfl
  · rw [leased.ncard_heapPages]
    exact leased.length_le

theorem sum_pages (majors : List Major) :
    (majors.map fun M => 4096 * M.pages.toNat).sum =
      4096 * ((majors.map Major.area).map fun a => a.pages.toNat).sum := by
  induction majors with
  | nil => rfl
  | cons M majors ih =>
    simp only [List.map_cons, List.sum_cons, ih, Major.area]
    omega

/-- What the minors of a block take. -/
theorem Major.Sound.sizes_le {M : Major} (sound : M.Sound) :
    (M.minors.map fun c => c.size.toNat).sum ≤ 4096 * M.pages.toNat := by
  refine Nat.le_trans ?_ sound.usage_le
  unfold Major.usage
  have each (cs : List Minor) : (cs.map fun c => c.size.toNat).sum ≤
      (cs.map fun c => c.stop - c.start).sum := by
    refine List.sum_le_sum fun c _ => ?_
    unfold Minor.stop Minor.start
    omega
  exact Nat.le_trans (each M.minors) (Nat.le_add_left _ _)

theorem sum_minorsOf (f : Minor → Nat) (majors : List Major) :
    ((minorsOf majors).map f).sum = (majors.map fun M => (M.minors.map f).sum).sum := by
  induction majors with
  | nil => rfl
  | cons M majors ih =>
    unfold minorsOf at *
    rw [List.flatMap_cons, List.map_append, List.sum_append, ih, List.map_cons, List.sum_cons]

/-- `l_allocated` counts the pages of the heap that are mapped, and `l_inuse` what the objects
take of them. -/
theorem kernel_accounts (run : KernelRun s₀ depth fuel flag history t) :
    t.1.allocated.toNat = 4096 * (heapPages t.1.host.paging).ncard ∧
      (heapPages t.1.host.paging).ncard ≤ 256 ∧
      (t.2.map fun o => o.bytes.length + 32).sum ≤ t.1.inuse.toNat ∧
      t.1.inuse.toNat ≤ t.1.allocated.toNat := by
  obtain ⟨majors, backs, -, -⟩ := run.inv
  have sound := backs.layout.sound
  obtain ⟨pages, few⟩ := backs.layout.owns.pages
  have total := sum_pages majors
  rw [← pages] at total
  have taken : (majors.map fun M => (M.minors.map fun c => c.size.toNat).sum).sum ≤
      (majors.map fun M => 4096 * M.pages.toNat).sum :=
    List.sum_le_sum fun M member => (sound M member).sizes_le
  have asked : (t.2.map fun o => o.bytes.length + 32).sum ≤
      (majors.map fun M => (M.minors.map fun c => c.size.toNat).sum).sum := by
    have same := (backs.shapes.map fun r => r.2 + 32).sum_eq
    rw [List.map_map, List.map_map] at same
    refine (Nat.le_of_eq same).trans ?_
    rw [← sum_minorsOf]
    refine List.sum_le_sum fun c member => ?_
    obtain ⟨M, there, here⟩ := mem_minorsOf.mp member
    exact (sound M there).room c here
  rw [backs.layout.allocated, backs.layout.inuse, BitVec.toNat_ofNat, BitVec.toNat_ofNat]
  have small : (majors.map fun M => 4096 * M.pages.toNat).sum < 2 ^ 64 := by omega
  rw [Nat.mod_eq_of_lt small, Nat.mod_eq_of_lt (by omega)]
  exact ⟨total, few, asked, taken⟩

theorem smallBoot_accounts : ∃ s₀ q t, KernelRun s₀ 0 9 true [(.malloc 100, q)] t ∧
    132 ≤ t.1.inuse.toNat ∧ t.1.inuse.toNat ≤ t.1.allocated.toNat := by
  obtain ⟨s₀, q, t, -, run, same, -⟩ := smallBoot_kmalloc
  obtain ⟨-, -, asked, taken⟩ := kernel_accounts run
  rw [same] at asked
  exact ⟨s₀, q, t, run, by simpa using asked, taken⟩

/-- When everything has been freed, liballoc is as before its first call, and of the frames it
has taken only that of the table of the heap is still in use. -/
theorem kernel_empty (run : KernelRun s₀ depth fuel flag history t) (none : t.2 = []) :
    t.1.memRoot = 0 ∧ t.1.bestBet = 0 ∧ t.1.allocated = 0 ∧ t.1.inuse = 0 ∧
      heapPages t.1.host.paging = ∅ ∧
      ∀ bit, t.1.host.paging.bitmap.testBit bit = true ↔ s₀.bitmap.testBit bit = true ∨
        ∃ f ∈ tableFrames s₀ t.1.host.paging, f.toNat = bit := by
  obtain ⟨majors, backs, -, -⟩ := run.inv
  rw [none] at backs
  obtain rfl := backs.empty
  have layout := backs.layout
  have bet : t.1.bestBet = 0 := by
    rcases layout.bestBet with none | ⟨M, member, -⟩
    · exact none
    · cases member
  obtain ⟨live, freed, state, perm⟩ := layout.owns
  obtain rfl : live = [] := List.map_eq_nil_iff.mp (List.perm_nil.mp perm)
  have leased := state.inv.leased
  refine ⟨layout.root, bet, layout.allocated, layout.inuse, ?_, fun bit => ?_⟩
  · rw [leased.heapPages_eq]
    simp
  · rw [leased.bits]
    simp

theorem smallBoot_empty : ∃ s₀ q t, KernelRun s₀ 0 9 true [(.malloc 100, q), (.free q, 0)] t ∧
    t.1.memRoot = 0 ∧ heapPages t.1.host.paging = ∅ := by
  obtain ⟨s₀, q, t, run, none⟩ := smallBoot_kfree
  obtain ⟨root, -, -, -, pages, -⟩ := kernel_empty run none
  exact ⟨s₀, q, t, run, root, pages⟩

/-! ### Where objects are put -/

/-- `kmalloc` puts an object into the first gap of one of the blocks. It asks for more pages only
when every place for the object in any of the blocks is taken in part. -/
theorem kernel_firstFit (run : KernelRun s₀ depth fuel flag history t) :
    ∃ majors, Layout (OwnsBlocks s₀) heapView t.1 majors ∧
      ∀ size q s', size.toNat + 80 < 2 ^ 32 →
        t.1.malloc (kernelHooks (depth + 1)) fuel size = .ok (q, s') →
        (s'.allocated = t.1.allocated ∧ ∃ M ∈ majors, ∃ xs ys, M.gap (size + 32) = some (xs, ys) ∧
            q = (M.newMinor xs (size + 32) size).ptr) ∨
          (s'.allocated =
              t.1.allocated + BitVec.ofNat 64 (4096 * (pagesFor (size + 32)).toNat) ∧
            ∀ M ∈ majors, ∀ a, M.low ≤ a → a + (size.toNat + 56) ≤ M.high →
              ∃ c ∈ M.minors, c.start < a + (size.toNat + 56) ∧ a < c.stop) := by
  obtain ⟨majors, inv⟩ := run.inv
  refine ⟨majors, inv.backs.layout, fun size q s' small returned => ?_⟩
  rcases malloc_places run.law.toGrowing inv.backs small (inv.enough run.enough) returned with
    ⟨M, there, xs, ys, gap, place, same⟩ | ⟨full, more⟩
  · exact .inl ⟨same, M, there, xs, ys, gap, place⟩
  · refine .inr ⟨more, fun M there a low high => ?_⟩
    have need : (size + 32).toNat + 24 = size.toNat + 56 := by bv_omega
    have none := full M there
    unfold Major.gap at none
    rw [need] at none
    exact Extents.firstFit_none_meets none low high

/-- A second object, for which there is room. -/
theorem smallBoot_firstFit : ∃ s₀ q t p s', KernelRun s₀ 0 9 true [(.malloc 100, q)] t ∧
    t.1.malloc (kernelHooks 1) 9 200 = .ok (p, s') ∧
    ∃ majors, Layout (OwnsBlocks s₀) heapView t.1 majors ∧
      ((s'.allocated = t.1.allocated ∧ ∃ M ∈ majors, ∃ xs ys, M.gap 232 = some (xs, ys) ∧
          p = (M.newMinor xs 232 200).ptr) ∨
        (s'.allocated = t.1.allocated + 65536 ∧
          ∀ M ∈ majors, ∀ a, M.low ≤ a → a + 256 ≤ M.high →
            ∃ c ∈ M.minors, c.start < a + 256 ∧ a < c.stop)) := by
  obtain ⟨s₀, q, t, ready, run, -, meets⟩ := smallBoot_kmalloc
  obtain ⟨majors', inv⟩ := run.inv
  have small : SmallCall (.malloc 200) := (by decide : 200 + 80 < 2 ^ 32)
  have allowed : Allowed t.2 (.malloc 200) := trivial
  rcases inv.stops 0 run.booted.kernelSpace ready run.enough allowed small with
    ⟨p, s', returned, -⟩ | ⟨e, -, refused⟩
  · obtain ⟨majors, layout, places⟩ := kernel_firstFit run
    exact ⟨s₀, q, t, p, s', run, returned, majors, layout, places 200 p s' (by decide) returned⟩
  · have pages : (pagesFor (200 + 32)).toNat = 16 := by decide
    exact absurd (pages ▸ meets) refused.not_meets

/-! ### How often the heap can be filled -/

/-- Whether a call finds no object and leaves one. -/
def refill (objects : List Object) (e : Call × BitVec 32) : Nat :=
  if objects.isEmpty && !(after objects e.2 e.1).isEmpty then 1 else 0

/-- How often calls find no object and leave one. -/
def refills (objects : List Object) : List (Call × BitVec 32) → Nat
  | [] => 0
  | e :: history => refill objects e + refills (after objects e.2 e.1) history

theorem refills_append (objects : List Object) (history : List (Call × BitVec 32))
    (e : Call × BitVec 32) : refills objects (history ++ [e]) = refills objects history +
      refill (history.foldl (fun objects (call, q) => after objects q call) objects) e := by
  induction history generalizing objects with
  | nil => simp [refills]
  | cons d history ih =>
    simp only [List.cons_append, refills, List.foldl_cons, ih]
    omega

/-- The heap is not smaller than it was, and what it has grown by is in the blocks. -/
def GrownBy (size pages : Nat) (h : KernelHeap) (areas : List PageArea) : Prop :=
  size ≤ h.kheap.size.toNat ∧
    size + 4096 * (areas.map fun a => a.pages.toNat).sum ≤ h.kheap.size.toNat + 4096 * pages

theorem kernelHooks_keeps (size pages depth : Nat) :
    (kernelHooks depth).Keeps (OwnsBlocks s₀) (GrownBy size pages) where
  perm grown same := by
    unfold GrownBy at *
    rwa [← (same.map fun a : PageArea => a.pages.toNat).sum_eq]
  store _ grown _ _ stored := by
    obtain ⟨s', -, done⟩ := bind_ok_iff.mp stored
    cases done
    exact grown
  alloc owns grown _ returned := by
    obtain ⟨live, freed, state, -⟩ := owns
    rw [kernelHooks_liballocAlloc] at returned
    have larger := state.inv.leased.liballocAlloc_size returned
    dsimp only at larger
    unfold GrownBy at *
    simp only [List.map_cons, List.sum_cons, larger]
    omega
  free grown returned := by
    have same := freePages_kheap (freePages_of_liballocFree returned)
    unfold GrownBy at *
    simp only [List.map_cons, List.sum_cons] at grown
    rw [same]
    omega

/-- A call that finds no object and leaves one takes at least 16 pages. -/
theorem RunInv.grows {n : Nat} (start : s₀.KernelSpace)
    (inv : RunInv (OwnsBlocks s₀) heapView flag n s majors objects) (enough : 3 * n + 3 ≤ fuel)
    {call : Call} {q : BitVec 32} (allowed : Allowed objects call) (small : SmallCall call)
    (returned : s.call (kernelHooks (depth + 1)) fuel call = .ok (q, s')) :
    s.host.kheap.size.toNat + 65536 * refill objects (call, q) ≤ s'.host.kheap.size.toNat := by
  obtain ⟨M, pages⟩ : ∃ n, n = ((majors.map Major.area).map fun a => a.pages.toNat).sum := ⟨_, rfl⟩
  have law := (kernelHooks_lawful start depth).and
    (kernelHooks_keeps s.host.kheap.size.toNat M (depth + 1))
  have backs : Backs (fun h as => OwnsBlocks s₀ h as ∧ GrownBy s.host.kheap.size.toNat M h as)
      heapView s majors objects :=
    inv.backs.imp ⟨inv.backs.layout.owns, Nat.le_refl _, by rw [pages]⟩
  have ends := call_backs law backs allowed small (inv.enough enough)
  rw [returned] at ends
  cases ends with
  | @returns _ _ majors' backs' =>
    obtain ⟨-, monotone, grown⟩ := backs'.layout.owns
    unfold refill
    split
    next both =>
      rw [Bool.and_eq_true, List.isEmpty_iff, Bool.not_eq_true', List.isEmpty_eq_false_iff] at both
      obtain ⟨rfl, some⟩ := both
      obtain rfl := inv.backs.empty
      have none : M = 0 := pages
      -- the objects are in a block, and a block has 16 pages
      cases majors' with
      | nil =>
        have shapes := backs'.shapes.length_eq
        simp [minorsOf] at shapes
        exact absurd shapes some
      | cons N rest =>
        have many := (backs'.layout.sound N List.mem_cons_self).many
        simp only [List.map_cons, List.sum_cons, Major.area] at grown
        omega
    next => omega

/-- However much is freed in between, the heap can be filled from empty at most 16 times, because
its pages are not handed out again. -/
theorem kernel_refills (run : KernelRun s₀ depth fuel flag history t) :
    refills [] history ≤ 16 := by
  have grown : 3 * history.length + 3 ≤ fuel →
      65536 * refills [] history ≤ t.1.host.kheap.size.toNat := by
    refine run.calls.invariant (fun history t => 3 * history.length + 3 ≤ fuel →
      65536 * refills [] history ≤ t.1.host.kheap.size.toNat) (fun _ => Nat.zero_le _) ?_
    intro before s e s' calls size step enough
    rw [List.length_append, List.length_singleton] at enough
    have size := size (by omega)
    obtain ⟨majors, inv⟩ := run_inv run.law run.booted.owns calls (by omega)
    have same := run_objects calls
    rw [refills_append]
    cases step with
    | @call s s' objects call q allowed small returned =>
      have more := inv.grows run.booted.kernelSpace (by omega) allowed small returned
      have objects : objects = objectsOf before := same
      change 65536 * (_ + refill (objectsOf before) (call, q)) ≤ _
      rw [← objects]
      dsimp only at size more ⊢
      omega
  obtain ⟨majors, backs, -, -⟩ := run.inv
  obtain ⟨live, freed, state, -⟩ := backs.layout.owns
  have limit : t.1.host.kheap.size.toNat ≤ 0x100000 := state.inv.leased.size.1
  have total := grown run.enough
  omega

theorem smallBoot_refills : ∃ s₀ q t, KernelRun s₀ 0 9 true [(.malloc 100, q), (.free q, 0)] t ∧
    refills [] [(.malloc 100, q), (.free q, 0)] ≤ 16 := by
  obtain ⟨s₀, q, t, run, -⟩ := smallBoot_kfree
  exact ⟨s₀, q, t, run, kernel_refills run⟩

/-! ### Two calls -/

/-- The second `kfree` of an object counts an error and changes nothing else, or, when the first
one has given back the pages, it runs into a page fault, as every access to the object does. -/
theorem kernel_doubleFree (run : KernelRun s₀ depth fuel flag history t) {o : Object}
    (member : o ∈ t.2) : ∃ s', t.1.free (kernelHooks (depth + 1)) o.ptr = .ok s' ∧
      (s'.allocated = t.1.allocated ∧ s'.free (kernelHooks (depth + 1)) o.ptr =
          .ok { s' with errorCount := s'.errorCount + 1 } ∨
        s'.allocated.toNat < t.1.allocated.toNat ∧
          s'.free (kernelHooks (depth + 1)) o.ptr = .error (.pageFault (o.ptr - 16)) ∧
          ∀ i < o.bytes.length, s'.host.paging.loadByte (o.ptr + BitVec.ofNat 32 i) =
            .error (.pageFault (o.ptr + BitVec.ofNat 32 i))) := by
  obtain ⟨majors, backs, -, -⟩ := run.inv
  obtain ⟨allocated, few, -, -⟩ := kernel_accounts run
  obtain ⟨c, listed, ptr, length⟩ := backs.minor member
  obtain ⟨M, there, here⟩ := mem_minorsOf.mp listed
  obtain ⟨pre, post, rfl⟩ := List.append_of_mem there
  obtain ⟨xs, ys, split⟩ := List.append_of_mem here
  have sound := backs.layout.sound M there
  obtain ⟨s', freed, ends⟩ := free_again run.law backs.layout split
  rw [ptr] at freed ends
  refine ⟨s', freed, ends.imp_right fun ⟨less, fault, gone⟩ => ⟨?_, fault, fun i bound => ?_⟩⟩
  · have many := sound.many
    have pages := sum_pages (pre ++ M :: post)
    rw [← backs.layout.owns.pages.1, sum_middle] at pages
    have value := congrArg BitVec.toNat less
    rw [BitVec.toNat_add, BitVec.toNat_ofNat] at value
    have bound := s'.allocated.isLt
    omega
  · refine gone _ (sound.payload_subset (sound.data_subset here ?_))
    unfold Minor.data
    rw [ptr, length]
    have fits := (backs.sound run.law.toGrowing).fits o member
    exact (mem_span_add (by omega)).mpr bound

theorem smallBoot_doubleFree : ∃ s₀ q t s', KernelRun s₀ 0 9 true [(.malloc 100, q)] t ∧
    t.1.free (kernelHooks 1) q = .ok s' ∧
    (s'.free (kernelHooks 1) q = .ok { s' with errorCount := s'.errorCount + 1 } ∨
      s'.free (kernelHooks 1) q = .error (.pageFault (q - 16))) := by
  obtain ⟨s₀, q, t, -, run, same, -⟩ := smallBoot_kmalloc
  have member : (⟨q, List.replicate 100 none⟩ : Object) ∈ t.2 := by
    rw [same]
    exact List.mem_cons_self
  obtain ⟨s', freed, ⟨-, counted⟩ | ⟨-, fault, -⟩⟩ := kernel_doubleFree run member
  · exact ⟨s₀, q, t, s', run, freed, .inl counted⟩
  · exact ⟨s₀, q, t, s', run, freed, .inr fault⟩

end Treeos
