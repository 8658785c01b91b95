import Treeos.Pmm.TlbCoherence

/-!
# Runs on a processor with a translation cache

Whatever the processor keeps of the pages whose tables are there, `page_map` and `page_unmap` end
there as they do without a cache, and every access in between is translated as the tables say.
-/
namespace Treeos

open PageTable PagingState Tlb Cached

variable {H : Type} {s s' : PagingState} {heap : H} {v physaddr : BitVec 32} {f : Frame}
variable {rw user : Bool} {fills : Set Page} {i : BitVec 10} {table : Frame}

/-! ### A new entry of the directory -/

theorem PagingState.Tables.directory_last (tables : s.Tables) {j : BitVec 10}
    (uses : Uses pagingFormat s.mem s.dir j s.dir) : j = 1023 :=
  twin_last ((tables.uses_iff tables.selfMap).mp uses)

/-- `page_map` has marked an absent entry. -/
theorem PagingState.Tables.growing (tables : s.Tables) (low : i ≠ 0) (high : i ≠ 768)
    (last : i ≠ 1023) (aligned : isPageAligned s.placementHeap = true)
    (heap : dirIndex s.placementHeap = 768)
    (empty : (s.mem s.kernelTable (tableIndex s.placementHeap)).present = false) (w : Entry) :
    Growing (s.setMem (write s.mem s.dir i w)) i s.kernelTable := by
  have entry (j : BitVec 10) (other : j ≠ i) : write s.mem s.dir i w s.dir j = s.mem s.dir j :=
    write_of_index_ne s.mem other
  have uses (j : BitVec 10) (other : j ≠ i) (f : Frame) :
      Uses pagingFormat (write s.mem s.dir i w) s.dir j f ↔ Uses pagingFormat s.mem s.dir j f := by
    unfold Uses
    rw [entry j other]
  have slot := tables.slotAt heap
  refine ⟨tables.selfMap.write_dir last w, aligned, heap, ⟨?_, slot.apart⟩, ?_, ?_, low, high, last,
    fun j other used => ?_, fun j other used => ?_, tables.bound, fun f free => ?_⟩
  · exact (uses _ (heap ▸ high.symm) _).mpr slot.uses
  · rw [← empty]
    exact congrArg Entry.present (write_of_frame_ne s.mem slot.apart)
  · exact (entry 0 low.symm).trans (tables.shared.trans (entry 768 high.symm).symm)
  · exact tables.directory_last ((uses j other _).mp used)
  · have kernel : Uses pagingFormat s.mem s.dir (768 : BitVec 10) s.kernelTable :=
      ⟨tables.kernel, rfl⟩
    rcases (tables.uses_iff kernel).mp ((uses j other _).mp used) with same | ⟨zero, -⟩ | ⟨same, -⟩
    · exact .inr same
    · exact .inl zero
    · exact .inr same
  · obtain ⟨noDir, unused⟩ := tables.busy free
    refine ⟨noDir, fun same => unused 768 ⟨tables.kernel, same.symm⟩, fun j other used => ?_⟩
    exact unused j ((uses j other f).mp used)

theorem tablePages_pde (last : i ≠ 1023) : pageOf (pdeAddr v) ∉ tablePages i := by
  rw [(pdeAddr_page v).1]
  rintro (same | same)
  · exact last same.symm
  · exact last (congrArg Prod.snd same).symm

theorem hidden_markDirEntry (tables : s.Tables) (last : dirIndex v ≠ 1023)
    (apart : ∀ page ∈ fills, page ∉ tablePages (dirIndex v)) :
    Hidden kernelMmu fills (tablePages (dirIndex v)) (tablePages (dirIndex v))
      (Cached.markDirEntry v) (s.cached heap) := by
  have inside := tables.selfMap.wordIn last
  have window := tablePages_pde (v := v) last
  have keeps : ∀ w, Keeps kernelMmu (tablePages (dirIndex v)) (s.cached heap)
      ((s.setMem (write s.mem s.dir (wordIndex (pdeAddr v)) w)).cached heap) := by
    rw [(pdeAddr_page v).2]
    exact keeps_dirEntry fun j _ uses => tables.directory_last uses
  have step := inside.hidden_update apart window window keeps
  rw [← s.setMem_write_same s.dir (wordIndex (pdeAddr v))]
  refine step _ _ (step _ _ ?_)
  exact inside.hidden_updateWord apart window window keeps _ _

/-- The entry gets the address of its table. -/
theorem Growing.hidden_link (growing : Growing s (dirIndex v) table) (noDir : f ≠ s.dir)
    (apart : ∀ page ∈ fills, page ∉ tablePages (dirIndex v)) :
    Hidden kernelMmu fills (tablePages (dirIndex v)) (tablePages (dirIndex v))
      (Cached.virtToPhys s.placementHeap >>= fun physaddr =>
        Cached.updateWord (pdeAddr v) (·.setAddress (frameOf physaddr)))
      ((s.withStructure table f).cached heap) := by
  have last := growing.last
  have other : dirIndex s.placementHeap ≠ dirIndex v := growing.heap ▸ growing.high.symm
  have windows := tablePages_windows last other
  have selfMap := growing.selfMap.withStructure growing.slot.apart noDir
  have window := tablePages_pde (v := v) last
  refine (hidden_virtToPhys apart windows windows _).bind fun physaddr u ran => ?_
  rw [run_virtToPhys] at ran
  obtain ⟨_, -, same⟩ := bind_ok_iff.mp ran
  cases same
  rw [← setMem_write_same (s.withStructure table f) s.dir (wordIndex (pdeAddr v))]
  refine (selfMap.wordIn last).hidden_updateWord apart window window ?_ _ _
  rw [(pdeAddr_page v).2]
  refine keeps_dirEntry fun j other uses => growing.directory j other ?_
  have entry := withStructure_mem (s := s) (Ne.symm growing.slot.apart) (Ne.symm noDir) j
  unfold Uses at uses ⊢
  rw [show (s.withStructure table f).dir = s.dir from rfl, entry] at uses
  exact uses

/-- What `page_map` does to an absent entry of the directory. -/
theorem hidden_newDirEntry (tables : s.Tables) (low : dirIndex v ≠ 0) (high : dirIndex v ≠ 768)
    (last : dirIndex v ≠ 1023) (aligned : isPageAligned s.placementHeap = true)
    (inside : dirIndex s.placementHeap = 768)
    (empty : (s.mem s.kernelTable (tableIndex s.placementHeap)).present = false)
    (settled : ∀ page ∈ fills, page ∉ tablePages (dirIndex v) ∪ lowSlot s) (depth : Nat) :
    Hidden kernelMmu fills (tablePages (dirIndex v)) (tablePages (dirIndex v))
      (Cached.newDirEntry (Cached.pagingStructureAlloc depth) v) (s.cached heap) := by
  have apart : ∀ page ∈ fills, page ∉ tablePages (dirIndex v) :=
    fun page member inside => settled page member (.inl inside)
  have growing := tables.growing low high last aligned inside empty
    (s.mem s.dir (dirIndex v)).marked
  unfold Cached.newDirEntry
  refine (hidden_markDirEntry tables last apart).bind fun _ u ran => ?_
  rw [run_markDirEntry, markDirEntry_eq tables.selfMap last, ok_bind] at ran
  cases ran
  refine (growing.hidden_alloc settled depth).bind fun ret u ran => ?_
  rw [allocates_pagingStructureAlloc depth] at ran
  obtain ⟨⟨ret, t⟩, returned, same⟩ := bind_ok_iff.mp ran
  cases same
  obtain ⟨-, -, rfl, f, least, rfl⟩ := (pagingStructureAlloc_iff growing.bound growing.selfMap
    growing.slot fun f free => ⟨(growing.busy f free).1, (growing.busy f free).2.1⟩).mp returned
  obtain ⟨noDir, -, -⟩ := growing.busy f least.1.2
  exact growing.hidden_link noDir apart

/-! ### The calls -/

/-- What the processor may take into its caches during a call that begins in `s`, besides what the
call accesses: the pages of the tables that are there, and the tables themselves, without the free
entries that the kernel's table shows at the low end. A table that the call makes is not among
them: its entry in the directory is present with address 0 before `page_map` sets it. -/
def PagingState.steadyPages (s : PagingState) : Set Page :=
  {page | (s.mem s.dir page.1).present = true ∧
    (page.1 = 1023 → (s.mem s.dir page.2).present = true) ∧ (page.1 = 0 → s.lookup page ≠ none)}

/-- Every mapped page is one of them. -/
theorem PagingState.Tables.mapped_steady (tables : s.Tables) {page : Page}
    (mapped : s.lookup page ≠ none) : page ∈ s.steadyPages := by
  obtain ⟨e, found⟩ := Option.ne_none_iff_exists'.mp mapped
  obtain ⟨uses, here, present⟩ := lookup_some found
  refine ⟨uses.1, fun last => ?_, fun _ => mapped⟩
  rw [last, show pagingFormat.frame (s.mem s.dir 1023) = s.dir from tables.selfMap.2] at here
  rw [here]
  exact present

/-- An absent entry of the directory maps nothing, and its table appears nowhere. -/
theorem PagingState.Tables.lookup_tablePages (tables : s.Tables)
    (absent : (s.mem s.dir i).present = false) (page : Page) (member : page ∈ tablePages i) :
    s.lookup page = none := by
  rcases member with own | rfl
  · refine lookup_of_absent ?_
    show (s.mem s.dir page.1).present = false
    rw [own, absent]
  · have found : s.lookup (1023, i) = _ := lookup_of_uses tables.selfMap
    rw [found]
    exact if_neg (Bool.eq_false_iff.mp absent)

/-- The slot of the placement heap, seen through entry 0, is not mapped. -/
theorem PagingState.Tables.lookup_lowSlot (tables : s.Tables)
    (empty : (s.mem s.kernelTable (tableIndex s.placementHeap)).present = false) (page : Page)
    (member : page ∈ lowSlot s) : s.lookup page = none := by
  obtain rfl : page = (0, tableIndex s.placementHeap) := member
  have uses : Uses pagingFormat s.mem s.dir (0 : BitVec 10) s.kernelTable := by
    unfold Uses
    rw [tables.shared]
    exact ⟨tables.kernel, rfl⟩
  have found : s.lookup (0, tableIndex s.placementHeap) = _ := lookup_of_uses uses
  rw [found]
  exact if_neg (Bool.eq_false_iff.mp empty)

/-- All pages of another entry of the directory are never among the pages of `i`. -/
theorem tablePages_all {j : BitVec 10} (all : ∀ k, (j, k) ∈ tablePages i) : j = i := by
  rcases all 0 with own | first
  · exact own
  · rcases all 1 with own | second
    · exact own
    · -- one page of the window cannot be all of the entry
      have zero : (0 : BitVec 10) = i := congrArg Prod.snd first
      have one : (1 : BitVec 10) = i := congrArg Prod.snd second
      exact absurd (zero.trans one.symm) (by decide)

/-- They are away from the pages that a new table concerns. -/
theorem PagingState.Tables.steady_apart (tables : s.Tables)
    (absent : (s.mem s.dir i).present = false)
    (empty : (s.mem s.kernelTable (tableIndex s.placementHeap)).present = false) (page : Page)
    (steady : page ∈ s.steadyPages) : page ∉ tablePages i ∪ lowSlot s := by
  obtain ⟨present, table, mapped⟩ := steady
  rintro ((own | window) | slot)
  · rw [show page.1 = i from own, absent] at present
    cases present
  · have there := table (congrArg Prod.fst window)
    rw [congrArg Prod.snd window, absent] at there
    cases there
  · exact mapped (congrArg Prod.fst slot) (tables.lookup_lowSlot empty page slot)

theorem windows_own (last : dirIndex v ≠ 1023) : Windows v (insert (pageOf v) ∅) := by
  constructor
  · rintro (same | none)
    · exact last (congrArg Prod.fst same).symm
    · exact none
  · rintro (same | none)
    · exact last (congrArg Prod.fst same).symm
    · exact none

/-- `page_map` for a page of a caller that finds a table or a slot for one. -/
theorem PagingState.KernelSpace.hidden_pageMap (space : s.KernelSpace) (page : CallerPage v)
    (slot : s.HasSlot v) (steady : fills ⊆ s.steadyPages) (depth : Nat) :
    Hidden kernelMmu fills ∅ ∅ (Cached.pageMap (depth + 1) physaddr v rw user)
      (s.cached heap) := by
  have tables := space.tables
  have low := page.dirIndex_ne 0 (by decide)
  have high := page.dirIndex_ne 768 (by decide)
  have last := page.dirIndex_ne 1023 (by decide)
  have apart : ∀ page ∈ fills, page ∉ (∅ : Set Page) := fun _ _ => id
  cases present : (s.mem s.dir (dirIndex v)).present with
  | true =>
    have here := tables.tableAt last present
    exact hidden_pageMapWith tables.selfMap here (.own tables low high last here.uses) apart
      (windows_own last) windows_empty _
  | false =>
    have room := slot.resolve_left (by simp [present])
    have inside := (space.placement.slot_toNat room).1
    have empty := space.placement.slotEmpty room
    have unmapped := tables.lookup_tablePages present
    show Hidden _ _ _ _
      (Cached.pageMapWith (Cached.pagingStructureAlloc depth) physaddr v rw user) _
    unfold Cached.pageMapWith
    -- the state in front of each part is what the parts before it compute without a cache
    refine (hidden_checkArguments apart _).bind fun _ u ran => ?_
    obtain rfl := checkArguments_kept ran
    refine Hidden.bind ?_ fun _ u ran => ?_
    · refine (hidden_loadWord apart windows_empty.pde windows_empty.pde _).bind fun pde u ran => ?_
      rw [run_loadWord, tables.selfMap.loadWord_pde] at ran
      cases ran
      rw [if_neg (Bool.eq_false_iff.mp present)]
      -- nothing is kept about the pages of the new table
      refine Hidden.widen unmapped ?_ ?_
      · intro j all
        refine .inr ?_
        have own : j = dirIndex v := tablePages_all fun k => (all k).resolve_left id
        show (s.mem s.dir j).present = false
        rw [own, present]
      · rw [Set.empty_union]
        exact hidden_newDirEntry tables low high last space.placement.aligned inside empty
          (fun q member => tables.steady_apart present empty q (steady member)) depth
    · unfold findTable at ran
      rw [Prog.run_bind, run_loadWord, tables.selfMap.loadWord_pde, ok_bind, ok_bind,
        if_neg (Bool.eq_false_iff.mp present),
        (allocates_pagingStructureAlloc depth).newDirEntry] at ran
      obtain ⟨t, made, same⟩ := bind_ok_iff.mp ran
      cases same
      obtain ⟨-, -, f, least, rfl⟩ := (tables.newDirEntry_iff last present inside depth).mp made
      have grown := tables.withTable present least.1.2
      have here := withTable_tableAt (v := v) tables.kernelTable_ne_dir (tables.busy least.1.2).1
      exact (hidden_setTableEntry grown.selfMap here (.own grown low high last here.uses) apart
        (windows_own last) windows_empty).flushed apart

/-- `page_unmap` for a page of a caller. -/
theorem PagingState.Tables.hidden_pageUnmap (tables : s.Tables) (page : CallerPage v) :
    Hidden kernelMmu fills ∅ ∅ (Cached.pageUnmap v) (s.cached heap) := by
  have apart : ∀ page ∈ fills, page ∉ (∅ : Set Page) := fun _ _ => id
  have last := page.dirIndex_ne 1023 (by decide)
  refine Hidden.flushed apart ?_
  refine hidden_clearEntry tables.selfMap (fun f uses => ?_) apart (windows_own last)
    windows_empty
  exact .own tables (page.dirIndex_ne 0 (by decide)) (page.dirIndex_ne 768 (by decide)) last uses

/-! ### Runs -/

inductive PagingCall where
  | map (physaddr v : BitVec 32) (rw user : Bool)
  | unmap (v : BitVec 32)
  | take

namespace PagingCall

/-- `page_map`, `page_unmap` and `page_alloc` on the processor with caches. -/
def prog (depth : Nat) : PagingCall → KernelProg H Unit
  | .map physaddr v rw user => Cached.pageMap (depth + 1) physaddr v rw user
  | .unmap v => Cached.pageUnmap v
  | .take => takeFrame >>= fun _ => .done ()

/-- The same calls when every access walks the tables. -/
def run (depth : Nat) (s : PagingState) : PagingCall → Except Panic PagingState
  | .map physaddr v rw user => s.pageMap (depth + 1) physaddr v rw user
  | .unmap v => s.pageUnmap v
  | .take => pageAlloc s.bitmap (some 0) >>= fun taken => .ok { s with bitmap := taken.2 }

/-- Callers stay above the kernel and below the windows. -/
def Allowed (s : PagingState) : PagingCall → Prop
  | .map _ v _ _ => CallerPage v ∧ s.HasSlot v
  | .unmap v => CallerPage v
  | .take => True

variable {call : PagingCall} {depth : Nat}

theorem run_prog : (call.prog depth).run kernelMmu (s.cached heap) =
    call.run depth s >>= fun s' => .ok ((), s'.cached heap) := by
  cases call with
  | map physaddr v rw user => exact maps_pageMap (depth + 1) physaddr v rw user s heap
  | unmap v => exact run_pageUnmap
  | take =>
    unfold prog run
    simp only [Prog.run_bind, run_takeFrame, run_done, bind_assoc, ok_bind]

theorem hidden (space : s.KernelSpace) (allowed : call.Allowed s) :
    Hidden kernelMmu s.steadyPages ∅ ∅ (call.prog depth) (s.cached heap) := by
  cases call with
  | map physaddr v rw user => exact space.hidden_pageMap allowed.1 allowed.2 subset_rfl depth
  | unmap v => exact space.tables.hidden_pageUnmap allowed
  | take =>
    have apart : ∀ page ∈ s.steadyPages, page ∉ (∅ : Set Page) := fun _ _ => id
    exact (hidden_takeFrame apart _).bind fun _ _ _ => hidden_done apart ()

theorem step (allowed : call.Allowed s) (returned : call.run depth s = .ok s') :
    ∃ label, KernelStep s label s' := by
  cases call with
  | map physaddr v rw user => exact ⟨_, .call (.map allowed.1 returned)⟩
  | unmap v => exact ⟨_, .unmap (CallerPage.high allowed) returned⟩
  | take =>
    obtain ⟨taken, answer, same⟩ := bind_ok_iff.mp returned
    cases same
    exact ⟨_, .call (.alloc answer)⟩

/-- How a call ends on the processor with caches. -/
def Ends (call : PagingCall) (depth : Nat) (s : PagingState) (heap : H) :
    Except Panic (Unit × State Frame (BitVec 10) Entry (KernelVars H) × Caches (BitVec 10) Entry) →
    Prop
  | .ok (_, u, c) => ∃ s', call.run depth s = .ok s' ∧ u = s'.cached heap ∧ Coherent kernelMmu u c
  | .error e => call.run depth s = .error e

theorem ends (space : s.KernelSpace) (allowed : call.Allowed s) {c : Caches (BitVec 10) Entry}
    (coherent : Coherent kernelMmu (s.cached heap) c)
    {r : Except Panic (Unit × State Frame (BitVec 10) Entry (KernelVars H) ×
      Caches (BitVec 10) Entry)}
    (runs : Runs kernelMmu s.steadyPages (call.prog depth) (s.cached heap) c r) :
    call.Ends depth s heap r := by
  rcases (hidden space allowed).ends coherent runs with
    ⟨a, u, c', ran, rfl, kept⟩ | ⟨e, ran, rfl⟩
  · rw [run_prog] at ran
    obtain ⟨s', returned, same⟩ := bind_ok_iff.mp ran
    cases same
    exact ⟨s', returned, rfl, kept⟩
  · rw [run_prog] at ran
    rcases bind_error_iff.mp ran with stopped | ⟨s', -, impossible⟩
    · exact stopped
    · cases impossible

end PagingCall

theorem cached_injective (same : s.cached heap = s'.cached heap) : s = s' := by
  cases s
  cases s'
  cases same
  rfl

/-- Calls one after the other, with what the processor has kept so far. -/
inductive CachedStep (depth : Nat) (heap : H) : PagingState × Caches (BitVec 10) Entry →
    PagingCall → PagingState × Caches (BitVec 10) Entry → Prop
  | call {s s' : PagingState} {c c' : Caches (BitVec 10) Entry} {call : PagingCall}
      (allowed : call.Allowed s)
      (runs : Runs kernelMmu s.steadyPages (call.prog depth) (s.cached heap) c
        (.ok ((), s'.cached heap, c'))) :
      CachedStep depth heap (s, c) call (s', c')

/-- After a run the address space is what the calls compute, and the caches agree with it. -/
structure CachedInv (depth : Nat) (heap : H) (s₀ : PagingState) (calls : List PagingCall)
    (s : PagingState) (c : Caches (BitVec 10) Entry) : Prop where
  space : s.KernelSpace
  coherent : Coherent kernelMmu (s.cached heap) c
  computed : calls.foldlM (fun s call => call.run depth s) s₀ = .ok s

variable {s₀ : PagingState} {c₀ c : Caches (BitVec 10) Entry} {depth : Nat}

theorem run_cachedInv (space : s₀.KernelSpace) (coherent : Coherent kernelMmu (s₀.cached heap) c₀)
    {calls : List PagingCall}
    (run : Run.From (CachedStep depth heap) (s₀, c₀) calls (s, c)) :
    CachedInv depth heap s₀ calls s c := by
  refine run.invariant (fun calls t => CachedInv depth heap s₀ calls t.1 t.2)
    ⟨space, coherent, rfl⟩ ?_
  -- the caches that one call leaves are coherent, so the next one starts as it does without them
  rintro calls _ call _ - ⟨space, coherent, computed⟩ ⟨allowed, runs⟩
  obtain ⟨s', returned, same, kept⟩ := PagingCall.ends space allowed coherent runs
  obtain rfl := cached_injective same
  obtain ⟨label, step⟩ := PagingCall.step allowed returned
  refine ⟨step.inv space, kept, ?_⟩
  rw [List.foldlM_append, computed]
  simp [returned]

end Treeos
