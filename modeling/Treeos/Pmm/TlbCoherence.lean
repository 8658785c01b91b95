import Treeos.Pmm.CachedPaging

/-!
# Which translations may be cached

`page_map` changes translations that no cache can hold while the processor leaves the new table
alone, and that of the page itself, which it flushes in the end.
-/
namespace Treeos

open PageTable PagingState Tlb Cached

variable {H α : Type} {s s' : PagingState} {heap : H} {v physaddr p : BitVec 32} {f g : Frame}
variable {rw user : Bool} {fills stale away : Set Page} {e : Entry} {depth : Nat}

/-! ### Stores to one word -/

theorem PagingState.setMem_write_same (s : PagingState) (g : Frame) (i : BitVec 10) :
    s.setMem (write s.mem g i (s.mem g i)) = s := by
  have same : write s.mem g i (s.mem g i) = s.mem := by
    funext g' j
    unfold write
    split
    next here => rw [here.1, here.2]
    next => rfl
  rw [same]
  rfl

/-- The word at `v` is in frame `g`, whatever is stored there. -/
def WordIn (s : PagingState) (v : BitVec 32) (g : Frame) : Prop :=
  ∀ w, ∃ e, (s.setMem (write s.mem g (wordIndex v) w)).lookup (pageOf v) = some e ∧ e.address = g

theorem WordIn.updateWord (inside : WordIn s v g) (change : Entry → Entry) (w : Entry) :
    (s.setMem (write s.mem g (wordIndex v) w)).updateWord v change =
      .ok (s.setMem (write s.mem g (wordIndex v) (change w))) := by
  obtain ⟨e, found, rfl⟩ := inside w
  unfold PagingState.updateWord
  rw [loadWord_of_lookup found, ok_bind, storeWord_of_lookup found]
  simp

theorem hidden_loadWord (apart : ∀ page ∈ fills, page ∉ away) (other : pageOf v ∉ stale)
    (clear : pageOf v ∉ away) (s : State Frame (BitVec 10) Entry (KernelVars H)) :
    Hidden kernelMmu fills stale away (Cached.loadWord v) s :=
  hidden_load apart other clear fun _ _ => hidden_done apart _

theorem WordIn.hidden_updateWord (inside : WordIn s v g) (apart : ∀ page ∈ fills, page ∉ away)
    (other : pageOf v ∉ stale) (clear : pageOf v ∉ away)
    (keeps : ∀ w, Keeps kernelMmu stale (s.cached heap)
      ((s.setMem (write s.mem g (wordIndex v) w)).cached heap))
    (change : Entry → Entry) (w : Entry) :
    Hidden kernelMmu fills stale away (Cached.updateWord v change)
      ((s.setMem (write s.mem g (wordIndex v) w)).cached heap) := by
  show Hidden _ _ _ _ (.load v fun w => .store v (change w) (.done ())) _
  refine hidden_load apart other clear fun e found => hidden_store apart other clear ?_
  intro e' found'
  obtain ⟨d, here, rfl⟩ := inside w
  cases here.symm.trans found
  cases here.symm.trans found'
  refine ⟨(keeps w).symm.trans ?_, hidden_done apart ()⟩
  show Keeps _ _ _ ((s.setMem (write (write s.mem e.address (wordIndex v) w) e.address
    (wordIndex v) (change (write s.mem e.address (wordIndex v) w e.address
      (wordIndex v))))).cached heap)
  rw [write_self, write_write]
  exact keeps (change w)

/-- An update of a bit field, with the rest of a program. -/
theorem WordIn.hidden_update (inside : WordIn s v g) (apart : ∀ page ∈ fills, page ∉ away)
    (other : pageOf v ∉ stale) (clear : pageOf v ∉ away)
    (keeps : ∀ w, Keeps kernelMmu stale (s.cached heap)
      ((s.setMem (write s.mem g (wordIndex v) w)).cached heap))
    (change : Entry → Entry) (w : Entry) {rest : KernelProg H Unit}
    (later : Hidden kernelMmu fills stale away rest
      ((s.setMem (write s.mem g (wordIndex v) (change w))).cached heap)) :
    Hidden kernelMmu fills stale away (Cached.updateWord v change >>= fun _ => rest)
      ((s.setMem (write s.mem g (wordIndex v) w)).cached heap) := by
  refine (inside.hidden_updateWord apart other clear keeps change w).bind ?_
  intro a s' ran
  rw [run_updateWord, inside.updateWord change w] at ran
  cases ran
  exact later

/-! ### `page_map` and `page_unmap` in a table that is there -/

theorem PagingState.TableAt.wordIn (table : s.TableAt v f) (selfMap : s.SelfMapped) :
    WordIn s (pteAddr v) f := by
  intro w
  have here := table.write (wordIndex (pteAddr v)) w
  have kept := selfMap.write_table table.apart (wordIndex (pteAddr v)) w
  refine ⟨_, kept.lookup_pte here.uses, ?_⟩
  exact here.uses.2

/-- The pages at which `page_map` and `page_unmap` look. -/
structure Windows (v : BitVec 32) (pages : Set Page) : Prop where
  directory : ((1023, 1023) : Page) ∉ pages
  table : ((1023, dirIndex v) : Page) ∉ pages

theorem Windows.pde (windows : Windows v stale) : pageOf (pdeAddr v) ∉ stale := by
  rw [(pdeAddr_page v).1]
  exact windows.directory

theorem Windows.pte (windows : Windows v stale) : pageOf (pteAddr v) ∉ stale := by
  rw [(pteAddr_page v).1]
  exact windows.table

/-- A store to an entry of the table of `v` changes no other translation than those of `stale`. -/
def EntryKeeps (H : Type) (stale : Set Page) (s : PagingState) (v : BitVec 32) (f : Frame) : Prop :=
  ∀ (heap : H) w, Keeps kernelMmu stale (s.cached heap)
    ((s.setMem (write s.mem f (tableIndex v) w)).cached heap)

theorem EntryKeeps.of_uses (apart : f ≠ s.dir)
    (only : ∀ page ∉ stale, Uses pagingFormat s.mem s.dir page.1 f → page.2 ≠ tableIndex v) :
    EntryKeeps H stale s v f := by
  intro heap w
  constructor
  · intro page other
    exact lookup_write_of_not (Ne.symm apart) fun same => only page other same.1 same.2
  · intro i j other
    exact write_of_frame_ne s.mem (Ne.symm apart)

theorem hidden_setTableEntry (selfMap : s.SelfMapped) (table : s.TableAt v f)
    (keeps : EntryKeeps H stale s v f) (apart : ∀ page ∈ fills, page ∉ away)
    (windows : Windows v stale) (clear : Windows v away) :
    Hidden kernelMmu fills stale away (Cached.setTableEntry physaddr v rw user)
      (s.cached heap) := by
  have inside := table.wordIn selfMap
  have index := (pteAddr_page v).2
  have same : ∀ w, Keeps kernelMmu stale (s.cached heap)
      ((s.setMem (write s.mem f (wordIndex (pteAddr v)) w)).cached heap) := by
    rw [index]
    exact keeps heap
  have step := inside.hidden_update apart windows.pte clear.pte same
  refine Hidden.bind ?_ ?_
  · exact hidden_loadWord apart windows.pte clear.pte _
  · intro pte s' ran
    rw [run_loadWord, selfMap.loadWord_pte table.uses] at ran
    cases ran
    split
    · exact hidden_stop _
    · have start := s.setMem_write_same f (wordIndex (pteAddr v))
      rw [← start]
      refine step _ _ (step _ _ (step _ _ ?_))
      exact inside.hidden_updateWord apart windows.pte clear.pte same _ _

theorem hidden_ofExcept (apart : ∀ page ∈ fills, page ∉ away) (x : Except Panic α)
    (s : State Frame (BitVec 10) Entry (KernelVars H)) :
    Hidden kernelMmu fills stale away (ofExcept x) s := by
  cases x with
  | ok a => exact hidden_done apart a
  | error e => exact hidden_stop e

theorem hidden_readVars (apart : ∀ page ∈ fills, page ∉ away)
    (s : State Frame (BitVec 10) Entry (KernelVars H)) :
    Hidden kernelMmu fills stale away readVars s :=
  hidden_read (hidden_done apart _)

theorem hidden_checkArguments (apart : ∀ page ∈ fills, page ∉ away)
    (s : State Frame (BitVec 10) Entry (KernelVars H)) :
    Hidden kernelMmu fills stale away (checkArguments physaddr v) s := by
  refine (hidden_ofExcept apart _ s).bind fun _ s' _ => ?_
  refine (hidden_ofExcept apart _ s').bind fun _ s'' _ => ?_
  exact (hidden_readVars apart s'').bind fun x s₁ _ => hidden_ofExcept apart _ s₁

/-- The checks change nothing. -/
theorem checkArguments_kept {s' : State Frame (BitVec 10) Entry (KernelVars H)}
    (ran : (checkArguments physaddr v).run kernelMmu (s.cached heap) = .ok ((), s')) :
    s' = s.cached heap := by
  unfold checkArguments at ran
  simp only [Prog.run_bind, run_ofExcept, run_readVars, bind_assoc, ok_bind] at ran
  obtain ⟨_, -, ran⟩ := bind_ok_iff.mp ran
  obtain ⟨_, -, ran⟩ := bind_ok_iff.mp ran
  obtain ⟨_, -, ran⟩ := bind_ok_iff.mp ran
  cases ran
  rfl

/-- `page_map` for a page whose table is there. -/
theorem hidden_pageMapWith (selfMap : s.SelfMapped) (table : s.TableAt v f)
    (keeps : EntryKeeps H (insert (pageOf v) stale) s v f) (apart : ∀ page ∈ fills, page ∉ away)
    (windows : Windows v (insert (pageOf v) stale)) (clear : Windows v away)
    (alloc : KernelProg H (BitVec 32)) :
    Hidden kernelMmu fills stale away (Cached.pageMapWith alloc physaddr v rw user)
      (s.cached heap) := by
  have present : (s.mem s.dir (dirIndex v)).present = true := table.uses.1
  have windows' : Windows v stale :=
    ⟨fun member => windows.directory (.inr member), fun member => windows.table (.inr member)⟩
  unfold Cached.pageMapWith
  refine Hidden.bind (hidden_checkArguments apart _) ?_
  intro a s' ran
  obtain rfl := checkArguments_kept ran
  refine Hidden.bind ?_ ?_
  · refine Hidden.bind ?_ ?_
    · exact hidden_loadWord apart windows'.pde clear.pde _
    · intro pde s' ran
      rw [run_loadWord, selfMap.loadWord_pde] at ran
      cases ran
      rw [if_pos present]
      exact hidden_done apart ()
  · intro a s' ran
    unfold findTable at ran
    rw [Prog.run_bind, run_loadWord, selfMap.loadWord_pde, ok_bind, ok_bind, if_pos present] at ran
    cases ran
    exact (hidden_setTableEntry selfMap table keeps apart windows clear).flushed apart

theorem hidden_virtToPhys (apart : ∀ page ∈ fills, page ∉ away) (windows : Windows v stale)
    (clear : Windows v away) (s : State Frame (BitVec 10) Entry (KernelVars H)) :
    Hidden kernelMmu fills stale away (Cached.virtToPhys v) s := by
  unfold Cached.virtToPhys
  refine (hidden_loadWord apart windows.pde clear.pde _).bind ?_
  intro pde s' _
  split
  · refine (hidden_loadWord apart windows.pte clear.pte _).bind ?_
    intro pte s'' _
    split
    · exact hidden_done apart _
    · exact hidden_stop _
  · exact hidden_stop _

/-- `page_unmap` without its flush. -/
theorem hidden_clearEntry (selfMap : s.SelfMapped)
    (keeps : ∀ f, Uses pagingFormat s.mem s.dir (dirIndex v) f → EntryKeeps H stale s v f)
    (apart : ∀ page ∈ fills, page ∉ away) (windows : Windows v stale) (clear : Windows v away) :
    Hidden kernelMmu fills stale away (clearEntry v) (s.cached heap) := by
  unfold clearEntry
  refine (hidden_ofExcept apart _ _).bind ?_
  intro _ s' ran
  rw [run_ofExcept] at ran
  obtain ⟨_, -, same⟩ := bind_ok_iff.mp ran
  cases same
  refine (hidden_loadWord apart windows.pde clear.pde _).bind ?_
  intro pde s' ran
  rw [run_loadWord, selfMap.loadWord_pde] at ran
  cases ran
  split
  next present =>
    have uses : Uses pagingFormat s.mem s.dir (dirIndex v)
      (s.mem s.dir (dirIndex v)).address := ⟨present, rfl⟩
    refine (hidden_loadWord apart windows.pte clear.pte _).bind ?_
    intro pte s' ran
    rw [run_loadWord, selfMap.loadWord_pte uses] at ran
    cases ran
    split
    · refine hidden_store apart windows.pte clear.pte fun e found => ⟨?_, hidden_done apart ()⟩
      cases (selfMap.lookup_pte uses).symm.trans found
      have cleared := keeps _ uses heap 0
      rw [← (pteAddr_page v).2] at cleared
      exact cleared
    · exact hidden_stop _
  next => exact hidden_stop _

/-- The table entry of a page that has no alias. -/
theorem EntryKeeps.own (tables : s.Tables) (low : dirIndex v ≠ 0) (high : dirIndex v ≠ 768)
    (last : dirIndex v ≠ 1023) (uses : Uses pagingFormat s.mem s.dir (dirIndex v) f) :
    EntryKeeps H (insert (pageOf v) stale) s v f := by
  have table : f ≠ s.dir := by
    have apart := tables.table_ne_dir last uses.1
    rw [show (s.mem s.dir (dirIndex v)).address = f from uses.2] at apart
    exact apart
  refine .of_uses table fun page other used same => other (.inl ?_)
  rcases (tables.uses_iff uses).mp used with twin | ⟨-, kernel⟩ | ⟨-, zero⟩
  · exact Prod.ext twin same
  · exact absurd kernel high
  · exact absurd zero low

theorem Windows.own (last : dirIndex v ≠ 1023) : Windows v {pageOf v} := by
  constructor
  · intro same
    exact last (congrArg Prod.fst same).symm
  · intro same
    exact last (congrArg Prod.fst same).symm

theorem windows_empty : Windows v ∅ := ⟨Set.notMem_empty _, Set.notMem_empty _⟩

/-! ### A new table -/

/-- The pages of a directory entry, and the window in which its table appears. -/
def tablePages (i : BitVec 10) : Set Page := {page | page.1 = i ∨ page = (1023, i)}

/-- A new entry of the directory concerns its own pages only. -/
theorem keeps_dirEntry {i : BitVec 10}
    (only : ∀ j ≠ i, Uses pagingFormat s.mem s.dir j s.dir → j = 1023) (w : Entry) :
    Keeps kernelMmu (tablePages i) (s.cached heap)
      ((s.setMem (write s.mem s.dir i w)).cached heap) := by
  constructor
  · intro page outside
    refine lookup_write_dir (fun same => outside (.inl same)) fun window => outside (.inr ?_)
    exact Prod.ext (only _ (fun same => outside (.inl same)) window.1) window.2
  · intro i' j outside
    exact write_of_index_ne s.mem fun same => outside (.inl same)

theorem PagingState.SelfMapped.wordIn (selfMap : s.SelfMapped) (last : dirIndex v ≠ 1023) :
    WordIn s (pdeAddr v) s.dir := by
  intro w
  have index := (pdeAddr_page v).2
  have kept := selfMap.write_dir (i := dirIndex v) last w
  rw [← index] at kept
  exact ⟨_, kept.lookup_pde, kept.2⟩

/-- `page_map` makes a table for entry `i` of the directory, while the placement heap is in the
table `table` that entries 0 and 768 share. -/
structure Growing (s : PagingState) (i : BitVec 10) (table : Frame) : Prop where
  selfMap : s.SelfMapped
  aligned : isPageAligned s.placementHeap = true
  heap : dirIndex s.placementHeap = 768
  slot : s.TableAt s.placementHeap table
  empty : (s.mem table (tableIndex s.placementHeap)).present = false
  shared : s.mem s.dir 0 = s.mem s.dir 768
  low : i ≠ 0
  high : i ≠ 768
  last : i ≠ 1023
  directory : ∀ j ≠ i, Uses pagingFormat s.mem s.dir j s.dir → j = 1023
  kernel : ∀ j ≠ i, Uses pagingFormat s.mem s.dir j table → j = 0 ∨ j = 768
  bound : s.bitmap.wordCount.toNat ≤ 1024
  busy : ∀ f : Frame, s.bitmap.testBit f.toNat = false →
    f ≠ s.dir ∧ f ≠ table ∧ ∀ j ≠ i, ¬Uses pagingFormat s.mem s.dir j f

variable {i : BitVec 10} {table : Frame}

theorem tablePages_windows (last : i ≠ 1023) (other : dirIndex p ≠ i) :
    Windows p (tablePages i) := by
  constructor
  · rintro (same | same)
    · exact last same.symm
    · exact last (congrArg Prod.snd same).symm
  · rintro (same | same)
    · exact last same.symm
    · exact other (congrArg Prod.snd same)

/-- The low view of the slot, which no `flush_tlb` forgets. -/
def lowSlot (s : PagingState) : Set Page := {(0, tableIndex s.placementHeap)}

theorem last_ne_zero : (1023 : BitVec 10) ≠ 0 := by decide

theorem last_ne_kernel : (1023 : BitVec 10) ≠ 768 := by decide

theorem Growing.lookup_lowSlot (growing : Growing s i table) (page : Page)
    (member : page ∈ lowSlot s) : s.lookup page = none := by
  obtain rfl : page = (0, tableIndex s.placementHeap) := member
  have uses : Uses pagingFormat s.mem s.dir (0 : BitVec 10) table := by
    unfold Uses
    rw [growing.shared, ← growing.heap]
    exact growing.slot.uses
  have found : s.lookup (0, tableIndex s.placementHeap) = _ := lookup_of_uses uses
  rw [found]
  exact if_neg (Bool.eq_false_iff.mp growing.empty)

/-- The call of `page_map` by `paging_structure_alloc`. -/
theorem Growing.hidden_slot (growing : Growing s i table)
    (settled : ∀ page ∈ fills, page ∉ tablePages i ∪ lowSlot s) (alloc : KernelProg H (BitVec 32)) :
    Hidden kernelMmu fills (tablePages i) (tablePages i)
      (Cached.pageMapWith alloc physaddr s.placementHeap true false) (s.cached heap) := by
  have other : dirIndex s.placementHeap ≠ i := growing.heap ▸ growing.high.symm
  have windows := tablePages_windows growing.last other
  have clear : Windows s.placementHeap (tablePages i ∪ lowSlot s) := by
    constructor
    · rintro (same | same)
      · exact windows.directory same
      · exact last_ne_zero (congrArg Prod.fst same)
    · rintro (same | same)
      · exact windows.table same
      · exact last_ne_zero (congrArg Prod.fst same)
  refine Hidden.widen growing.lookup_lowSlot ?_ ?_
  · intro j all
    refine .inl fun k => ?_
    rcases all k with old | low
    · exact old
    · exfalso
      -- no other page of entry 0 is in the set
      have zero : j = 0 := congrArg Prod.fst low
      rcases all (k + 1) with (same | same) | same
      · exact growing.low (same.symm.trans zero)
      · exact last_ne_zero ((congrArg Prod.fst same).symm.trans zero)
      · have first : k = tableIndex s.placementHeap := congrArg Prod.snd low
        have second : k + 1 = tableIndex s.placementHeap := congrArg Prod.snd same
        rw [first] at second
        bv_omega
  · refine hidden_pageMapWith growing.selfMap growing.slot ?_ settled ?_ clear alloc
    · refine .of_uses growing.slot.apart fun page outside used same => outside ?_
      by_cases own : page.1 = i
      · exact .inr (.inl (.inl own))
      · rcases growing.kernel page.1 own used with zero | kernel
        · exact .inr (.inr (Prod.ext zero same))
        · exact .inl (Prod.ext (kernel.trans growing.heap.symm) same)
    · constructor
      · rintro (same | member)
        · exact last_ne_kernel ((congrArg Prod.fst same).trans growing.heap)
        · exact clear.directory member
      · rintro (same | member)
        · exact last_ne_kernel ((congrArg Prod.fst same).trans growing.heap)
        · exact clear.table member

/-- A page whose frame is no table is set to zero. -/
theorem hidden_zeroWords (aligned : isPageAligned p = true) (found : s.lookup (pageOf p) = some e)
    (noDir : e.address ≠ s.dir) (own : ¬Uses pagingFormat s.mem s.dir (dirIndex p) e.address)
    (only : ∀ page ∉ stale, ¬Uses pagingFormat s.mem s.dir page.1 e.address)
    (apart : ∀ page ∈ fills, page ∉ away) (other : pageOf p ∉ stale) (clear : pageOf p ∉ away)
    (rest : List Nat) (bound : ∀ i ∈ rest, i < 1024) :
    Hidden kernelMmu fills stale away (zeroWords p rest) (s.cached heap) := by
  induction rest generalizing s with
  | nil => exact hidden_done apart ()
  | cons i rest ih =>
    obtain ⟨page, -⟩ := pageOf_add aligned (bound i List.mem_cons_self)
    show Hidden _ _ _ _ (.store (p + BitVec.ofNat 32 (4 * i)) 0 (zeroWords p rest)) _
    have elsewhere : kernelMmu.page (p + BitVec.ofNat 32 (4 * i)) = pageOf p := page
    refine hidden_store apart (by rwa [elsewhere]) (by rwa [elsewhere]) fun e' found' => ?_
    have same : some e = some e' := found.symm.trans ((congrArg s.lookup page).symm.trans found')
    cases same
    refine ⟨⟨fun q outside => ?_, fun i j outside => write_of_frame_ne s.mem (Ne.symm noDir)⟩, ?_⟩
    · exact lookup_write_of_not (Ne.symm noDir) fun uses => only q outside uses.1
    · refine ih (s := s.setMem (write s.mem e.address (wordIndex (p + BitVec.ofNat 32 (4 * i))) 0))
        ?_ noDir ?_ ?_ fun i member => bound i (List.mem_cons_of_mem _ member)
      · exact (lookup_write_of_not (Ne.symm noDir) fun uses => own uses.1).trans found
      · exact fun uses => own ((uses_write (Ne.symm noDir)).mp uses)
      · exact fun q outside uses => only q outside ((uses_write (Ne.symm noDir)).mp uses)

theorem hidden_takeFrame (apart : ∀ page ∈ fills, page ∉ away)
    (u : State Frame (BitVec 10) Entry (KernelVars H)) :
    Hidden kernelMmu fills stale away takeFrame u := by
  refine (hidden_readVars apart u).bind fun x u₁ _ => ?_
  refine (hidden_ofExcept apart _ u₁).bind fun taken u₂ _ => ?_
  exact Hidden.bind (hidden_assign (hidden_done apart ())) fun _ u₃ _ => hidden_done apart _

/-- `paging_structure_alloc` once it has a frame. -/
theorem Growing.hidden_placeStructure (growing : Growing s i table) (noDir : f ≠ s.dir)
    (unused : ∀ j ≠ i, ¬Uses pagingFormat s.mem s.dir j f)
    (settled : ∀ page ∈ fills, page ∉ tablePages i ∪ lowSlot s) (depth : Nat) :
    Hidden kernelMmu fills (tablePages i) (tablePages i)
      (Cached.placeStructure (Cached.pageMap depth) f) (s.cached heap) := by
  have apart : ∀ page ∈ fills, page ∉ tablePages i :=
    fun page member inside => settled page member (.inl inside)
  have other : dirIndex s.placementHeap ≠ i := growing.heap ▸ growing.high.symm
  have outside : pageOf s.placementHeap ∉ tablePages i := by
    rintro (same | same)
    · exact other same
    · exact last_ne_kernel ((congrArg Prod.fst same).symm.trans growing.heap)
  have bounds : ∀ i ∈ List.range 1024, i < 1024 := fun i member => List.mem_range.mp member
  unfold Cached.placeStructure
  generalize List.range 1024 = words at bounds
  refine (hidden_readVars apart _).bind fun x u ran => ?_
  cases ran
  refine Hidden.bind ?_ fun _ u ran => ?_
  · obtain ⟨alloc, mapping⟩ : ∃ alloc : KernelProg H (BitVec 32),
        Cached.pageMap depth = Cached.pageMapWith alloc := by cases depth <;> exact ⟨_, rfl⟩
    rw [mapping]
    exact growing.hidden_slot settled alloc
  · rw [maps_pageMap depth] at ran
    obtain ⟨s', returned, same⟩ := bind_ok_iff.mp ran
    cases same
    obtain ⟨alloc, mapping⟩ := PagingState.pageMap_eq depth
    rw [mapping] at returned
    obtain ⟨-, -, rfl⟩ := (pageMapWith_table_iff growing.selfMap growing.slot).mp returned
    refine (hidden_readVars apart _).bind fun x u ran => ?_
    cases ran
    refine Hidden.bind ?_ fun _ u ran => ?_
    · have here := growing.slot.write (tableIndex s.placementHeap)
        ((s.mem table (tableIndex s.placementHeap)).mapped (frameAddr f) true false)
      have found : (s.setMem (write s.mem table (tableIndex s.placementHeap)
          ((s.mem table (tableIndex s.placementHeap)).mapped (frameAddr f) true false))).lookup
          (pageOf s.placementHeap) = some _ :=
        (lookup_eq_some here.uses).mpr ⟨Entry.present_mapped _ _ _ _, write_self _⟩
      have address : ((s.mem table (tableIndex s.placementHeap)).mapped (frameAddr f) true
          false).address = f := by rw [Entry.address_mapped, frameOf_frameAddr]
      have kept (j : BitVec 10) (different : j ≠ i) :
          ¬Uses pagingFormat (write s.mem table (tableIndex s.placementHeap)
            ((s.mem table (tableIndex s.placementHeap)).mapped (frameAddr f) true false)) s.dir j
            f := fun uses =>
        unused j different ((uses_write (Ne.symm growing.slot.apart)).mp uses)
      refine hidden_zeroWords growing.aligned found ?_ ?_ ?_ apart outside outside words bounds
      · rw [address]
        exact noDir
      · rw [address]
        exact kept _ other
      · intro page away
        rw [address]
        exact kept page.1 fun own => away (.inl own)
    · refine (hidden_readVars apart u).bind fun x u _ => ?_
      exact Hidden.bind (hidden_assign (hidden_done apart ())) fun _ u _ => hidden_done apart _

/-- `paging_structure_alloc` while `page_map` makes the entry. -/
theorem Growing.hidden_alloc (growing : Growing s i table)
    (settled : ∀ page ∈ fills, page ∉ tablePages i ∪ lowSlot s) (depth : Nat) :
    Hidden kernelMmu fills (tablePages i) (tablePages i) (Cached.pagingStructureAlloc depth)
      (s.cached heap) := by
  have apart : ∀ page ∈ fills, page ∉ tablePages i :=
    fun page member inside => settled page member (.inl inside)
  unfold Cached.pagingStructureAlloc Cached.pagingStructureAllocWith
  refine (hidden_readVars apart _).bind fun x u ran => ?_
  cases ran
  refine (hidden_ofExcept apart _ _).bind fun _ u ran => ?_
  rw [run_ofExcept] at ran
  obtain ⟨_, -, same⟩ := bind_ok_iff.mp ran
  cases same
  refine (hidden_takeFrame apart _).bind fun taken u ran => ?_
  rw [run_takeFrame] at ran
  obtain ⟨⟨pte, bitmap⟩, answer, same⟩ := bind_ok_iff.mp ran
  cases same
  cases pte with
  | none => exact hidden_stop _
  | some pte =>
    obtain ⟨least, rfl⟩ := pageAlloc_some growing.bound answer
    obtain ⟨noDir, -, unused⟩ := growing.busy pte.address least.1.2
    have taken : Growing { s with bitmap := s.bitmap.setBit pte.address.toNat } i table := by
      refine ⟨growing.selfMap, growing.aligned, growing.heap,
        ⟨growing.slot.uses, growing.slot.apart⟩, growing.empty, growing.shared, growing.low,
        growing.high, growing.last, growing.directory, growing.kernel, growing.bound,
        fun f free => growing.busy f ?_⟩
      have bits : (decide (pte.address.toNat = f.toNat) || s.bitmap.testBit f.toNat) = false :=
        (s.bitmap.testBit_setBit _ _).symm.trans free
      exact (Bool.or_eq_false_iff.mp bits).2
    exact taken.hidden_placeStructure noDir unused settled depth

end Treeos
