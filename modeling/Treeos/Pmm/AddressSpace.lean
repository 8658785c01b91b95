import Treeos.Lib.Run
import Treeos.Pmm.BootPaging

/-!
# The address space over runs

Any sequence of `page_map` and `page_unmap` calls, against a ledger of the mappings that
the calls ask for.
-/
namespace Treeos

open PageTable

namespace PagingState

variable {s s' : PagingState} {v physaddr : BitVec 32} {f table : Frame} {rw user : Bool}
  {page : Page} {e : Entry}

/-! ### Which translations a store changes -/

theorem Tables.lookup_alias (tables : s.Tables) (here : s.TableAt v table)
    (same : page ∈ aliases (pageOf v)) :
    (s.setMem (write s.mem table (tableIndex v) e)).lookup page =
      if e.present then some e else none :=
  lookup_write (Ne.symm here.apart) ((tables.uses_iff here.uses).mpr same.1) same.2

theorem Tables.lookup_other (tables : s.Tables) (here : s.TableAt v table)
    (other : page ∉ aliases (pageOf v)) :
    (s.setMem (write s.mem table (tableIndex v) e)).lookup page = s.lookup page :=
  lookup_write_of_not (Ne.symm here.apart) fun same =>
    other ⟨(tables.uses_iff here.uses).mp same.1, same.2⟩

theorem mem_aliases_self : page ∈ aliases page := ⟨.inl rfl, rfl⟩

/-- A new table appears in its slot and in the window of its directory entry; the pages it
will translate are not there yet. -/
theorem Tables.lookup_withTable (tables : s.Tables) (heap : dirIndex s.placementHeap = 768)
    (free : s.bitmap.testBit f.toNat = false) (other : page.1 ≠ dirIndex v)
    (slot : page ∉ aliases (pageOf s.placementHeap)) (window : page ≠ (1023, dirIndex v)) :
    (s.withTable v s.kernelTable f).lookup page = s.lookup page := by
  obtain ⟨apart, unused⟩ := tables.busy free
  have away := tables.kernelTable_ne_dir
  have kernel := (tables.slotAt heap).uses
  -- Away from the new entry the directory is as before.
  have uses (g : Frame) : Uses pagingFormat (write s.mem s.dir (dirIndex v)
      ((s.mem s.dir (dirIndex v)).linked f)) s.dir page.1 g ↔
        Uses pagingFormat s.mem s.dir page.1 g := by
    unfold Uses
    rw [write_of_index_ne _ other]
  obtain ⟨e, filled⟩ : ∃ e, (s.withTable v s.kernelTable f).lookup page =
      PageTable.lookup pagingFormat (write (write s.mem s.dir (dirIndex v)
        ((s.mem s.dir (dirIndex v)).linked f)) s.kernelTable (tableIndex s.placementHeap) e)
        s.dir page := by
    exact ⟨_, lookup_fill (Ne.symm apart) fun used =>
      unused page.1 ((uses f).mp ((uses_write (Ne.symm away)).mp used))⟩
  rw [filled, lookup_write_of_not (Ne.symm away), lookup_write_dir other]
  · rfl
  · rintro ⟨last, same⟩
    exact window (Prod.ext (twin_last ((tables.uses_iff tables.selfMap).mp last)) same)
  · rintro ⟨used, same⟩
    exact slot ⟨(tables.uses_iff kernel).mp ((uses _).mp used), same⟩

namespace PageMapped

theorem tables (mapped : s.PageMapped physaddr v rw user s') (tables : s.Tables) : s'.Tables := by
  cases mapped with
  | entry here allowed absent => exact tables.setMem_table here.apart _ _
  | table absent allowed least slot =>
    exact (tables.withTable absent least.1.2).setMem_table (tables.busy least.1.2).1 _ _

theorem allowed (mapped : s.PageMapped physaddr v rw user s') : s.MapAllowed physaddr v := by
  cases mapped <;> assumption

/-- The placement heap grows by the slot of a new table. -/
theorem heap (mapped : s.PageMapped physaddr v rw user s') : s'.placementHeap =
    if (s.mem s.dir (dirIndex v)).present then s.placementHeap else s.placementHeap + 0x1000 := by
  cases mapped with
  | entry here allowed absent => exact (if_pos here.uses.1).symm
  | table absent allowed least slot => exact (if_neg (by simp [absent])).symm

/-- The page has the frame and the access bits of the call. -/
theorem lookup_self (mapped : s.PageMapped physaddr v rw user s') (tables : s.Tables) :
    ∃ old : Entry, s'.lookup (pageOf v) = some (old.mapped physaddr rw user) := by
  cases mapped with
  | @entry table here allowed absent =>
    refine ⟨s.mem table (tableIndex v), ?_⟩
    rw [tables.lookup_alias here mem_aliases_self, Entry.present_mapped, if_pos rfl]
  | table absent allowed least slot =>
    obtain ⟨apart, -⟩ := tables.busy least.1.2
    refine ⟨0, ?_⟩
    rw [(tables.withTable absent least.1.2).lookup_alias
      (withTable_tableAt tables.kernelTable_ne_dir apart) mem_aliases_self, Entry.present_mapped,
      if_pos rfl]

/-- The pages whose translation can be another one afterwards. -/
theorem changes (mapped : s.PageMapped physaddr v rw user s') (tables : s.Tables)
    (inside : (s.mem s.dir (dirIndex v)).present = true ∨ dirIndex s.placementHeap = 768)
    (changed : s'.lookup page ≠ s.lookup page) : page ∈ aliases (pageOf v) ∨
      (s.mem s.dir (dirIndex v)).present = false ∧
        (page ∈ aliases (pageOf s.placementHeap) ∨ page = (1023, dirIndex v)) := by
  by_contra other
  rw [not_or, not_and, not_or] at other
  obtain ⟨away, rest⟩ := other
  refine changed ?_
  cases mapped with
  | entry here allowed absent => exact tables.lookup_other here away
  | @table f absent allowed least slot =>
    have ⟨apart, unused⟩ := tables.busy least.1.2
    have heap : dirIndex s.placementHeap = 768 := inside.resolve_left (by simp [absent])
    have tables' := tables.withTable (v := v) absent least.1.2
    have table := withTable_tableAt (s := s) (v := v) tables.kernelTable_ne_dir apart
    rw [tables'.lookup_other table away]
    by_cases first : page.1 = dirIndex v
    · -- The new table is empty, as the absent one was.
      have uses : Uses pagingFormat (s.withTable v s.kernelTable f).mem s.dir page.1 f := by
        rw [first]
        exact table.uses
      have before : s.lookup page = none := lookup_of_absent (by rw [first]; exact absent)
      rw [before]
      refine (lookup_of_uses uses).trans ?_
      rw [withTable_mem]
      rfl
    · exact tables.lookup_withTable heap least.1.2 first (rest absent).1 (rest absent).2

/-- A new table appears in the window of the tables. -/
theorem window (mapped : s.PageMapped physaddr v rw user s') (tables : s.Tables)
    (absent : (s.mem s.dir (dirIndex v)).present = false) :
    s'.lookup (1023, dirIndex v) ≠ s.lookup (1023, dirIndex v) := by
  have uses : Uses pagingFormat s.mem s.dir ((1023, dirIndex v) : Page).1 s.dir := tables.selfMap
  have before : s.lookup (1023, dirIndex v) = none := by
    refine (lookup_of_uses uses).trans (if_neg ?_)
    show ¬(s.mem s.dir (dirIndex v)).present = true
    rw [absent]
    decide
  have after := mapped.tables tables
  rw [before, Option.ne_none_iff_exists']
  cases mapped with
  | entry here => exact absurd here.uses.1 (ne_true_of_eq_false absent)
  | @table f _ _ least _ =>
    have apart := (tables.busy least.1.2).1
    have table := (withTable_tableAt (s := s) (v := v) tables.kernelTable_ne_dir apart).write
      (tableIndex v) ((0 : Entry).mapped physaddr rw user)
    have found := after.selfMap.lookup_pte table.uses
    rw [(pteAddr_page v).1] at found
    exact ⟨_, found⟩

end PageMapped

/-! ### `page_unmap` -/

theorem pageUnmap_cases (tables : s.Tables) (last : dirIndex v ≠ 1023)
    (returned : s.pageUnmap v = .ok s') : ∃ table, s.TableAt v table ∧
      isPageAligned v = true ∧ (s.mem table (tableIndex v)).present = true ∧
      s' = s.setMem (write s.mem table (tableIndex v) 0) := by
  unfold pageUnmap at returned
  rw [panicIf_bind_ok_iff, tables.selfMap.loadWord_pde, ok_bind] at returned
  obtain ⟨aligned, returned⟩ := returned
  split at returned
  next present =>
    have table := tables.tableAt last present
    rw [tables.selfMap.loadWord_pte table.uses, ok_bind] at returned
    split at returned
    next here =>
      rw [tables.selfMap.storeWord_pte table.uses] at returned
      cases returned
      exact ⟨_, table, by simpa using aligned, here, rfl⟩
    next => cases returned
  next => cases returned

/-- A page that is mapped can be unmapped. -/
theorem SelfMapped.pageUnmap_of_lookup (selfMap : s.SelfMapped) (aligned : isPageAligned v = true)
    {e : Entry} (found : s.lookup (pageOf v) = some e) :
    s.pageUnmap v = .ok (s.setMem
      (write s.mem (s.mem s.dir (dirIndex v)).address (tableIndex v) 0)) := by
  obtain ⟨uses, same, present⟩ := lookup_some found
  have here : (s.mem s.dir (dirIndex v)).present = true := uses.1
  have entry : s.mem (s.mem s.dir (dirIndex v)).address (tableIndex v) = e := same
  have present : e.present = true := present
  unfold pageUnmap
  rw [panicIf_bind_ok_iff]
  refine ⟨by rw [aligned]; rfl, ?_⟩
  rw [selfMap.loadWord_pde, ok_bind, if_pos here, selfMap.loadWord_pte uses, ok_bind]
  rw [show s.mem (pagingFormat.frame (s.mem s.dir (pageOf v).1)) (tableIndex v) = e from entry,
    if_pos present]
  exact selfMap.storeWord_pte uses

end PagingState

/-! ### Runs against a ledger -/

/-- The calls of a run, and frames that callers allocate in between. -/
inductive PagingEvent where
  | map (physaddr v : BitVec 32) (rw user : Bool)
  | unmap (v : BitVec 32)
  | alloc

/-- Calls that return, on addresses from 4 MiB to below the window of the tables. A call
that takes a slot of the placement heap finds it in the 4 MiB of directory entry 768. -/
inductive MapStep : PagingState → PagingEvent → PagingState → Prop
  | map {s s' : PagingState} {physaddr v : BitVec 32} {rw user : Bool} {depth : Nat}
      (low : 0x400000 ≤ v) (high : v < 0xFFC00000)
      (inside : (s.mem s.dir (dirIndex v)).present = true ∨ s.placementHeap < 0xC0400000)
      (returned : s.pageMap depth physaddr v rw user = .ok s') :
      MapStep s (.map physaddr v rw user) s'
  | unmap {s s' : PagingState} {v : BitVec 32} (low : 0x400000 ≤ v) (high : v < 0xFFC00000)
      (returned : s.pageUnmap v = .ok s') : MapStep s (.unmap v) s'
  | alloc {s : PagingState} {page : Entry} {result : Option Entry} {bitmap : Bitmap}
      (returned : pageAlloc s.bitmap (some page) = .ok (result, bitmap)) :
      MapStep s .alloc { s with bitmap := bitmap }

/-- What a `page_map` call asked for. -/
structure Mapping where
  physaddr : BitVec 32
  rw : Bool
  user : Bool

def PagingEvent.address : PagingEvent → Option (BitVec 32)
  | .map _ v _ _ => some v
  | .unmap v => some v
  | .alloc => none

def PagingEvent.record (ledger : Page → Option Mapping) : PagingEvent → Page → Option Mapping
  | .map physaddr v rw user => Function.update ledger (pageOf v) (some ⟨physaddr, rw, user⟩)
  | .unmap v => Function.update ledger (pageOf v) none
  | .alloc => ledger

/-- The last `page_map` of each page that no `page_unmap` has undone. -/
def ledgerOf (events : List PagingEvent) : Page → Option Mapping :=
  events.foldl PagingEvent.record fun _ => none

/-- A ledger entry and the table entry of the same page. -/
def Agrees : Option Mapping → Option Entry → Prop
  | some mapping, some e =>
    e &&& ~~~0xFFF#32 = mapping.physaddr ∧ e.rw = mapping.rw ∧ e.user = mapping.user
  | none, none => True
  | _, _ => False

/-- The pages whose translation a call may change: that of the call, and for a new table
its slot and its window; each with its alias in the low 4 MiB. -/
def PagingState.changedPages (s : PagingState) : PagingEvent → Set Page
  | .map _ v _ _ => {page | page ∈ aliases (pageOf v) ∨
      (s.mem s.dir (dirIndex v)).present = false ∧
        (page ∈ aliases (pageOf s.placementHeap) ∨ page = (1023, dirIndex v))}
  | .unmap v => aliases (pageOf v)
  | .alloc => ∅

/-- Those of them from 4 MiB to the window of the tables. -/
def PagingState.ownPages (s : PagingState) : PagingEvent → Set Page
  | .map _ v _ _ => {page | page = pageOf v ∨
      (s.mem s.dir (dirIndex v)).present = false ∧ page = pageOf s.placementHeap}
  | .unmap v => {pageOf v}
  | .alloc => ∅

/-- The tables are sound and, outside what `boot.S` mapped and the placement heap, every page
is translated as the ledger says. -/
structure LedgerInv (boot : PagingState) (ledger : Page → Option Mapping) (s : PagingState) :
    Prop where
  tables : s.Tables
  aligned : isPageAligned s.placementHeap = true
  heapLow : boot.placementHeap ≤ s.placementHeap
  heapHigh : s.placementHeap ≤ 0xC0400000
  agrees : ∀ w, 0x400000 ≤ w → w < 0xFFC00000 → boot.lookup (pageOf w) = none →
    ¬(boot.placementHeap ≤ w ∧ w < s.placementHeap) →
    Agrees (ledger (pageOf w)) (s.lookup (pageOf w))

/-! ### Addresses and pages -/

variable {v w : BitVec 32}

theorem dirIndex_ne_zero (low : 0x400000 ≤ w) : dirIndex w ≠ 0 := by
  intro same
  have index := toNat_dirIndex w
  have bound : 0x400000#32 ≤ w := low
  rw [same] at index
  change 0 = _ at index
  bv_omega

theorem dirIndex_ne_last (high : w < 0xFFC00000) : dirIndex w ≠ 1023 := by
  intro same
  have index := toNat_dirIndex w
  have bound : w < 0xFFC00000#32 := high
  rw [same] at index
  change 1023 = _ at index
  bv_omega

theorem dirIndex_high (low : 0xC0000000 ≤ w) (high : w < 0xC0400000) : dirIndex w = 768 := by
  apply BitVec.eq_of_toNat_eq
  have lower : 0xC0000000#32 ≤ w := low
  have upper : w < 0xC0400000#32 := high
  rw [toNat_dirIndex]
  show _ = 768
  bv_omega

theorem pageOf_eq_iff : pageOf w = pageOf v ↔ w.toNat / 4096 = v.toNat / 4096 := by
  have split (a : BitVec 32) : a.toNat / 4096 =
      1024 * (dirIndex a).toNat + (tableIndex a).toNat := by
    rw [toNat_dirIndex, toNat_tableIndex]
    omega
  constructor
  · intro same
    rw [split, split, show dirIndex w = dirIndex v from congrArg Prod.fst same,
      show tableIndex w = tableIndex v from congrArg Prod.snd same]
  · intro same
    have inside (a : BitVec 32) : (tableIndex a).toNat < 1024 := (tableIndex a).isLt
    have first := inside w
    have second := inside v
    rw [split, split] at same
    refine Prod.ext (BitVec.eq_of_toNat_eq ?_) (BitVec.eq_of_toNat_eq ?_)
    · show (dirIndex w).toNat = (dirIndex v).toNat
      omega
    · show (tableIndex w).toNat = (tableIndex v).toNat
      omega

/-- From 4 MiB on, no two pages are aliases of each other. -/
theorem aliases_high (first : 0x400000 ≤ w) (second : 0x400000 ≤ v)
    (same : pageOf w ∈ aliases (pageOf v)) : pageOf w = pageOf v := by
  obtain ⟨rfl' | ⟨zero, -⟩ | ⟨-, zero⟩, index⟩ := same
  · exact Prod.ext rfl' index
  · exact absurd zero (dirIndex_ne_zero first)
  · exact absurd zero (dirIndex_ne_zero second)

/-- Of the pages from 4 MiB to the window of the tables a call changes its own, and the slot
that it takes from the placement heap. -/
theorem PagingState.changedPages_high {s : PagingState} {e : PagingEvent}
    (heap : 0xC0000000 ≤ s.placementHeap) (low : ∀ v ∈ e.address, 0x400000 ≤ v)
    (wLow : 0x400000 ≤ w) (wHigh : w < 0xFFC00000) (changed : pageOf w ∈ s.changedPages e) :
    pageOf w ∈ s.ownPages e := by
  cases e with
  | map physaddr v rw user =>
    rcases changed with own | ⟨absent, slot | window⟩
    · exact .inl (aliases_high wLow (low v rfl) own)
    · refine .inr ⟨absent, aliases_high wLow ?_ slot⟩
      have bound : 0xC0000000#32 ≤ s.placementHeap := heap
      show 0x400000#32 ≤ s.placementHeap
      bv_omega
    · exact absurd (congrArg Prod.fst window) (dirIndex_ne_last wHigh)
  | unmap v => exact aliases_high wLow (low v rfl) changed
  | alloc => exact changed.elim

theorem MapStep.low {s s' : PagingState} {e : PagingEvent} (step : MapStep s e s') :
    ∀ v ∈ e.address, 0x400000 ≤ v := by
  rintro v here
  cases step with
  | map low => cases here; exact low
  | unmap low => cases here; exact low
  | alloc => cases here

/-! ### The run -/

/-- What a call of `page_map` takes from the placement heap lies in its 4 MiB. -/
theorem LedgerInv.heap_bounds {boot s s' : PagingState} {ledger : Page → Option Mapping}
    (inv : LedgerInv boot ledger s) {physaddr v : BitVec 32} {rw user : Bool}
    (inside : (s.mem s.dir (dirIndex v)).present = true ∨ s.placementHeap < 0xC0400000)
    (mapped : PagingState.PageMapped s physaddr v rw user s') :
    s.placementHeap ≤ s'.placementHeap ∧ s'.placementHeap ≤ 0xC0400000 ∧
      isPageAligned s'.placementHeap = true := by
  have slot := isPageAligned_iff.mp inv.aligned
  have upper : s.placementHeap ≤ 0xC0400000#32 := inv.heapHigh
  rw [isPageAligned_iff, mapped.heap]
  split
  next => exact ⟨BitVec.le_refl _, upper, slot⟩
  next absent =>
    have room : s.placementHeap < 0xC0400000#32 := inside.resolve_left absent
    rw [show (0x1000 : BitVec 32) = 0x1000#32 from rfl]
    refine ⟨?_, ?_, ?_⟩ <;> bv_omega

theorem LedgerInv.pageMap {boot s s' : PagingState} {ledger : Page → Option Mapping}
    (high : 0xC0000000 ≤ boot.placementHeap) (inv : LedgerInv boot ledger s)
    {physaddr v : BitVec 32} {rw user : Bool} {depth : Nat} (low : 0x400000 ≤ v)
    (below : v < 0xFFC00000)
    (inside : (s.mem s.dir (dirIndex v)).present = true ∨ s.placementHeap < 0xC0400000)
    (returned : s.pageMap depth physaddr v rw user = .ok s') :
    LedgerInv boot ((PagingEvent.map physaddr v rw user).record ledger) s' ∧
      ∀ page, s'.lookup page ≠ s.lookup page →
        page ∈ s.changedPages (.map physaddr v rw user) := by
  have heap : 0xC0000000 ≤ s.placementHeap := BitVec.le_trans high inv.heapLow
  have inside' := inside.imp_right (dirIndex_high heap)
  have mapped := PagingState.pageMap_cases inv.tables (dirIndex_ne_last below) inside' returned
  have changes (page : Page) (changed : s'.lookup page ≠ s.lookup page) :
      page ∈ s.changedPages (.map physaddr v rw user) := mapped.changes inv.tables inside' changed
  refine ⟨?_, changes⟩
  have grown := mapped.heap
  obtain ⟨grows, bound, aligned⟩ := inv.heap_bounds inside mapped
  refine ⟨mapped.tables inv.tables, aligned, BitVec.le_trans inv.heapLow grows, bound,
    fun w wLow wHigh outside fresh => ?_⟩
  have fresh' : ¬(boot.placementHeap ≤ w ∧ w < s.placementHeap) :=
    fun ⟨first, last⟩ => fresh ⟨first, by bv_omega⟩
  by_cases own : pageOf w = pageOf v
  · obtain ⟨old, found⟩ := mapped.lookup_self inv.tables
    rw [own, found, PagingEvent.record, Function.update_self]
    exact ⟨PagingState.mapped_base _ mapped.allowed.physAligned, Entry.rw_mapped _ _ _ _,
      Entry.user_mapped _ _ _ _⟩
  · rw [PagingEvent.record, Function.update_of_ne own]
    have same : s'.lookup (pageOf w) = s.lookup (pageOf w) := by
      by_contra changed
      have address := (MapStep.map low below inside returned).low
      rcases PagingState.changedPages_high heap address wLow wHigh (changes _ changed) with
        same | ⟨absent, slot⟩
      · exact own same
      · -- The slot belongs to the placement heap from now on.
        rw [pageOf_eq_iff] at slot
        rw [absent, if_neg (by decide)] at grown
        have room : s.placementHeap < 0xC0400000#32 := inside.resolve_left (by simp [absent])
        have slotAligned := isPageAligned_iff.mp inv.aligned
        refine fresh ⟨BitVec.le_trans inv.heapLow ?_, ?_⟩
        · rw [BitVec.le_def]
          omega
        · rw [grown, show (0x1000 : BitVec 32) = 0x1000#32 from rfl]
          bv_omega
    rw [same]
    exact inv.agrees w wLow wHigh outside fresh'

theorem LedgerInv.pageUnmap {boot s s' : PagingState} {ledger : Page → Option Mapping}
    (inv : LedgerInv boot ledger s) {v : BitVec 32} (low : 0x400000 ≤ v) (below : v < 0xFFC00000)
    (returned : s.pageUnmap v = .ok s') :
    LedgerInv boot ((PagingEvent.unmap v).record ledger) s' ∧
      ∀ page, s'.lookup page ≠ s.lookup page → page ∈ s.changedPages (.unmap v) := by
  obtain ⟨table, here, -, -, rfl⟩ :=
    PagingState.pageUnmap_cases inv.tables (dirIndex_ne_last below) returned
  have other (page : Page) (away : page ∉ aliases (pageOf v)) :=
    inv.tables.lookup_other (e := 0) here away
  refine ⟨⟨inv.tables.setMem_table here.apart _ _, inv.aligned, inv.heapLow, inv.heapHigh,
    fun w wLow wHigh outside fresh => ?_⟩, fun page changed => ?_⟩
  · by_cases own : pageOf w = pageOf v
    · rw [own, inv.tables.lookup_alias here PagingState.mem_aliases_self, PagingEvent.record,
        Function.update_self]
      trivial
    · rw [PagingEvent.record, Function.update_of_ne own,
        other _ fun same => own (aliases_high wLow low same)]
      exact inv.agrees w wLow wHigh outside fresh
  · by_contra away
    exact changed (other page away)

theorem LedgerInv.pageAlloc {boot s : PagingState} {ledger : Page → Option Mapping}
    (inv : LedgerInv boot ledger s) {page : Entry} {result : Option Entry} {bitmap : Bitmap}
    (returned : pageAlloc s.bitmap (some page) = .ok (result, bitmap)) :
    LedgerInv boot ledger { s with bitmap := bitmap } := by
  refine ⟨?_, inv.aligned, inv.heapLow, inv.heapHigh, inv.agrees⟩
  cases result with
  | none =>
    rw [pageAlloc_none returned]
    exact inv.tables
  | some page' =>
    obtain ⟨-, rfl⟩ := pageAlloc_some inv.tables.bound returned
    refine inv.tables.congr rfl (fun _ => rfl) rfl fun bit set => ?_
    rw [Bitmap.testBit_setBit, set, Bool.or_true]

/-- One call keeps the ledger in agreement and changes the pages it is meant to change. -/
theorem MapStep.inv {boot s s' : PagingState} {ledger : Page → Option Mapping} {e : PagingEvent}
    (high : 0xC0000000 ≤ boot.placementHeap) (inv : LedgerInv boot ledger s)
    (step : MapStep s e s') : LedgerInv boot (e.record ledger) s' ∧
      ∀ page, s'.lookup page ≠ s.lookup page → page ∈ s.changedPages e := by
  cases step with
  | map low below inside returned => exact inv.pageMap high low below inside returned
  | unmap low below returned => exact inv.pageUnmap low below returned
  | alloc returned => exact ⟨inv.pageAlloc returned, fun page changed => absurd rfl changed⟩

theorem ledgerOf_snoc (events : List PagingEvent) (e : PagingEvent) :
    ledgerOf (events ++ [e]) = e.record (ledgerOf events) := List.foldl_append

theorem run_ledgerInv {boot s : PagingState} {events : List PagingEvent}
    (high : 0xC0000000 ≤ boot.placementHeap) (tables : boot.Tables)
    (aligned : isPageAligned boot.placementHeap = true)
    (below : boot.placementHeap ≤ 0xC0400000) (run : Run.From MapStep boot events s) :
    LedgerInv boot (ledgerOf events) s := by
  refine run.invariant (fun events s => LedgerInv boot (ledgerOf events) s) ?_ ?_
  · refine ⟨tables, aligned, BitVec.le_refl _, below, fun w _ _ outside _ => ?_⟩
    rw [outside]
    trivial
  · intro events s e s' _ inv step
    rw [ledgerOf_snoc]
    exact (step.inv high inv).1

/-! ### What callers see -/

/-- What `virt_to_phys` makes of `w`, and the access bits of its entry. -/
def PagingState.Translates (s : PagingState) (w : BitVec 32) : Option Mapping → Prop
  | some mapping => s.virtToPhys w = .ok (mapping.physaddr + w % 0x1000) ∧
      ∃ e, s.lookup (pageOf w) = some e ∧ e.rw = mapping.rw ∧ e.user = mapping.user
  | none => ∃ format args, s.virtToPhys w = .error (.fmt format args)

theorem offset_eq (w : BitVec 32) : w &&& 0xFFF#32 = w % 0x1000 := by
  apply BitVec.eq_of_toNat_eq
  rw [BitVec.toNat_and, BitVec.toNat_umod]
  exact Nat.and_two_pow_sub_one_eq_mod _ 12

theorem Agrees.translates {s : PagingState} {mapping : Option Mapping}
    (agrees : Agrees mapping (s.lookup (pageOf w))) (selfMap : s.SelfMapped) :
    s.Translates w mapping := by
  cases found : s.lookup (pageOf w) with
  | none =>
    rw [found] at agrees
    cases mapping with
    | none => exact PagingState.virtToPhys_of_none selfMap found
    | some mapping => exact agrees.elim
  | some e =>
    rw [found] at agrees
    cases mapping with
    | none => exact agrees.elim
    | some mapping =>
      obtain ⟨base, rw', user⟩ := agrees
      refine ⟨?_, e, found, rw', user⟩
      rw [PagingState.virtToPhys_of_lookup selfMap found, base, offset_eq]

/-- On the tables of `boot.S`, after any sequence of calls that return: an address that the
kernel and the placement heap leave alone is translated by the last `page_map` of its page,
and the next call changes the translation of the pages it is meant to change only. -/
theorem pageMap_translations (image : BootImage) (fuel : Nat) (enough : 1024 ≤ fuel)
    (m₀ : PhysMem) (clean : ∀ i, m₀ image.dirFrame i = 0 ∧ m₀ image.tableFrame i = 0)
    (bitmap : Bitmap) (inUse : KernelInUse image.toKernelImage bitmap) :
    ∃ m, initBootstrapPaging fuel image m₀ = .ok m ∧
      ∀ events s, Run.From MapStep (BootTables.state image m bitmap) events s →
        (∀ w, 0x400000 ≤ w → w < 0xFFC00000 →
          (BootTables.state image m bitmap).lookup (pageOf w) = none →
          ¬(pagingAllocatorInit image.toKernelImage ≤ w ∧ w < s.placementHeap) →
          s.Translates w (ledgerOf events (pageOf w))) ∧
        ∀ e s', MapStep s e s' →
          (∀ page, s'.lookup page ≠ s.lookup page → page ∈ s.changedPages e) ∧
          ∀ w, 0x400000 ≤ w → w < 0xFFC00000 → s'.lookup (pageOf w) ≠ s.lookup (pageOf w) →
            pageOf w ∈ s.ownPages e := by
  obtain ⟨m, returned, boot⟩ := initBootstrapPaging_eq enough clean
  refine ⟨m, returned, fun events s run => ?_⟩
  have tables := boot.tables inUse
  have heap : (BootTables.state image m bitmap).placementHeap =
      pagingAllocatorInit image.toKernelImage := rfl
  rw [← heap]
  obtain ⟨aligned, high, below⟩ := image.placementHeap_bounds
  rw [← heap] at aligned high below
  generalize BootTables.state image m bitmap = boot at *
  have inv := run_ledgerInv high tables aligned below run
  refine ⟨fun w low last outside fresh => ?_, fun e s' step => ?_⟩
  · exact (inv.agrees w low last outside fresh).translates inv.tables.selfMap
  · have changes := (step.inv high inv).2
    refine ⟨changes, fun w low last changed => ?_⟩
    exact PagingState.changedPages_high (BitVec.le_trans high inv.heapLow) step.low low last
      (changes _ changed)

-- 8 MiB of memory, of which the first 4 MiB are in use
def lowInUse : Bitmap := ⟨64, fun word => if word < 32 then BitVec.allOnes 32 else 0, 0⟩

theorem lowInUse_testBit (bit : Nat) : lowInUse.testBit bit = decide (bit < 1024) := by
  rw [Bitmap.testBit_eq]
  show (if bit / bitsPerWord < 32 then BitVec.allOnes 32 else 0#32).getLsbD _ = _
  unfold bitsPerWord
  split
  next low =>
    rw [BitVec.getLsbD_allOnes, decide_eq_decide]
    omega
  next high =>
    rw [BitVec.getLsbD_zero, eq_comm, decide_eq_false_iff_not]
    omega

theorem lowInUse_kernel : KernelInUse smallImage lowInUse := by
  refine ⟨by decide, fun f reserved => ?_⟩
  have bounds : 0x100 ≤ f ∧ f ≤ 0x100 + 0x10 := mem_regionPages.mp reserved
  rw [lowInUse_testBit, decide_eq_true_iff]
  omega

theorem lowInUse_least : IsLeast lowInUse.clearBits (1024#20).toNat := by
  refine ⟨⟨by decide, by rw [lowInUse_testBit]; decide⟩, fun bit free => ?_⟩
  have clear := free.2
  rw [lowInUse_testBit, decide_eq_false_iff_not] at clear
  exact Nat.le_of_not_lt clear

theorem smallBoot_absent {m : PhysMem} (boot : BootTables smallBoot m) :
    (m smallBoot.dirFrame 1).present = false := by
  rw [boot.directory, if_neg (by decide), if_neg (by decide)]
  rfl

/-- A first page below an absent directory entry, for which `page_map` makes a table. -/
theorem smallBoot_newTable {m : PhysMem} (boot : BootTables smallBoot m) {bitmap : Bitmap}
    (inUse : KernelInUse smallImage bitmap) {f : Frame} (least : IsLeast bitmap.clearBits f.toNat)
    {physaddr v : BitVec 32} (allowed : (BootTables.state smallBoot m bitmap).MapAllowed physaddr v)
    (last : dirIndex v ≠ 1023) (absent : (m smallBoot.dirFrame (dirIndex v)).present = false) :
    ∃ s', (BootTables.state smallBoot m bitmap).PageMapped physaddr v true false s' ∧
      (BootTables.state smallBoot m bitmap).pageMap 1 physaddr v true false = .ok s' := by
  have tables := boot.tables inUse
  have kernel : (BootTables.state smallBoot m bitmap).kernelTable = smallBoot.tableFrame := by
    show (m smallBoot.dirFrame 768).address = _
    rw [boot.directory, if_pos (.inr rfl), address_bootEntry]
  have heap : (BootTables.state smallBoot m bitmap).placementHeap = 0xC0111000 := by
    show pagingAllocatorInit smallImage = _
    decide
  have slot : ((BootTables.state smallBoot m bitmap).mem
      (BootTables.state smallBoot m bitmap).kernelTable 0x111).present = false := by
    rw [kernel]
    show (m smallBoot.tableFrame 0x111).present = false
    rw [boot.table, if_neg (by decide)]
    rfl
  have mapped := @PagingState.PageMapped.table _ _ _ true false _ absent allowed least
    (by rw [heap]; exact slot)
  exact ⟨_, mapped, mapped.returned tables last (by rw [heap]; decide)
    (.inr (by rw [heap]; decide)) 0⟩

theorem smallBoot_pageMap {m : PhysMem} (boot : BootTables smallBoot m) {v : BitVec 32}
    (aligned : isPageAligned v = true) (last : dirIndex v ≠ 1023)
    (absent : (m smallBoot.dirFrame (dirIndex v)).present = false) :
    ∃ s', (BootTables.state smallBoot m lowInUse).PageMapped 0x100000 v true false s' ∧
      (BootTables.state smallBoot m lowInUse).pageMap 1 0x100000 v true false = .ok s' :=
  smallBoot_newTable boot lowInUse_kernel lowInUse_least
    ⟨by decide, aligned, (lowInUse_testBit _).trans (by decide)⟩ last absent

/-- A first page at 4 MiB. -/
theorem smallBoot_mapped {m : PhysMem} (boot : BootTables smallBoot m) :
    ∃ s', (BootTables.state smallBoot m lowInUse).PageMapped 0x100000 0x400000 true false s' ∧
      MapStep (BootTables.state smallBoot m lowInUse) (.map 0x100000 0x400000 true false) s' := by
  obtain ⟨s', mapped, returned⟩ :=
    smallBoot_pageMap boot (v := 0x400000) (by decide) (by decide) (smallBoot_absent boot)
  refine ⟨s', mapped, .map (by decide) (by decide) (.inr ?_) returned⟩
  show pagingAllocatorInit smallImage < 0xC0400000
  decide

/-- The new table of that page is seen at 0xFFC01000 as well, which is neither the page nor
the slot. -/
theorem newTable_window : ∃ m, initBootstrapPaging 1024 smallBoot (fun _ _ => 0) = .ok m ∧
    KernelInUse smallImage lowInUse ∧ ∃ s',
      MapStep (BootTables.state smallBoot m lowInUse) (.map 0x100000 0x400000 true false) s' ∧
      s'.lookup (pageOf 0xFFC01000) ≠
        (BootTables.state smallBoot m lowInUse).lookup (pageOf 0xFFC01000) ∧
      pageOf 0xFFC01000 ≠ pageOf 0x400000 ∧
      pageOf 0xFFC01000 ≠ pageOf (pagingAllocatorInit smallImage) := by
  obtain ⟨m, returned, boot⟩ := smallBoot_tables
  obtain ⟨s', mapped, step⟩ := smallBoot_mapped boot
  have window := mapped.window (boot.tables lowInUse_kernel) (smallBoot_absent boot)
  exact ⟨m, returned, lowInUse_kernel, s', step, window, by decide, by decide⟩

theorem smallBoot_translations : ∃ m s',
    initBootstrapPaging 1024 smallBoot (fun _ _ => 0) = .ok m ∧
    MapStep (BootTables.state smallBoot m lowInUse) (.map 0x100000 0x400000 true false) s' ∧
    s'.virtToPhys 0x400123 = .ok 0x100123 := by
  obtain ⟨m, returned, runs⟩ := pageMap_translations smallBoot 1024 (Nat.le_refl 1024)
    (fun _ _ => 0) (fun _ => ⟨rfl, rfl⟩) lowInUse lowInUse_kernel
  obtain ⟨m', returned', boot⟩ := smallBoot_tables
  obtain rfl : m = m' := Except.ok.inj (returned.symm.trans returned')
  obtain ⟨s', mapped, step⟩ := smallBoot_mapped boot
  have absent : (BootTables.state smallBoot m lowInUse).lookup (pageOf 0x400123) = none :=
    lookup_of_absent (smallBoot_absent boot)
  have translates := (runs _ s' (.single step)).1 0x400123 (by decide) (by decide) absent
    fun inside => absurd inside.1 (by decide)
  have recorded : ledgerOf [.map 0x100000 0x400000 true false] (pageOf 0x400123) =
      some ⟨0x100000, true, false⟩ := rfl
  rw [recorded] at translates
  exact ⟨m, s', returned, step, translates.1⟩

end Treeos
