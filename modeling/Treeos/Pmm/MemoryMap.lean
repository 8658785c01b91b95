import Treeos.Lib.Linked
import Treeos.Pmm.Init

/-!
# The walk over the memory map

Which bytes the loop of `parse_memory_map` reads, and for which maps it ends inside the
buffer of the boot loader. The loop follows the size fields and trusts them: to it the map is
a linked list, whose links are relative.
-/
namespace Treeos

open ByteMemory

/-- The bytes of the entry at `a` that the loop reads: `size`, `addr` and `type`. -/
def entryBytes (a : BitVec 32) : Set (BitVec 32) := Span a 12 ∪ Span (a + 20) 4

/-- The entries at which the first `fuel` rounds of the loop stop by. -/
def visitedEntries (m : Memory) (mbi : MultibootInfo) : Nat → BitVec 32 → List (BitVec 32)
  | 0, _ => []
  | fuel + 1, mmap =>
    if mmap < mbi.mmapAddr + mbi.mmapLength then
      mmap :: visitedEntries m mbi fuel (mmap + load32 m mmap + 4)
    else []

/-- Address `x` belongs to the buffer of the memory map. -/
def MultibootInfo.InMmap (mbi : MultibootInfo) (x : BitVec 32) : Prop :=
  mbi.mmapAddr.toNat ≤ x.toNat ∧ x.toNat < mbi.mmapAddr.toNat + mbi.mmapLength.toNat

/-- The loop ends, and on its way reads nothing but bytes of the buffer. -/
structure MmapWalk (m : Memory) (mbi : MultibootInfo) : Prop where
  returns : ∀ bm, ∃ fuel bm', parseMemoryMap m mbi fuel mbi.mmapAddr bm = .ok bm'
  inside : ∀ fuel, ∀ a ∈ visitedEntries m mbi fuel mbi.mmapAddr, ∀ x ∈ entryBytes a, mbi.InMmap x

/-- What the loop finds at `a`: an entry, or that the map is over. -/
def entryAt (mbi : MultibootInfo) (a : BitVec 32) : Option (BitVec 32) :=
  if a < mbi.mmapAddr + mbi.mmapLength then some a else none

/-- What the size field of the entry at `a` leads to. -/
def nextEntry (m : Memory) (mbi : MultibootInfo) (a : BitVec 32) : Option (BitVec 32) :=
  entryAt mbi (a + load32 m a + 4)

/-- The size fields lead from the first entry to the one at `a`. -/
def EntryReached (m : Memory) (mbi : MultibootInfo) (a : BitVec 32) : Prop :=
  Linked.Reaches (nextEntry m mbi) (entryAt mbi mbi.mmapAddr) a

/-- The size fields lead from the entry at `a` to itself. -/
def EntryRepeats (m : Memory) (mbi : MultibootInfo) (a : BitVec 32) : Prop :=
  Relation.TransGen (Linked.Leads (nextEntry m mbi)) a a

/-- The places of the entries of a map, one behind the other from `a` on. -/
def entryPlaces : BitVec 32 → List MmapEntry → List (BitVec 32)
  | _, [] => []
  | a, e :: es => a :: entryPlaces (a + e.size + 4) es

variable {m m' : Memory} {mbi : MultibootInfo} {fuel : Nat} {a : BitVec 32}

theorem load32_entry {k : BitVec 32} (small : k.toNat ≤ 8 ∨ k = 20)
    (same : ∀ x ∈ entryBytes a, m' x = m x) : load32 m' (a + k) = load32 m (a + k) := by
  refine load32_congr fun x inside => same x ?_
  rcases small with front | rfl
  · exact .inl (span_mono (by omega) (span_shift k inside))
  · exact .inr inside

/-- The loop depends on no other byte of memory. -/
theorem parseMemoryMap_congr {bm : Bitmap}
    (same : ∀ b ∈ visitedEntries m mbi fuel a, ∀ x ∈ entryBytes b, m' x = m x) :
    parseMemoryMap m' mbi fuel a bm = parseMemoryMap m mbi fuel a bm := by
  induction fuel generalizing a bm with
  | zero =>
    unfold parseMemoryMap
    rfl
  | succ fuel ih =>
    unfold parseMemoryMap
    unfold visitedEntries at same
    split
    next more =>
      rw [if_pos more] at same
      -- a round reads the size, the low word of the address and the type, but not `len`
      have here := same a List.mem_cons_self
      have size : load32 m' a = load32 m a := by
        simpa using load32_entry (k := 0) (.inl (by decide)) here
      have addr : load64 m' (a + 4) = load64 m (a + 4) := by
        have high := load32_entry (k := 8) (.inl (by decide)) here
        have next : a + 4 + 4 = a + 8 := by rw [BitVec.add_assoc]; rfl
        rw [load64, load64, next, high, load32_entry (.inl (by decide)) here]
      rw [size, addr, load32_entry (.inr rfl) here]
      exact ih fun b later => same b (List.mem_cons_of_mem _ later)
    next => rfl

theorem entryAt_eq_some {b : BitVec 32} : entryAt mbi a = some b ↔
    a < mbi.mmapAddr + mbi.mmapLength ∧ b = a := by
  unfold entryAt
  split
  next more => simp [more, eq_comm]
  next behind => simp [behind]

/-- The loop visits the list of the entries from its front. -/
theorem visitedEntries_eq {places : List (BitVec 32)}
    (chain : Linked.Chain (nextEntry m mbi) (entryAt mbi a) places) (fuel : Nat) :
    visitedEntries m mbi fuel a = places.take fuel := by
  induction fuel generalizing a places with
  | zero => rfl
  | succ fuel ih =>
    unfold visitedEntries
    cases places with
    | nil =>
      rw [if_neg]
      · rfl
      · intro more
        rw [entryAt, if_pos more] at chain
        cases chain
    | cons b rest =>
      obtain ⟨more, rfl⟩ := entryAt_eq_some.mp chain.1
      rw [if_pos more, ih chain.2]
      rfl

/-- A list of entries is enough for the loop to end, after as many rounds. -/
theorem parseMemoryMap_ends {places : List (BitVec 32)}
    (chain : Linked.Chain (nextEntry m mbi) (entryAt mbi a) places) (bm : Bitmap) :
    ∃ bm', parseMemoryMap m mbi places.length a bm = .ok bm' := by
  induction places generalizing a bm with
  | nil =>
    unfold parseMemoryMap
    refine ⟨bm, if_neg fun more => ?_⟩
    rw [entryAt, if_pos more] at chain
    cases chain
  | cons b rest ih =>
    obtain ⟨more, rfl⟩ := entryAt_eq_some.mp chain.1
    rw [List.length_cons]
    unfold parseMemoryMap
    rw [if_pos more]
    exact ih chain.2 _

/-- A loop that returned has come to the end of the list. -/
theorem chain_of_returned {bm bm' : Bitmap}
    (returned : parseMemoryMap m mbi fuel a bm = .ok bm') :
    Linked.Chain (nextEntry m mbi) (entryAt mbi a) (visitedEntries m mbi fuel a) := by
  induction fuel generalizing a bm with
  | zero =>
    unfold parseMemoryMap at returned
    split at returned
    next => cases returned
    next behind => exact if_neg behind
  | succ fuel ih =>
    unfold parseMemoryMap at returned
    unfold visitedEntries
    split at returned
    next more =>
      rw [if_pos more]
      exact ⟨if_pos more, ih returned⟩
    next behind =>
      rw [if_neg behind]
      exact if_neg behind

instance addresses_finite : Finite (BitVec 32) :=
  Finite.of_injective BitVec.toFin fun _ _ => BitVec.toFin_inj.mp

/-- The walk goes well exactly when the entries that it gets to are complete and none of them
leads back to itself. -/
theorem mmapWalk_entries : MmapWalk m mbi ↔ ∀ a, EntryReached m mbi a →
    (∀ x ∈ entryBytes a, mbi.InMmap x) ∧ ¬EntryRepeats m mbi a := by
  constructor
  · intro walk a reached
    -- where the loop goes does not depend on the bitmap, so any run will do
    obtain ⟨fuel, bm', returned⟩ := walk.returns ⟨0, fun _ => 0, 0⟩
    have chain := chain_of_returned returned
    have member := (chain.reaches_iff a).mp reached
    exact ⟨walk.inside fuel a member, chain.not_leads_self member⟩
  · intro entries
    -- there are only so many addresses, so without a cycle the entries form a list
    obtain ⟨places, chain⟩ := Linked.exists_chain_iff.mpr fun a reached => (entries a reached).2
    refine ⟨fun bm => ⟨places.length, parseMemoryMap_ends chain bm⟩, fun fuel a visited => ?_⟩
    rw [visitedEntries_eq chain] at visited
    exact (entries a ((chain.reaches_iff a).mpr (List.mem_of_mem_take visited))).1

/-- The entries of a map of the boot loader are linked one to the next. -/
theorem MmapHolds.chain {entries : List MmapEntry}
    (holds : MmapHolds m (mbi.mmapAddr + mbi.mmapLength) a entries) :
    Linked.Chain (nextEntry m mbi) (entryAt mbi a) (entryPlaces a entries) := by
  induction entries generalizing a with
  | nil =>
    obtain rfl : a = mbi.mmapAddr + mbi.mmapLength := holds
    exact if_neg (BitVec.lt_irrefl _)
  | cons e entries ih =>
    obtain ⟨⟨size, -⟩, fits, rest⟩ := holds
    refine ⟨if_pos ?_, ?_⟩
    · rw [BitVec.lt_def]
      omega
    · have link : nextEntry m mbi a = entryAt mbi (a + e.size + 4) := by rw [nextEntry, size]
      rw [link]
      exact ih rest

/-- A complete entry lies in front of the end of the map. -/
theorem MmapHolds.inside {entries : List MmapEntry}
    (holds : MmapHolds m (mbi.mmapAddr + mbi.mmapLength) a entries)
    (complete : ∀ e ∈ entries, 20 ≤ e.size.toNat) (front : mbi.mmapAddr ≤ a)
    (whole : mbi.mmapAddr.toNat + mbi.mmapLength.toNat < 2 ^ 32) :
    ∀ b ∈ entryPlaces a entries, ∀ x ∈ entryBytes b, mbi.InMmap x := by
  induction entries generalizing a with
  | nil => exact fun b none => by cases none
  | cons e entries ih =>
    obtain ⟨-, fits, rest⟩ := holds
    have stop : (mbi.mmapAddr + mbi.mmapLength).toNat = mbi.mmapAddr.toNat + mbi.mmapLength.toNat :=
      (BitVec.toNat_add _ _).trans (Nat.mod_eq_of_lt whole)
    have enough := complete e List.mem_cons_self
    rw [BitVec.le_def] at front
    refine List.forall_mem_cons.mpr ⟨fun x inside => ?_, ?_⟩
    · have offset : (x - a).toNat < 24 := by
        rcases inside with head | type
        · exact Nat.lt_trans head (by decide)
        · exact span_shift 20 type
      have above : x.toNat = a.toNat + (x - a).toNat := by bv_omega
      constructor <;> omega
    · refine ih rest (fun e later => complete e (List.mem_cons_of_mem _ later)) ?_
      have next : (a + e.size + 4).toNat = a.toNat + e.size.toNat + 4 := by bv_omega
      rw [BitVec.le_def, next]
      omega

/-- An entry whose size field is -4. -/
def loopMemory : Memory := store32 (fun _ => 0) 0x10000 0xFFFFFFFC

end Treeos
