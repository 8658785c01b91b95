import Treeos.Lib.Records
import Treeos.Panic

/-!
# liballoc

`kmalloc`, `kfree`, `kcalloc` and `krealloc` of `klibc/liballoc/liballoc.c`, over the hooks
that its host implements. Bytes are read and written one by one, so that a field may lie
anywhere. What is printed is left out.
-/
namespace Treeos

open ByteMemory

/-- The memory that liballoc reads and writes, and the two hooks for whole pages. -/
structure Hooks (σ : Type) where
  load8 : σ → BitVec 32 → Except Panic (BitVec 8)
  store8 : σ → BitVec 32 → BitVec 8 → Except Panic σ
  liballocAlloc : σ → BitVec 32 → Except Panic (BitVec 32 × σ)
  liballocFree : σ → BitVec 32 → BitVec 32 → Except Panic (BitVec 32 × σ)

/-- The variables of `liballoc.c`, and of `liballoc_lock`. -/
structure Liballoc (σ : Type) where
  host : σ
  memRoot : BitVec 32
  bestBet : BitVec 32
  allocated : BitVec 64
  inuse : BitVec 64
  warningCount : BitVec 64
  errorCount : BitVec 64
  possibleOverruns : BitVec 64
  interruptFlag : Bool
  enableInt : Bool

/-! ### `struct liballoc_major` and `struct liballoc_minor` -/

namespace MajorField
abbrev prev : Nat := 0
abbrev next : Nat := 1
abbrev pages : Nat := 2
abbrev size : Nat := 3
abbrev usage : Nat := 4
abbrev first : Nat := 5
end MajorField

namespace MinorField
abbrev prev : Nat := 0
abbrev next : Nat := 1
abbrev block : Nat := 2
abbrev magic : Nat := 3
abbrev size : Nat := 4
abbrev reqSize : Nat := 5
end MinorField

-- `LIBALLOC_MAGIC` and `LIBALLOC_DEAD`
def liballocMagic : BitVec 32 := 0xc001c0de#32
def liballocDead : BitVec 32 := 0xdeaddead#32

namespace Liballoc

variable {σ : Type} (K : Hooks σ)

/-- Field `i` of the structure at `p`. -/
def load (s : Liballoc σ) (p : BitVec 32) (i : Nat) : Except Panic (BitVec 32) := do
  let b₀ ← K.load8 s.host (field p i)
  let b₁ ← K.load8 s.host (field p i + 1)
  let b₂ ← K.load8 s.host (field p i + 2)
  let b₃ ← K.load8 s.host (field p i + 3)
  .ok (b₃ ++ b₂ ++ b₁ ++ b₀)

def store8 (s : Liballoc σ) (a : BitVec 32) (b : BitVec 8) : Except Panic (Liballoc σ) := do
  let host ← K.store8 s.host a b
  .ok { s with host := host }

def store (s : Liballoc σ) (p : BitVec 32) (i : Nat) (v : BitVec 32) :
    Except Panic (Liballoc σ) := do
  let s ← s.store8 K (field p i) (v.setWidth 8)
  let s ← s.store8 K (field p i + 1) ((v >>> 8).setWidth 8)
  let s ← s.store8 K (field p i + 2) ((v >>> 16).setWidth 8)
  s.store8 K (field p i + 3) ((v >>> 24).setWidth 8)

/-- Stores to the fields of the structure at `p`, in this order. -/
def storeAll (s : Liballoc σ) (p : BitVec 32) (fields : List (Nat × BitVec 32)) :
    Except Panic (Liballoc σ) :=
  fields.foldlM (fun s (i, v) => s.store K p i v) s

/-! ### The lock -/

/-- `liballoc_lock` -/
def lock (s : Liballoc σ) : Except Panic (Liballoc σ) :=
  if s.interruptFlag then do
    -- `int_disable`
    kassert s.interruptFlag "int_enabled()"
    .ok { s with enableInt := true, interruptFlag := false }
  else .ok { s with enableInt := false }

/-- `liballoc_unlock` -/
def unlock (s : Liballoc σ) : Except Panic (Liballoc σ) :=
  if s.enableInt then do
    -- `int_enable`
    kassert (!s.interruptFlag) "!int_enabled()"
    .ok { s with interruptFlag := true }
  else .ok s

/-! ### Alignment -/

/-- `ALIGN` -/
def align (s : Liballoc σ) (ptr : BitVec 32) : Except Panic (BitVec 32 × Liballoc σ) := do
  let ptr := ptr + 16
  let diff := ptr &&& 15
  let (ptr, diff) := if diff ≠ 0 then (ptr + (16 - diff), 16 - diff) else (ptr, diff)
  let s ← s.store8 K (ptr - 16) ((diff + 16).setWidth 8)
  .ok (ptr, s)

/-- `UNALIGN`, where `char` is signed -/
def unalign (s : Liballoc σ) (ptr : BitVec 32) : Except Panic (BitVec 32) := do
  let b ← K.load8 s.host (ptr - 16)
  let diff := b.signExtend 32
  .ok (if diff < 32 then ptr - diff else ptr)

/-! ### `kmalloc` -/

/-- The number of pages that `allocate_new_page` asks for. -/
def pagesFor (size : BitVec 32) : BitVec 32 :=
  -- This is how much space is required.
  let st := size + 24 + 24
  let st := if st % 4096 = 0 then st / 4096 else st / 4096 + 1
  -- Make sure it's >= the minimum size.
  if st < 16 then 16 else st

/-- `allocate_new_page` -/
def allocateNewPage (s : Liballoc σ) (size : BitVec 32) :
    Except Panic (BitVec 32 × Liballoc σ) := do
  let st := pagesFor size
  let (maj, host) ← K.liballocAlloc s.host st
  let s := { s with host := host }
  if maj = 0 then .ok (0, { s with warningCount := s.warningCount + 1 })
  else do
    let s ← s.storeAll K maj [(MajorField.prev, 0), (MajorField.next, 0),
      (MajorField.pages, st), (MajorField.size, st * 4096), (MajorField.usage, 24),
      (MajorField.first, 0)]
    .ok (maj, { s with allocated := s.allocated + (st * 4096).setWidth 64 })

/-- The end of the cases that have found space: the accounting, and the pointer behind the
header at `min`. -/
def claim (s : Liballoc σ) (maj min size : BitVec 32) :
    Except Panic (BitVec 32 × Liballoc σ) := do
  let usage ← s.load K maj MajorField.usage
  let s ← s.store K maj MajorField.usage (usage + (size + 24))
  let s := { s with inuse := s.inuse + size.setWidth 64 }
  let (p, s) ← s.align K (min + 24)
  let s ← s.unlock
  .ok (p, s)

/-- CASE 2: It's a brand new block. -/
def case2 (s : Liballoc σ) (reqSize size maj : BitVec 32) :
    Except Panic (BitVec 32 × Liballoc σ) := do
  let s ← s.store K maj MajorField.first (maj + 24)
  let first ← s.load K maj MajorField.first
  let s ← s.storeAll K first [(MinorField.magic, liballocMagic), (MinorField.prev, 0),
    (MinorField.next, 0), (MinorField.block, maj), (MinorField.size, size),
    (MinorField.reqSize, reqSize)]
  s.claim K maj first size

/-- CASE 3: Block in use and enough space at the start of the block. -/
def case3 (s : Liballoc σ) (reqSize size maj : BitVec 32) :
    Except Panic (BitVec 32 × Liballoc σ) := do
  let first ← s.load K maj MajorField.first
  let s ← s.store K first MinorField.prev (maj + 24)
  let min ← s.load K first MinorField.prev
  let s ← s.store K min MinorField.next first
  let s ← s.store K maj MajorField.first min
  let s ← s.storeAll K min [(MinorField.magic, liballocMagic), (MinorField.prev, 0),
    (MinorField.block, maj), (MinorField.size, size), (MinorField.reqSize, reqSize)]
  s.claim K maj min size

/-- CASE 4.1: End of minors in a block. -/
def case41 (s : Liballoc σ) (reqSize size maj min : BitVec 32) :
    Except Panic (BitVec 32 × Liballoc σ) := do
  let minSize ← s.load K min MinorField.size
  let s ← s.store K min MinorField.next (min + 24 + minSize)
  let next ← s.load K min MinorField.next
  let s ← s.store K next MinorField.prev min
  let s ← s.storeAll K next [(MinorField.next, 0), (MinorField.magic, liballocMagic),
    (MinorField.block, maj), (MinorField.size, size), (MinorField.reqSize, reqSize)]
  s.claim K maj next size

/-- CASE 4.2: Is there space between two minors? -/
def case42 (s : Liballoc σ) (reqSize size maj min : BitVec 32) :
    Except Panic (BitVec 32 × Liballoc σ) := do
  let minSize ← s.load K min MinorField.size
  let next ← s.load K min MinorField.next
  let newMin := min + 24 + minSize
  let s ← s.storeAll K newMin [(MinorField.magic, liballocMagic), (MinorField.next, next),
    (MinorField.prev, min), (MinorField.size, size), (MinorField.reqSize, reqSize),
    (MinorField.block, maj)]
  let s ← s.store K next MinorField.prev newMin
  let s ← s.store K min MinorField.next newMin
  s.claim K maj newMin size

/-- CASE 4: There is enough space in this block. But is it contiguous? The loop over the
minors, from `min` on. -/
def case4 : Nat → Liballoc σ → BitVec 32 → BitVec 32 → BitVec 32 → BitVec 32 →
    Except Panic (Option (BitVec 32 × Liballoc σ))
  | 0, _, _, _, _, _ => .error .fuel
  | fuel + 1, s, reqSize, size, maj, min =>
    if min = 0 then .ok none
    else do
      let next ← s.load K min MinorField.next
      let minSize ← s.load K min MinorField.size
      if next = 0 then
        -- the rest of this block is free... is it big enough?
        let majSize ← s.load K maj MajorField.size
        if size + 24 ≤ maj + majSize - min - 24 - minSize then do
          let found ← s.case41 K reqSize size maj min
          .ok (some found)
        else case4 fuel s reqSize size maj next
      else
        -- is the difference between here and next big enough?
        if size + 24 ≤ next - min - 24 - minSize then do
          let found ← s.case42 K reqSize size maj min
          .ok (some found)
        else case4 fuel s reqSize size maj next

/-- CASE 2 to CASE 4, in the block `maj`. -/
def place (fuel : Nat) (s : Liballoc σ) (reqSize size maj : BitVec 32) :
    Except Panic (Option (BitVec 32 × Liballoc σ)) := do
  let first ← s.load K maj MajorField.first
  if first = 0 then do
    let found ← s.case2 K reqSize size maj
    .ok (some found)
  else if size + 24 ≤ first - maj - 24 then do
    let found ← s.case3 K reqSize size maj
    .ok (some found)
  else case4 K fuel s reqSize size maj first

/-- Where the search goes on when a block has no space. -/
inductive MoveOn (σ : Type) where
  -- another block, or the first one again
  | visit (maj : BitVec 32) (startedBet : Bool) (s : Liballoc σ)
  -- a new block behind the last one
  | fresh (maj : BitVec 32) (s : Liballoc σ)
  | noMemory (s : Liballoc σ)

/-- What CASE 1 and CASE 5 do with a block that has no space. -/
def moveOn (s : Liballoc σ) (size maj : BitVec 32) (startedBet : Bool) :
    Except Panic (MoveOn σ) := do
  let next ← s.load K maj MajorField.next
  if next ≠ 0 then .ok (.visit next startedBet s)
  -- If we started at the best bet, let's start all over again.
  else if startedBet then .ok (.visit s.memRoot false s)
  else do
    let (page, s) ← s.allocateNewPage K size
    let s ← s.store K maj MajorField.next page
    if page = 0 then .ok (.noMemory s)
    else do
      let s ← s.store K page MajorField.prev maj
      .ok (.fresh page s)

/-- How a round of the loop of `kmalloc` ends. -/
inductive Round (σ : Type) where
  | found (p : BitVec 32) (s : Liballoc σ)
  | visit (maj : BitVec 32) (startedBet : Bool) (s : Liballoc σ)
  | noMemory (s : Liballoc σ)

/-- CASE 2 to CASE 5 -/
def placeOrMove (fuel : Nat) (s : Liballoc σ) (reqSize size maj : BitVec 32)
    (startedBet : Bool) : Except Panic (Round σ) := do
  match ← s.place K fuel reqSize size maj with
  | some (p, s) => .ok (.found p s)
  | none =>
    -- CASE 5: Block full! Ensure next block and loop.
    match ← s.moveOn K size maj startedBet with
    | .visit maj startedBet s => .ok (.visit maj startedBet s)
    | .fresh maj s => .ok (.visit maj startedBet s)
    | .noMemory s => .ok (.noMemory s)

/-- CASE 1 to CASE 5, for a block with `diff` bytes of free memory. -/
def mallocRound (fuel : Nat) (s : Liballoc σ) (reqSize size maj diff : BitVec 32)
    (startedBet : Bool) : Except Panic (Round σ) :=
  if diff < size + 24 then do
    -- CASE 1: There is not enough space in this major block.
    match ← s.moveOn K size maj startedBet with
    | .visit maj startedBet s => .ok (.visit maj startedBet s)
    -- .. fall through to CASE 2 ..
    | .fresh maj s => s.placeOrMove K fuel reqSize size maj startedBet
    | .noMemory s => .ok (.noMemory s)
  else s.placeOrMove K fuel reqSize size maj startedBet

/-- The loop of `kmalloc` over the blocks, from `maj` on. -/
def mallocLoop : Nat → Liballoc σ → BitVec 32 → BitVec 32 → BitVec 32 → Bool → BitVec 64 →
    Except Panic (BitVec 32 × Liballoc σ)
  | 0, _, _, _, _, _, _ => .error .fuel
  | fuel + 1, s, reqSize, size, maj, startedBet, bestSize =>
    if maj = 0 then do
      let s ← s.unlock
      .ok (0, s)
    else do
      let majSize ← s.load K maj MajorField.size
      let usage ← s.load K maj MajorField.usage
      -- free memory in the block
      let diff := majSize - usage
      let better : Bool := bestSize < diff.setWidth 64
      let s := if better then { s with bestBet := maj } else s
      let bestSize := if better then diff.setWidth 64 else bestSize
      match ← s.mallocRound K fuel reqSize size maj diff startedBet with
      | .found p s => .ok (p, s)
      | .visit maj startedBet s => mallocLoop fuel s reqSize size maj startedBet bestSize
      | .noMemory s => do
        let s ← s.unlock
        .ok (0, s)

/-- The first block, if there is none. -/
def ensureRoot (s : Liballoc σ) (size : BitVec 32) : Except Panic (Liballoc σ) :=
  if s.memRoot = 0 then do
    let (page, s) ← s.allocateNewPage K size
    .ok { s with memRoot := page }
  else .ok s

/-- `kmalloc` for a size that is not 0 with what the alignment takes. -/
def mallocSome (fuel : Nat) (s : Liballoc σ) (reqSize : BitVec 32) :
    Except Panic (BitVec 32 × Liballoc σ) := do
  let size := reqSize + 32
  let s ← s.lock
  let s ← s.ensureRoot K size
  if s.memRoot = 0 then do
    let s ← s.unlock
    .ok (0, s)
  else if s.bestBet ≠ 0 then do
    -- Start at the best bet....
    let betSize ← s.load K s.bestBet MajorField.size
    let usage ← s.load K s.bestBet MajorField.usage
    let bestSize := (betSize - usage).setWidth 64
    if (size + 24).setWidth 64 < bestSize then
      mallocLoop K fuel s reqSize size s.bestBet true bestSize
    else mallocLoop K fuel s reqSize size s.memRoot false bestSize
  else mallocLoop K fuel s reqSize size s.memRoot false 0

/-- `kmalloc` -/
def malloc (fuel : Nat) (s : Liballoc σ) (reqSize : BitVec 32) :
    Except Panic (BitVec 32 × Liballoc σ) :=
  if reqSize + 32 = 0 then do
    let s ← s.lock
    let s ← { s with warningCount := s.warningCount + 1 }.unlock
    s.mallocSome K fuel 1
  else s.mallocSome K fuel reqSize

/-! ### `kfree` -/

/-- What `kfree` and `krealloc` count for a header whose magic number is wrong. -/
def badMagic (s : Liballoc σ) (magic : BitVec 32) : Liballoc σ :=
  let s := { s with errorCount := s.errorCount + 1 }
  -- Check for overrun errors. For all bytes of LIBALLOC_MAGIC
  if magic &&& 0xFFFFFF = liballocMagic &&& 0xFFFFFF ∨ magic &&& 0xFFFF = liballocMagic &&& 0xFFFF ∨
      magic &&& 0xFF = liballocMagic &&& 0xFF then
    { s with possibleOverruns := s.possibleOverruns + 1 }
  else s

/-- Stores to field `i` of the structure at `p`, unless `p` is NULL. -/
def relink (s : Liballoc σ) (p : BitVec 32) (i : Nat) (v : BitVec 32) :
    Except Panic (Liballoc σ) :=
  if p ≠ 0 then s.store K p i v else .ok s

/-- The minor at `min` leaves its block `maj`. -/
def unlink (s : Liballoc σ) (maj min : BitVec 32) : Except Panic (Liballoc σ) := do
  let minSize ← s.load K min MinorField.size
  let s := { s with inuse := s.inuse - minSize.setWidth 64 }
  let usage ← s.load K maj MajorField.usage
  let s ← s.store K maj MajorField.usage (usage - (minSize + 24))
  let s ← s.store K min MinorField.magic liballocDead
  let next ← s.load K min MinorField.next
  let prev ← s.load K min MinorField.prev
  let s ← s.relink K next MinorField.prev prev
  let s ← s.relink K prev MinorField.next next
  if prev = 0 then s.store K maj MajorField.first next else .ok s

/-- The block `maj` is completely unused. -/
def release (s : Liballoc σ) (maj : BitVec 32) : Except Panic (Liballoc σ) := do
  let next ← s.load K maj MajorField.next
  let s := { s with memRoot := if s.memRoot = maj then next else s.memRoot }
  let s := { s with bestBet := if s.bestBet = maj then 0 else s.bestBet }
  let prev ← s.load K maj MajorField.prev
  let s ← s.relink K prev MajorField.next next
  let s ← s.relink K next MajorField.prev prev
  let size ← s.load K maj MajorField.size
  let s := { s with allocated := s.allocated - size.setWidth 64 }
  let pages ← s.load K maj MajorField.pages
  let (_, host) ← K.liballocFree s.host maj pages
  .ok { s with host := host }

/-- The block `maj` has more free memory now. -/
def rebet (s : Liballoc σ) (maj : BitVec 32) : Except Panic (Liballoc σ) :=
  if s.bestBet ≠ 0 then do
    let betSize ← s.load K s.bestBet MajorField.size
    let betUsage ← s.load K s.bestBet MajorField.usage
    let size ← s.load K maj MajorField.size
    let usage ← s.load K maj MajorField.usage
    -- both are `int`
    .ok (if (betSize - betUsage).slt (size - usage) then { s with bestBet := maj } else s)
  else .ok s

/-- We need to clean up after the majors now.... -/
def cleanUp (s : Liballoc σ) (maj : BitVec 32) : Except Panic (Liballoc σ) := do
  let first ← s.load K maj MajorField.first
  if first = 0 then s.release K maj else s.rebet K maj

/-- `kfree` -/
def free (s : Liballoc σ) (ptr : BitVec 32) : Except Panic (Liballoc σ) :=
  if ptr = 0 then .ok { s with warningCount := s.warningCount + 1 }
  else do
    let ptr ← s.unalign K ptr
    let s ← s.lock
    let min := ptr - 24
    let magic ← s.load K min MinorField.magic
    if magic ≠ liballocMagic then (s.badMagic magic).unlock
    else do
      let maj ← s.load K min MinorField.block
      let s ← s.unlink K maj min
      let s ← s.cleanUp K maj
      s.unlock

/-! ### `kcalloc` and `krealloc` -/

/-- `liballoc_memset` -/
def memset (s : Liballoc σ) (p : BitVec 32) (c : BitVec 8) (n : Nat) : Except Panic (Liballoc σ) :=
  (List.range n).foldlM (fun s i => s.store8 K (p + BitVec.ofNat 32 i) c) s

/-- `liballoc_memcpy`: words as long as there are four bytes, and then bytes. -/
def memcpy (s : Liballoc σ) (dest src : BitVec 32) : Nat → Except Panic (Liballoc σ)
  | n + 4 => do
    let w ← s.load K src 0
    let s ← s.store K dest 0 w
    memcpy s (dest + 4) (src + 4) n
  | n + 1 => do
    let b ← K.load8 s.host src
    let s ← s.store8 K dest b
    memcpy s (dest + 1) (src + 1) n
  | 0 => .ok s

/-- `kcalloc` -/
def calloc (fuel : Nat) (s : Liballoc σ) (nobj size : BitVec 32) :
    Except Panic (BitVec 32 × Liballoc σ) := do
  let realSize := nobj * size
  let (p, s) ← s.malloc K fuel realSize
  let s ← s.memset K p 0 realSize.toNat
  .ok (p, s)

/-- `krealloc` -/
def realloc (fuel : Nat) (s : Liballoc σ) (p size : BitVec 32) :
    Except Panic (BitVec 32 × Liballoc σ) :=
  -- Honour the case of size == 0 => free old and return NULL
  if size = 0 then do
    let s ← s.free K p
    .ok (0, s)
  -- In the case of a NULL pointer, return a simple malloc.
  else if p = 0 then s.malloc K fuel size
  else do
    let ptr ← s.unalign K p
    let s ← s.lock
    let min := ptr - 24
    let magic ← s.load K min MinorField.magic
    if magic ≠ liballocMagic then do
      let s ← (s.badMagic magic).unlock
      .ok (0, s)
    else do
      let realSize ← s.load K min MinorField.reqSize
      if size ≤ realSize then do
        let s ← s.store K min MinorField.reqSize size
        let s ← s.unlock
        .ok (p, s)
      else do
        let s ← s.unlock
        -- If we got here then we're reallocating to a block bigger than us.
        let (ptr, s) ← s.malloc K fuel size
        let s ← s.memcpy K ptr p realSize.toNat
        let s ← s.free K p
        .ok (ptr, s)

end Liballoc

end Treeos
