import Treeos.Pmm.BootPaging

/-!
# `init_bootstrap_paging`, instruction by instruction

The code of `boot.S` with the registers it uses and its stack, against the functions of
`Treeos.Pmm.BootPaging`, and the address space that it leaves.
-/
namespace Treeos

open PageTable

namespace Boot

inductive Reg where
  | eax | ebx | ecx | edx

/-- What the code can change. The stack is 16 KiB of the kernel that hold no table. -/
structure State where
  eax : BitVec 32
  ebx : BitVec 32
  ecx : BitVec 32
  edx : BitVec 32
  cr3 : BitVec 32
  stack : List (BitVec 32)
  mem : PhysMem

namespace State

def get (s : State) : Reg → BitVec 32
  | .eax => s.eax
  | .ebx => s.ebx
  | .ecx => s.ecx
  | .edx => s.edx

def set (s : State) : Reg → BitVec 32 → State
  | .eax, w => { s with eax := w }
  | .ebx, w => { s with ebx := w }
  | .ecx, w => { s with ecx := w }
  | .edx, w => { s with edx := w }

-- The operands are in the order of the source: the destination comes last.
def pushl (s : State) (r : Reg) : State := { s with stack := s.get r :: s.stack }
def popl (s : State) (r : Reg) : State :=
  { s with stack := s.stack.tail }.set r (s.stack.headD 0)
def movl (s : State) (src dst : Reg) : State := s.set dst (s.get src)
def movlImm (s : State) (w : BitVec 32) (dst : Reg) : State := s.set dst w
def addl (s : State) (src dst : Reg) : State := s.set dst (s.get dst + s.get src)
def addlImm (s : State) (w : BitVec 32) (dst : Reg) : State := s.set dst (s.get dst + w)
def sublImm (s : State) (w : BitVec 32) (dst : Reg) : State := s.set dst (s.get dst - w)
def andlImm (s : State) (w : BitVec 32) (dst : Reg) : State := s.set dst (s.get dst &&& w)
def orlImm (s : State) (w : BitVec 32) (dst : Reg) : State := s.set dst (s.get dst ||| w)
def shrl (s : State) (count : Nat) (dst : Reg) : State := s.set dst (s.get dst >>> count)
-- `mull` also clobbers edx, with the upper half of the product.
def mull (s : State) (src : Reg) : State :=
  { s with eax := s.eax * s.get src,
           edx := BitVec.ofNat 32 (s.eax.toNat * (s.get src).toNat / 2 ^ 32) }
def load (s : State) (address dst : Reg) : State := s.set dst (physLoad s.mem (s.get address))
def store (s : State) (src address : Reg) : State :=
  { s with mem := physStore s.mem (s.get address) (s.get src) }

end State

/-- `map_page` -/
def mapPage (s : State) : Except Panic State :=
  let s := s |>.pushl .eax |>.pushl .ebx |>.pushl .edx |>.pushl .ecx
  let s := s |>.pushl .edx |>.pushl .ecx
  let s := s |>.movl .ecx .eax |>.shrl 22 .eax |>.movlImm 4 .ecx |>.mull .ecx
  let s := s |>.addl .eax .ebx |>.load .ebx .eax
  let s := s |>.movl .eax .ecx |>.andlImm 1 .ecx
  -- `the_end` prints a message and halts.
  if s.ecx = 0 then .error (.msg "PANIC!")
  else
    let s := s |>.andlImm 0xFFFFF000 .eax
    let s := s |>.popl .edx |>.pushl .eax |>.movl .edx .eax |>.shrl 12 .eax |>.andlImm 0x3FF .eax
    let s := s |>.movlImm 4 .ecx |>.mull .ecx |>.movl .eax .ebx |>.popl .eax
    let s := s |>.popl .edx |>.addl .ebx .eax |>.orlImm 7 .edx |>.store .edx .eax
    .ok (s |>.popl .edx |>.popl .ecx |>.popl .ebx |>.popl .eax)

/-- `idmap_first_mb_loop` -/
def idmapFirstMb : Nat → State → Except Panic State
  | 0, _ => .error .fuel
  | fuel + 1, s => do
    let s ← mapPage (s.movl .ecx .edx)
    let s := s.sublImm 0x1000 .ecx
    if s.ecx ≠ 0 then idmapFirstMb fuel s else .ok s

/-- One round of `map_kernel` -/
def mapKernelPage (s : State) : Except Panic State := do
  let s ← mapPage (s.movl .ecx .edx)
  let s ← mapPage (s |>.pushl .ecx |>.addlImm kernHighOffset .ecx)
  .ok (s |>.popl .ecx |>.addlImm 0x1000 .ecx)

/-- `map_kernel` -/
def mapKernel : Nat → State → Except Panic State
  | 0, _ => .error .fuel
  | fuel + 1, s => do
    let s ← mapKernelPage s
    -- `jle` is a signed comparison.
    if s.ecx.sle s.eax then mapKernel fuel s else .ok s

/-- `init_bootstrap_paging` up to `idmap_first_mb_loop` -/
def storeKernelTable (image : BootImage) (s : State) : State :=
  let s := s |>.pushl .eax |>.pushl .ebx |>.pushl .edx |>.pushl .ecx
  let s := s |>.movlImm image.pageDir .eax |>.sublImm kernHighOffset .eax
  let s := s |>.movlImm image.pageTable .ebx |>.sublImm kernHighOffset .ebx |>.orlImm 7 .ebx
  let s := s |>.store .ebx .eax
  let s := s |>.pushl .eax |>.movlImm kernHighOffset .eax |>.shrl 22 .eax |>.movlImm 4 .ecx
  let s := s |>.mull .ecx |>.movl .eax .edx |>.popl .eax
  let s := s |>.pushl .eax |>.addl .edx .eax
  let s := s |>.movlImm image.pageTable .ebx |>.sublImm kernHighOffset .ebx |>.orlImm 7 .ebx
  let s := s |>.store .ebx .eax
  s |>.popl .ebx |>.movlImm 0x100000 .ecx

/-- What follows on `map_kernel`, up to the instructions that turn paging on -/
def storeSelfMap (s : State) : State :=
  -- Map the last entry of the PDE to itself
  let s := s |>.movl .ebx .eax |>.addlImm 4092 .eax |>.movl .ebx .ecx
  let s := s |>.andlImm 0xFFFFF000 .ecx |>.orlImm 7 .ecx |>.store .ecx .eax
  let s := { s with cr3 := s.ebx }
  s |>.popl .ecx |>.popl .edx |>.popl .ebx |>.popl .eax

/-- `init_bootstrap_paging` -/
def initBootstrapPaging (fuel : Nat) (image : BootImage) (s : State) : Except Panic State := do
  let s ← idmapFirstMb fuel (storeKernelTable image s)
  let s := s |>.movlImm kernBootAddr .ecx |>.movlImm image.kernEnd .eax
  let s ← mapKernel fuel (s.sublImm kernHighOffset .eax)
  .ok (storeSelfMap s)

/-! ### What the registers hold in the end -/

/-- The registers that the helpers leave alone, and the stack. -/
structure Keeps (s s' : State) : Prop where
  eax : s'.eax = s.eax
  ebx : s'.ebx = s.ebx
  cr3 : s'.cr3 = s.cr3
  stack : s'.stack = s.stack

theorem Keeps.trans {s t u : State} (first : Keeps s t) (second : Keeps t u) : Keeps s u :=
  ⟨second.eax.trans first.eax, second.ebx.trans first.ebx, second.cr3.trans first.cr3,
    second.stack.trans first.stack⟩

/-- `map_page` comes back with ecx and edx exchanged. -/
theorem mapPage_eq {s : State} {m : PhysMem}
    (returned : bootMapPage s.mem s.ebx s.ecx s.edx = .ok m) :
    ∃ t, mapPage s = .ok t ∧ Keeps s t ∧ t.ecx = s.edx ∧ t.edx = s.ecx ∧ t.mem = m := by
  by_cases absent : physLoad s.mem (s.ebx + (s.ecx >>> 22) * 4#32) &&& 1 = 0
  · have stopped : bootMapPage s.mem s.ebx s.ecx s.edx = .error (.msg "PANIC!") := if_pos absent
    rw [stopped] at returned
    cases returned
  · have stored : bootMapPage s.mem s.ebx s.ecx s.edx = .ok _ := if_neg absent
    obtain rfl := Except.ok.inj (stored.symm.trans returned)
    refine ⟨⟨s.eax, s.ebx, s.edx, s.ecx, s.cr3, s.stack, _⟩, ?_, ⟨rfl, rfl, rfl, rfl⟩, rfl, rfl, rfl⟩
    simp only [mapPage, State.pushl, State.popl, State.movl, State.movlImm, State.mull, State.addl,
      State.load, State.andlImm, State.orlImm, State.shrl, State.store, State.set, State.get,
      List.headD_cons, List.tail_cons]
    exact if_neg absent

theorem idmapFirstMb_eq {fuel : Nat} {s : State} {m : PhysMem}
    (returned : Treeos.idmapFirstMb s.ebx fuel s.ecx s.mem = .ok m) :
    ∃ t, idmapFirstMb fuel s = .ok t ∧ Keeps s t ∧ t.mem = m := by
  induction fuel generalizing s with
  | zero => cases returned
  | succ fuel ih =>
    obtain ⟨m', mapped, rest⟩ := bind_ok_iff.mp returned
    obtain ⟨t, called, keeps, ecx, -, rfl⟩ := @mapPage_eq (s.movl .ecx .edx) _ mapped
    have keeps : Keeps s (t.sublImm 0x1000 .ecx) := ⟨keeps.eax, keeps.ebx, keeps.cr3, keeps.stack⟩
    have next : (t.sublImm 0x1000 .ecx).ecx = s.ecx - 0x1000 := congrArg (· - 0x1000) ecx
    unfold idmapFirstMb
    rw [called, ok_bind]
    show ∃ u, (if (t.sublImm 0x1000 .ecx).ecx ≠ 0 then _ else _) = _ ∧ _
    rw [next]
    by_cases more : s.ecx - 0x1000 ≠ 0
    · rw [if_pos more] at rest ⊢
      rw [← next, ← keeps.ebx] at rest
      obtain ⟨u, looped, kept, mem⟩ := ih rest
      exact ⟨u, looped, keeps.trans kept, mem⟩
    · rw [if_neg more] at rest ⊢
      cases rest
      exact ⟨_, rfl, keeps, rfl⟩

/-- A call for a page further up, with ecx saved on the stack. -/
theorem mapPage_above {s : State} {m : PhysMem} {offset : BitVec 32}
    (returned : bootMapPage s.mem s.ebx (s.ecx + offset) s.edx = .ok m) :
    ∃ t, mapPage (s |>.pushl .ecx |>.addlImm offset .ecx) = .ok t ∧ t.eax = s.eax ∧ t.ebx = s.ebx ∧
      t.cr3 = s.cr3 ∧ t.stack = s.ecx :: s.stack ∧ t.mem = m := by
  obtain ⟨t, called, keeps, -, -, mem⟩ :=
    @mapPage_eq (s |>.pushl .ecx |>.addlImm offset .ecx) m returned
  exact ⟨t, called, keeps.eax, keeps.ebx, keeps.cr3, keeps.stack, mem⟩

theorem pop_add {s : State} {top : BitVec 32} {rest : List (BitVec 32)}
    (stack : s.stack = top :: rest) (w : BitVec 32) : (s |>.popl .ecx |>.addlImm w .ecx) =
      ⟨s.eax, s.ebx, top + w, s.edx, s.cr3, rest, s.mem⟩ := by
  simp only [State.popl, State.addlImm, State.set, State.get, stack, List.headD_cons, List.tail_cons]

/-- The second call exchanges ecx and edx, and ecx comes back from the stack. -/
theorem mapKernelPage_eq {s : State} {m m' : PhysMem}
    (low : bootMapPage s.mem s.ebx s.ecx s.ecx = .ok m)
    (high : bootMapPage m s.ebx (s.ecx + kernHighOffset) s.ecx = .ok m') :
    ∃ t, mapKernelPage s = .ok t ∧ Keeps s t ∧ t.ecx = s.ecx + 0x1000 ∧ t.mem = m' := by
  obtain ⟨t, first, keeps, ecx, edx, rfl⟩ := @mapPage_eq (s.movl .ecx .edx) _ low
  have ecx : t.ecx = s.ecx := ecx
  have edx : t.edx = s.ecx := edx
  have ebx : t.ebx = s.ebx := keeps.ebx
  have high : bootMapPage t.mem t.ebx (t.ecx + kernHighOffset) t.edx = .ok m' := by
    rw [ebx, ecx, edx]
    exact high
  obtain ⟨u, second, eax, ebx', cr3, stack, rfl⟩ := mapPage_above high
  have popped := pop_add stack 0x1000
  have round : mapKernelPage s = .ok (u |>.popl .ecx |>.addlImm 0x1000 .ecx) := by
    unfold mapKernelPage
    rw [first, ok_bind, second, ok_bind]
  rw [popped, ecx] at round
  exact ⟨_, round, ⟨eax.trans keeps.eax, ebx'.trans keeps.ebx, cr3.trans keeps.cr3, keeps.stack⟩,
    rfl, rfl⟩

theorem mapKernel_eq {fuel : Nat} {s : State} {m : PhysMem}
    (returned : Treeos.mapKernel s.ebx s.eax fuel s.ecx s.mem = .ok m) :
    ∃ t, mapKernel fuel s = .ok t ∧ Keeps s t ∧ t.mem = m := by
  induction fuel generalizing s with
  | zero => cases returned
  | succ fuel ih =>
    obtain ⟨m', low, rest⟩ := bind_ok_iff.mp returned
    obtain ⟨m'', high, rest⟩ := bind_ok_iff.mp rest
    obtain ⟨t, round, keeps, ecx, rfl⟩ := mapKernelPage_eq low high
    unfold mapKernel
    rw [round, ok_bind, ecx, keeps.eax]
    by_cases more : (s.ecx + 0x1000).sle s.eax
    · rw [if_pos more] at rest ⊢
      rw [← ecx, ← keeps.ebx, ← keeps.eax] at rest
      obtain ⟨u, looped, kept, mem⟩ := ih rest
      exact ⟨u, looped, keeps.trans kept, mem⟩
    · rw [if_neg more] at rest ⊢
      cases rest
      exact ⟨t, rfl, keeps, rfl⟩

/-- `init_bootstrap_paging` restores the registers and loads cr3. -/
theorem initBootstrapPaging_eq {fuel : Nat} {image : BootImage} {s : State} {m : PhysMem}
    (returned : Treeos.initBootstrapPaging fuel image s.mem = .ok m) :
    initBootstrapPaging fuel image s =
      .ok ⟨s.eax, s.ebx, s.ecx, s.edx, image.pageDir - kernHighOffset, s.stack, m⟩ := by
  obtain ⟨m₁, low, rest⟩ := bind_ok_iff.mp returned
  obtain ⟨m₂, kernel, stored⟩ := bind_ok_iff.mp rest
  obtain ⟨t, first, keeps, rfl⟩ := @idmapFirstMb_eq fuel (storeKernelTable image s) _ low
  have ebx : t.ebx = image.pageDir - kernHighOffset := keeps.ebx
  have stack : t.stack = s.ecx :: s.edx :: s.ebx :: s.eax :: s.stack := keeps.stack
  rw [← ebx] at kernel stored
  obtain ⟨u, second, kept, rfl⟩ := @mapKernel_eq fuel ((t |>.movlImm kernBootAddr .ecx |>.movlImm
    image.kernEnd .eax).sublImm kernHighOffset .eax) _ kernel
  have ebx' : u.ebx = t.ebx := kept.ebx
  have stack' : u.stack = t.stack := kept.stack
  unfold initBootstrapPaging
  simp only [first, ok_bind, second]
  rw [← ebx, ← Except.ok.inj stored, ← ebx']
  unfold storeSelfMap
  simp only [State.popl, State.movl, State.addlImm, State.andlImm, State.orlImm, State.store,
    State.set, State.get, stack', stack, List.headD_cons, List.tail_cons]

end Boot

/-! ### The address space -/

namespace BootTables

variable {image : BootImage} {m : PhysMem} {v : BitVec 32}

theorem lookup_kernel (boot : BootTables image m) {page : Page} (kernel : page.1 = 0 ∨ page.1 = 768) :
    lookup pagingFormat m image.dirFrame page =
      if 1 ≤ page.2.toNat ∧ page.2.toNat ≤ image.lastPage
      then some (bootEntry (BitVec.ofNat 20 page.2.toNat)) else none := by
  have bounds := image.bounds
  have last := image.realKernelEnd_toNat
  have uses : Uses pagingFormat m image.dirFrame page.1 image.tableFrame := by
    unfold Uses
    rw [boot.directory, if_pos kernel]
    exact ⟨present_bootEntry _, address_bootEntry _⟩
  rw [lookup_of_uses uses, boot.table]
  by_cases inside : 1 ≤ page.2.toNat ∧ page.2.toNat ≤ image.lastPage
  · have entry : BitVec.ofNat 32 (4096 * page.2.toNat) ||| 7 =
        bootEntry (BitVec.ofNat 20 page.2.toNat) := by
      unfold BootImage.lastPage at inside
      rw [bootEntry]
      congr 1
      apply BitVec.eq_of_toNat_eq
      rw [frameAddr_toNat, BitVec.toNat_ofNat, BitVec.toNat_ofNat]
      omega
    rw [if_pos inside, if_pos inside, entry]
    exact if_pos (present_bootEntry _)
  · rw [if_neg inside, if_neg inside]
    rfl

/-- Below the window of the tables only the two views of the kernel are mapped. -/
theorem lookup_iff (boot : BootTables image m) (below : v < 0xFFC00000) {e : Entry} :
    lookup pagingFormat m image.dirFrame (pageOf v) = some e ↔
      ∃ n, 1 ≤ n ∧ n ≤ image.lastPage ∧ (v.toNat / 4096 = n ∨ v.toNat / 4096 = n + 0xC0000) ∧
        e = bootEntry (BitVec.ofNat 20 n) := by
  have bounds := image.bounds
  have last := image.realKernelEnd_toNat
  have high : v.toNat < 0xFFC00000 := below
  have dir := toNat_dirIndex v
  have table := toNat_tableIndex v
  have zero : dirIndex v = 0 ↔ v.toNat / 2 ^ 22 = 0 := by
    rw [← BitVec.toNat_inj, dir]
    rfl
  have kern : dirIndex v = 768 ↔ v.toNat / 2 ^ 22 = 768 := by
    rw [← BitVec.toNat_inj, dir]
    rfl
  -- entries 0 and 768 of the directory are one table, so a page number is read modulo 1024
  by_cases kernel : dirIndex v = 0 ∨ dirIndex v = 768
  · rw [boot.lookup_kernel kernel, show (pageOf v).2 = tableIndex v from rfl, table]
    rw [zero, kern] at kernel
    constructor
    · intro found
      split at found
      next inside =>
        refine ⟨_, inside.1, inside.2, ?_, (Option.some.inj found).symm⟩
        omega
      next => cases found
    · rintro ⟨n, some, bound, place, rfl⟩
      unfold BootImage.lastPage at bound ⊢
      have same : v.toNat / 2 ^ 12 % 1024 = n := by omega
      rw [same, if_pos ⟨some, bound⟩]
  · have none : lookup pagingFormat m image.dirFrame (pageOf v) = none := by
      refine lookup_of_absent ?_
      show (m image.dirFrame (dirIndex v)).present = false
      rw [Bool.eq_false_iff, Ne, boot.present_iff]
      rintro (first | second | third)
      · exact kernel (.inl first)
      · exact kernel (.inr second)
      · rw [← BitVec.toNat_inj, dir] at third
        change _ = 1023 at third
        omega
    rw [none]
    refine ⟨nofun, ?_⟩
    rintro ⟨n, some, bound, place, -⟩
    unfold BootImage.lastPage at bound
    rw [zero, kern] at kernel
    omega

end BootTables

/-- Page `n` of the address space is mapped to frame `f`. -/
def MapsPage (m : PhysMem) (dir : Frame) (n f : Nat) : Prop :=
  ∃ e, lookup pagingFormat m dir (pageOf (BitVec.ofNat 32 (4096 * n))) = some e ∧
    e.address.toNat = f

/-- `init_bootstrap_paging` ends, and maps the kernel from page 1 on to itself and to the
higher half, the directory to its last entry, and nothing else. -/
theorem initBootstrapPaging_mapsKernel (image : BootImage) (fuel : Nat) (enough : 1024 ≤ fuel)
    (s : Boot.State) (clean : ∀ i, s.mem image.dirFrame i = 0 ∧ s.mem image.tableFrame i = 0) :
    ∃ t, Boot.initBootstrapPaging fuel image s = .ok t ∧ t.cr3 = frameAddr image.dirFrame ∧
      (∀ n, 1 ≤ n → n ≤ image.realKernelEnd.toNat / 4096 →
        MapsPage t.mem image.dirFrame n n ∧
        MapsPage t.mem image.dirFrame (n + kernHighOffset.toNat / 4096) n) ∧
      Uses pagingFormat t.mem image.dirFrame 1023 image.dirFrame ∧
      lookup pagingFormat t.mem image.dirFrame (pageOf 0) = none ∧
      ∀ v : BitVec 32, v < 0xFFC00000 →
        lookup pagingFormat t.mem image.dirFrame (pageOf v) ≠ none →
        ∃ n, 1 ≤ n ∧ n ≤ image.realKernelEnd.toNat / 4096 ∧
          (v.toNat / 4096 = n ∨ v.toNat / 4096 = n + kernHighOffset.toNat / 4096) := by
  obtain ⟨m, returned, boot⟩ := initBootstrapPaging_eq enough clean
  have bounds := image.bounds
  have last := image.realKernelEnd_toNat
  have offset : kernHighOffset.toNat / 4096 = 0xC0000 := rfl
  refine ⟨_, Boot.initBootstrapPaging_eq returned, image.dirFrame_addr.symm, ?_, ?_, ?_, ?_⟩
  · intro n some bound
    rw [offset]
    -- the identity view and the view in the higher half
    have maps (k : Nat) (place : k = n ∨ k = n + 0xC0000) : MapsPage m image.dirFrame k n := by
      have value : (BitVec.ofNat 32 (4096 * k)).toNat = 4096 * k := by
        rw [BitVec.toNat_ofNat]
        omega
      have below : BitVec.ofNat 32 (4096 * k) < 0xFFC00000 := by
        show (BitVec.ofNat 32 (4096 * k)).toNat < 0xFFC00000
        omega
      refine ⟨_, (boot.lookup_iff below).mpr ⟨n, some, bound, by omega, rfl⟩, ?_⟩
      rw [address_bootEntry, BitVec.toNat_ofNat]
      omega
    exact ⟨maps n (.inl rfl), maps _ (.inr rfl)⟩
  · show (m image.dirFrame 1023).present = true ∧ (m image.dirFrame 1023).address = _
    have self : m image.dirFrame 1023 = bootEntry image.dirFrame :=
      (boot.directory 1023).trans ((if_neg (by decide)).trans (if_pos rfl))
    rw [self]
    exact ⟨present_bootEntry _, address_bootEntry _⟩
  · exact (boot.lookup_kernel (.inl rfl)).trans (if_neg fun inside => absurd inside.1 (by decide))
  · intro v below mapped
    obtain ⟨e, found⟩ := Option.ne_none_iff_exists'.mp mapped
    obtain ⟨n, some, bound, place, -⟩ := (boot.lookup_iff below).mp found
    exact ⟨n, some, bound, place⟩

theorem smallBoot_mapsKernel : ∃ t,
    Boot.initBootstrapPaging 1024 smallBoot ⟨0, 0, 0, 0, 0, [], fun _ _ => 0⟩ = .ok t ∧
    MapsPage t.mem smallBoot.dirFrame 0xC0108 0x108 := by
  obtain ⟨t, returned, -, maps, -⟩ := initBootstrapPaging_mapsKernel smallBoot 1024
    (Nat.le_refl 1024) ⟨0, 0, 0, 0, 0, [], fun _ _ => 0⟩ fun _ => ⟨rfl, rfl⟩
  exact ⟨t, returned, (maps 0x108 (by decide) (by decide)).2⟩

end Treeos
