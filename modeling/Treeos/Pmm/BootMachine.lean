import Treeos.Lib.X86
import Treeos.Pmm.BootCode
import Mathlib.Order.CompletePartialOrder

/-!
# `map_page` on the machine

`map_page` of `boot.S` with its stack in memory. Paging is off, so that an address is a physical
one. It simulates the code of `Treeos.Pmm.BootCode`, whose stack is apart from memory.
-/
namespace X86.Machine

open ByteMemory Treeos.Boot

def get (s : Machine) : Reg → BitVec 32
  | .eax => s.cpu.eax
  | .ebx => s.cpu.ebx
  | .ecx => s.cpu.ecx
  | .edx => s.cpu.edx

def set (s : Machine) : Reg → BitVec 32 → Machine
  | .eax, w => { s with cpu := { s.cpu with eax := w } }
  | .ebx, w => { s with cpu := { s.cpu with ebx := w } }
  | .ecx, w => { s with cpu := { s.cpu with ecx := w } }
  | .edx, w => { s with cpu := { s.cpu with edx := w } }

def pushl (s : Machine) (r : Reg) : Machine := s.push (s.get r)
def popl (s : Machine) (r : Reg) : Machine := s.pop.2.set r s.pop.1
def movl (s : Machine) (src dst : Reg) : Machine := s.set dst (s.get src)
def movlImm (s : Machine) (w : BitVec 32) (dst : Reg) : Machine := s.set dst w
def addl (s : Machine) (src dst : Reg) : Machine := s.set dst (s.get dst + s.get src)
def andlImm (s : Machine) (w : BitVec 32) (dst : Reg) : Machine := s.set dst (s.get dst &&& w)
def orlImm (s : Machine) (w : BitVec 32) (dst : Reg) : Machine := s.set dst (s.get dst ||| w)
def shrl (s : Machine) (count : Nat) (dst : Reg) : Machine := s.set dst (s.get dst >>> count)
def mull (s : Machine) (src : Reg) : Machine :=
  (s.set .eax (s.cpu.eax * s.get src)).set .edx
    (BitVec.ofNat 32 (s.cpu.eax.toNat * (s.get src).toNat / 2 ^ 32))
def load (s : Machine) (address dst : Reg) : Machine := s.set dst (load32 s.mem (s.get address))
def store (s : Machine) (src address : Reg) : Machine :=
  { s with mem := store32 s.mem (s.get address) (s.get src) }

/-- `ret` -/
def ret (s : Machine) : Machine :=
  { s.pop.2 with cpu := { s.pop.2.cpu with eip := s.pop.1 } }

end X86.Machine

namespace Treeos.Boot

open ByteMemory
open X86 (Machine)

namespace OnMachine

/-- `map_page` -/
def mapPage (s : Machine) : Except Panic Machine :=
  let s := s |>.pushl .eax |>.pushl .ebx |>.pushl .edx |>.pushl .ecx
  let s := s |>.pushl .edx |>.pushl .ecx
  let s := s |>.movl .ecx .eax |>.shrl 22 .eax |>.movlImm 4 .ecx |>.mull .ecx
  let s := s |>.addl .eax .ebx |>.load .ebx .eax
  let s := s |>.movl .eax .ecx |>.andlImm 1 .ecx
  -- `the_end` prints a message and halts.
  if s.cpu.ecx = 0 then .error (.msg "PANIC!")
  else
    let s := s |>.andlImm 0xFFFFF000 .eax
    let s := s |>.popl .edx |>.pushl .eax |>.movl .edx .eax |>.shrl 12 .eax |>.andlImm 0x3FF .eax
    let s := s |>.movlImm 4 .ecx |>.mull .ecx |>.movl .eax .ebx |>.popl .eax
    let s := s |>.popl .edx |>.addl .ebx .eax |>.orlImm 7 .edx |>.store .edx .eax
    .ok (s |>.popl .edx |>.popl .ecx |>.popl .ebx |>.popl .eax |>.ret)

/-- `call map_page`, in front of the instruction at `next` -/
def callMapPage (s : Machine) (next : BitVec 32) : Except Panic Machine := mapPage (s.push next)

/-- Where the directory at ebx has the entry for the address in ecx. -/
def directoryEntry (s : Machine) : BitVec 32 := s.cpu.ebx + (s.cpu.ecx >>> 22) * 4#32

/-- Where the table of that entry has its own entry for the address. -/
def tableEntry (s : Machine) : BitVec 32 :=
  (load32 s.mem (directoryEntry s) &&& 0xFFFFF000#32) + ((s.cpu.ecx >>> 12) % 1024#32) * 4#32

/-- What a call uses of the stack: the return address and six words. -/
def callStack (s : Machine) : Set (BitVec 32) := Span (s.cpu.esp - 28) 28

/-- `map_page` has written the entry of the table and nothing else but its own stack, and has
come back with the registers as they were. -/
structure Mapped (s t : Machine) : Prop where
  entry : load32 t.mem (tableEntry s) = s.cpu.edx ||| 7
  frame : ∀ x ∉ Span (tableEntry s) 4, x ∉ callStack s → t.mem x = s.mem x
  eax : t.cpu.eax = s.cpu.eax
  ebx : t.cpu.ebx = s.cpu.ebx
  ecx : t.cpu.ecx = s.cpu.ecx
  edx : t.cpu.edx = s.cpu.edx
  esp : t.cpu.esp = s.cpu.esp

/-! ### The stack in memory -/

/-- `t` is `s` with the registers of `v`, and with the stack of `v` in the six words below its
own; the memory apart from them is `m`. -/
structure Shows (s : Machine) (m : Memory) (t : Machine) (v : State) : Prop where
  cpu : t.cpu = { s.cpu with eax := v.eax, ebx := v.ebx, ecx := v.ecx, edx := v.edx,
                             esp := s.cpu.esp - BitVec.ofNat 32 (4 * v.stack.length) }
  words : Words t.mem t.cpu.esp v.stack
  frame : ∀ x ∉ Span (s.cpu.esp - 24) 24, t.mem x = m x

namespace Shows

variable {s t : Machine} {m : Memory} {v : State}

theorem get_eq (shows : Shows s m t v) (r : Reg) : t.get r = v.get r := by
  cases r <;> simp [Machine.get, State.get, shows.cpu]

theorem set (shows : Shows s m t v) (r : Reg) (w : BitVec 32) :
    Shows s m (t.set r w) (v.set r w) := by
  obtain ⟨cpu, words, frame⟩ := shows
  cases r <;>
    exact ⟨by simp [Machine.set, State.set, cpu], words, frame⟩

theorem movl (shows : Shows s m t v) (src dst : Reg) : Shows s m (t.movl src dst) (v.movl src dst) := by
  rw [Machine.movl, shows.get_eq]
  exact shows.set dst _

theorem movlImm (shows : Shows s m t v) (w : BitVec 32) (dst : Reg) :
    Shows s m (t.movlImm w dst) (v.movlImm w dst) := shows.set dst w

theorem addl (shows : Shows s m t v) (src dst : Reg) : Shows s m (t.addl src dst) (v.addl src dst) := by
  rw [Machine.addl, shows.get_eq, shows.get_eq]
  exact shows.set dst _

theorem andlImm (shows : Shows s m t v) (w : BitVec 32) (dst : Reg) :
    Shows s m (t.andlImm w dst) (v.andlImm w dst) := by
  rw [Machine.andlImm, shows.get_eq]
  exact shows.set dst _

theorem orlImm (shows : Shows s m t v) (w : BitVec 32) (dst : Reg) :
    Shows s m (t.orlImm w dst) (v.orlImm w dst) := by
  rw [Machine.orlImm, shows.get_eq]
  exact shows.set dst _

theorem shrl (shows : Shows s m t v) (count : Nat) (dst : Reg) :
    Shows s m (t.shrl count dst) (v.shrl count dst) := by
  rw [Machine.shrl, shows.get_eq]
  exact shows.set dst _

theorem mull (shows : Shows s m t v) (src : Reg) : Shows s m (t.mull src) (v.mull src) := by
  have eax : t.cpu.eax = v.eax := shows.get_eq .eax
  rw [Machine.mull, shows.get_eq, eax]
  exact (shows.set .eax _).set .edx _

theorem pushl (shows : Shows s m t v) (r : Reg) (room : v.stack.length < 6) :
    Shows s m (t.pushl r) (v.pushl r) := by
  have esp : t.cpu.esp = s.cpu.esp - BitVec.ofNat 32 (4 * v.stack.length) := by rw [shows.cpu]
  rw [Machine.pushl, shows.get_eq]
  refine ⟨?_, shows.words.push _ (by omega), fun x outside => ?_⟩
  · simp only [Machine.push, State.pushl, shows.cpu, List.length_cons, Nat.mul_succ,
      BitVec.ofNat_add]
    congr 1
    bv_omega
  · have apart : x ∉ Span (t.cpu.esp - 4) 4 := by
      rw [mem_span] at outside ⊢
      rw [esp]
      bv_omega
    exact (store32_of_not_mem apart).trans (shows.frame x outside)

theorem popl (shows : Shows s m t v) (r : Reg) {w : BitVec 32} {ws : List (BitVec 32)}
    (stack : v.stack = w :: ws) : Shows s m (t.popl r) (v.popl r) := by
  obtain ⟨cpu, words, frame⟩ := shows
  rw [stack] at words
  obtain ⟨top, below⟩ := words
  have popped : Shows s m t.pop.2 { v with stack := ws } := by
    refine ⟨?_, below, frame⟩
    simp only [Machine.pop, Machine.setEsp, cpu, stack, List.length_cons, Nat.mul_succ,
      BitVec.ofNat_add]
    congr 1
    bv_omega
  rw [Machine.popl, State.popl, stack]
  show Shows s m (t.pop.2.set r (load32 t.mem t.cpu.esp)) _
  rw [top]
  exact popped.set r w

/-- A load from outside the stack -/
theorem load (shows : Shows s m t v) (address dst : Reg)
    (apart : Disjoint (Span (v.get address) 4) (Span (s.cpu.esp - 24) 24))
    (same : physLoad v.mem (v.get address) = load32 m (v.get address)) :
    Shows s m (t.load address dst) (v.load address dst) := by
  have loaded : load32 t.mem (v.get address) = physLoad v.mem (v.get address) := by
    rw [same]
    exact load32_congr fun x inside => shows.frame x (Set.disjoint_left.mp apart inside)
  rw [Machine.load, shows.get_eq, loaded]
  exact shows.set dst _

/-- A store outside the stack -/
theorem store (shows : Shows s m t v) (src address : Reg) (small : v.stack.length ≤ 6)
    (apart : Disjoint (Span (v.get address) 4) (Span (s.cpu.esp - 24) 24)) :
    Shows s (store32 m (v.get address) (v.get src)) (t.store src address) (v.store src address) := by
  have esp : t.cpu.esp = s.cpu.esp - BitVec.ofNat 32 (4 * v.stack.length) := by rw [shows.cpu]
  rw [Machine.store, shows.get_eq, shows.get_eq]
  refine ⟨shows.cpu, shows.words.congr fun x inside => ?_, fun x outside => ?_⟩
  · have within : x ∈ Span (s.cpu.esp - 24) 24 := by
      rw [mem_span] at inside ⊢
      rw [esp] at inside
      bv_omega
    exact store32_of_not_mem (Set.disjoint_right.mp apart within)
  · simp only [store32]
    rw [shows.frame x outside]

end Shows

/-! ### `map_page` -/

variable {s : Machine}

theorem tableIndex_eq (ecx : BitVec 32) : (ecx >>> 12) &&& 0x3FF#32 = (ecx >>> 12) % 1024#32 := by
  apply BitVec.eq_of_toNat_eq
  rw [BitVec.toNat_and, BitVec.toNat_umod]
  exact Nat.and_two_pow_sub_one_eq_mod _ 10

/-- The machine runs `map_page` as the code with a stack of its own does. -/
theorem mapPage_shows {v v' : State} (shows : Shows s s.mem s v) (empty : v.stack = [])
    (same : physLoad v.mem (directoryEntry s) = load32 s.mem (directoryEntry s))
    (directory : Disjoint (Span (directoryEntry s) 4) (Span (s.cpu.esp - 24) 24))
    (table : Disjoint (Span (tableEntry s) 4) (Span (s.cpu.esp - 24) 24))
    (returned : Boot.mapPage v = .ok v') :
    ∃ t, mapPage s = .ok t.ret ∧
      Shows s (store32 s.mem (tableEntry s) (s.cpu.edx ||| 7)) t v' := by
  obtain ⟨a, b, c, d, cr3, stack, mem⟩ := v
  obtain rfl : stack = [] := empty
  have ebx : s.cpu.ebx = b := shows.get_eq .ebx
  have ecx : s.cpu.ecx = c := shows.get_eq .ecx
  have edx : s.cpu.edx = d := shows.get_eq .edx
  have directoryAt : directoryEntry s = b + (c >>> 22) * 4#32 := by rw [directoryEntry, ebx, ecx]
  have tableAt : tableEntry s = (physLoad mem (b + (c >>> 22) * 4#32) &&& 0xFFFFF000#32) +
      ((c >>> 12) &&& 0x3FF#32) * 4#32 := by
    rw [tableEntry, ← same, directoryAt, ecx, tableIndex_eq]
  rw [directoryAt] at same directory
  rw [tableAt] at table ⊢
  rw [edx]
  have room {n : Nat} (small : (n < 6 : Bool) = true) : n < 6 := of_decide_eq_true small
  have saved := (((shows.pushl .eax (room rfl)).pushl .ebx (room rfl)).pushl .edx
    (room rfl)).pushl .ecx (room rfl)
  have passed := (saved.pushl .edx (room rfl)).pushl .ecx (room rfl)
  have index := (((passed.movl .ecx .eax).shrl 22 .eax).movlImm 4 .ecx).mull .ecx
  have loaded := (index.addl .eax .ebx).load .ebx .eax directory same
  have tested := (loaded.movl .eax .ecx).andlImm 1 .ecx
  by_cases absent : physLoad mem (b + (c >>> 22) * 4#32) &&& 1 = 0
  · have stopped : Boot.mapPage ⟨a, b, c, d, cr3, [], mem⟩ = .error (.msg "PANIC!") := if_pos absent
    rw [stopped] at returned
    cases returned
  · have ran : Boot.mapPage ⟨a, b, c, d, cr3, [], mem⟩ = .ok _ := if_neg absent
    obtain rfl := Except.ok.inj (ran.symm.trans returned)
    have masked := tested.andlImm 0xFFFFF000 .eax
    have shifted := (((masked.popl .edx rfl).pushl .eax (room rfl)).movl .edx .eax).shrl 12 .eax
    have scaled := ((shifted.andlImm 0x3FF .eax).movlImm 4 .ecx).mull .ecx
    have address := (((scaled.movl .eax .ebx).popl .eax rfl).popl .edx rfl).addl .ebx .eax
    have stored := (address.orlImm 7 .edx).store .edx .eax (Nat.le_of_lt (room rfl)) table
    have restored := (((stored.popl .edx rfl).popl .ecx rfl).popl .ebx rfl).popl .eax rfl
    refine ⟨_, if_neg fun zero => absent ?_, restored⟩
    exact (tested.get_eq .ecx).symm.trans zero

/-- Up to its `ret`, `map_page` exchanges ecx and edx and stores one word outside its stack. -/
theorem mapPage_exchanges (present : load32 s.mem (directoryEntry s) &&& 1 ≠ 0)
    (directory : Disjoint (Span (directoryEntry s) 4) (Span (s.cpu.esp - 24) 24))
    (table : Disjoint (Span (tableEntry s) 4) (Span (s.cpu.esp - 24) 24)) :
    ∃ t : Machine, mapPage s = .ok t.ret ∧ t.cpu = { s.cpu with ecx := s.cpu.edx, edx := s.cpu.ecx } ∧
      ∀ x ∉ Span (s.cpu.esp - 24) 24,
        t.mem x = store32 s.mem (tableEntry s) (s.cpu.edx ||| 7) x := by
  -- the code with a stack of its own, on a memory that has the entry everywhere
  have returned : bootMapPage (fun _ _ => load32 s.mem (directoryEntry s)) s.cpu.ebx s.cpu.ecx
      s.cpu.edx = .ok _ := if_neg present
  obtain ⟨v, ran, keeps, ecx, edx, -⟩ := @mapPage_eq ⟨s.cpu.eax, s.cpu.ebx, s.cpu.ecx, s.cpu.edx, 0,
    [], fun _ _ => load32 s.mem (directoryEntry s)⟩ _ returned
  have start : Shows s s.mem s ⟨s.cpu.eax, s.cpu.ebx, s.cpu.ecx, s.cpu.edx, 0, [],
      fun _ _ => load32 s.mem (directoryEntry s)⟩ := by
    refine ⟨?_, trivial, fun x _ => rfl⟩
    simp
  obtain ⟨t, called, cpu, -, frame⟩ := mapPage_shows start rfl rfl directory table ran
  refine ⟨t, called, ?_, frame⟩
  simp [cpu, keeps.eax, keeps.ebx, ecx, edx, keeps.stack]

/-! ### The call -/

theorem callStack_below : Span (s.cpu.esp - 4 - 24) 24 ⊆ callStack s := by
  intro x inside
  rw [callStack, mem_span] at *
  bv_omega

theorem callStack_top : Span (s.cpu.esp - 4) 4 ⊆ callStack s := by
  intro x inside
  rw [callStack, mem_span] at *
  bv_omega

theorem push_outside (next : BitVec 32) {x : BitVec 32} (outside : x ∉ callStack s) :
    (s.push next).mem x = s.mem x :=
  store32_of_not_mem fun inside => outside (callStack_top inside)

/-- The return address changes neither of the two entries. -/
theorem entries_push (next : BitVec 32)
    (directory : Disjoint (Span (directoryEntry s) 4) (callStack s)) :
    load32 (s.push next).mem (directoryEntry s) = load32 s.mem (directoryEntry s) ∧
      tableEntry (s.push next) = tableEntry s := by
  have entry : load32 (s.push next).mem (directoryEntry s) = load32 s.mem (directoryEntry s) :=
    load32_congr fun x inside => push_outside next (Set.disjoint_left.mp directory inside)
  refine ⟨entry, ?_⟩
  rw [tableEntry, show directoryEntry (s.push next) = directoryEntry s from rfl, entry]
  rfl

/-- The call in front of `next` exchanges ecx and edx and comes back to `next`. -/
theorem callMapPage_exchanges (s : Machine) (next : BitVec 32)
    (present : load32 s.mem (directoryEntry s) &&& 1 ≠ 0)
    (directory : Disjoint (Span (directoryEntry s) 4) (callStack s))
    (table : Disjoint (Span (tableEntry s) 4) (callStack s)) :
    ∃ t, callMapPage s next = .ok t ∧
      t.cpu = { s.cpu with ecx := s.cpu.edx, edx := s.cpu.ecx, eip := next } ∧
      load32 t.mem (tableEntry s) = s.cpu.edx ||| 7 ∧
      ∀ x ∉ Span (tableEntry s) 4, x ∉ callStack s → t.mem x = s.mem x := by
  obtain ⟨entry, sameTable⟩ := entries_push next directory
  obtain ⟨t, called, cpu, frame⟩ := @mapPage_exchanges (s.push next) (by rwa [← entry] at present)
    (directory.mono_right callStack_below) (by rw [sameTable]; exact table.mono_right callStack_below)
  rw [sameTable] at frame
  have kept (x : BitVec 32) (apart : x ∉ Span (tableEntry s) 4)
      (low : x ∉ Span (s.cpu.esp - 4 - 24) 24) : t.mem x = (s.push next).mem x :=
    (frame x low).trans (store32_of_not_mem apart)
  have esp : t.cpu.esp = s.cpu.esp - 4 := by rw [cpu]; rfl
  have address : load32 t.mem (s.cpu.esp - 4) = next := by
    have same : load32 t.mem (s.cpu.esp - 4) = load32 (s.push next).mem (s.cpu.esp - 4) := by
      refine load32_congr fun x inside => kept x (Set.disjoint_right.mp table (callStack_top inside)) ?_
      rw [mem_span] at *
      bv_omega
    exact same.trans (load32_store32 next)
  refine ⟨t.ret, called, ?_, ?_, fun x apart outside => ?_⟩
  · simp only [Machine.ret, Machine.pop, Machine.setEsp]
    rw [esp, address, cpu, BitVec.sub_add_cancel]
    rfl
  · have written : load32 t.mem (tableEntry s) =
        load32 (store32 (s.push next).mem (tableEntry s) (s.cpu.edx ||| 7)) (tableEntry s) :=
      load32_congr fun x inside => frame x fun low =>
        Set.disjoint_left.mp table inside (callStack_below low)
    exact written.trans (load32_store32 _)
  · exact (kept x apart fun low => outside (callStack_below low)).trans (push_outside next outside)

/-- `map_page` keeps its promise exactly where it has nothing to exchange: it pops edx in front of
ecx, although it has pushed edx first. -/
theorem callMapPage_mapped_iff (s : Machine) (next : BitVec 32)
    (present : load32 s.mem (directoryEntry s) &&& 1 ≠ 0)
    (directory : Disjoint (Span (directoryEntry s) 4) (callStack s))
    (table : Disjoint (Span (tableEntry s) 4) (callStack s)) :
    (∃ t, callMapPage s next = .ok t ∧ Mapped s t) ↔ s.cpu.ecx = s.cpu.edx := by
  obtain ⟨t, called, cpu, entry, frame⟩ := callMapPage_exchanges s next present directory table
  constructor
  · rintro ⟨t', called', mapped⟩
    obtain rfl := Except.ok.inj (called.symm.trans called')
    have exchanged : t.cpu.ecx = s.cpu.edx := by rw [cpu]
    exact mapped.ecx.symm.trans exchanged
  · intro same
    exact ⟨t, called, entry, frame, by rw [cpu], by rw [cpu], by rw [cpu, same], by rw [cpu, same],
      by rw [cpu]⟩

/-- A processor with a directory at 0x1000 whose first entry is the table at 0x2000, and with
its stack below 0x8000. -/
def bootMachine (edx : BitVec 32) : Machine where
  cpu := ⟨0, 0x5000, edx, 0x1000, 0x8000, 0, 0, 0, 0, 0, 0, 0, 0, 0, 0⟩
  mem := store32 (fun _ => 0) 0x1000 0x2007

theorem bootMachine_places (edx : BitVec 32) : directoryEntry (bootMachine edx) = 0x1000 ∧
    load32 (bootMachine edx).mem 0x1000 = 0x2007 ∧ tableEntry (bootMachine edx) = 0x2014 := by
  have word : load32 (bootMachine edx).mem 0x1000 = 0x2007 := load32_store32 _
  have first : directoryEntry (bootMachine edx) = 0x1000 := by
    show 0x1000#32 + (0x5000#32 >>> 22) * 4#32 = 0x1000#32
    decide
  refine ⟨first, word, ?_⟩
  rw [tableEntry, first, word]
  show (0x2007#32 &&& 0xFFFFF000#32) + ((0x5000#32 >>> 12) % 1024#32) * 4#32 = 0x2014#32
  decide

theorem bootMachine_apart (edx : BitVec 32) :
    Disjoint (Span (directoryEntry (bootMachine edx)) 4) (callStack (bootMachine edx)) ∧
      Disjoint (Span (tableEntry (bootMachine edx)) 4) (callStack (bootMachine edx)) := by
  obtain ⟨directory, -, table⟩ := bootMachine_places edx
  rw [directory, table]
  constructor
  · refine Set.disjoint_left.mpr fun x inside => ?_
    rw [callStack, show (bootMachine edx).cpu.esp = 0x8000 from rfl, mem_span] at *
    bv_omega
  · refine Set.disjoint_left.mpr fun x inside => ?_
    rw [callStack, show (bootMachine edx).cpu.esp = 0x8000 from rfl, mem_span] at *
    bv_omega

/-- Page 5 is mapped to itself, as `idmap_first_mb_loop` does it. -/
theorem callMapPage_identity :
    ∃ t, callMapPage (bootMachine 0x5000) 0 = .ok t ∧ Mapped (bootMachine 0x5000) t := by
  obtain ⟨directory, word, -⟩ := bootMachine_places 0x5000
  obtain ⟨first, second⟩ := bootMachine_apart 0x5000
  have present : load32 (bootMachine 0x5000).mem (directoryEntry (bootMachine 0x5000)) &&& 1 ≠ 0 := by
    rw [directory, word]
    decide
  exact (callMapPage_mapped_iff (bootMachine 0x5000) 0 present first second).mpr rfl

/-- Page 5 is mapped to frame 6, and ecx comes back with the address of the frame. -/
theorem callMapPage_frame : ¬∀ (s : Machine) (next : BitVec 32),
    load32 s.mem (directoryEntry s) &&& 1 ≠ 0 →
    Disjoint (Span (directoryEntry s) 4) (callStack s) →
    Disjoint (Span (tableEntry s) 4) (callStack s) →
      ∃ t, callMapPage s next = .ok t ∧ Mapped s t := by
  intro all
  obtain ⟨directory, word, -⟩ := bootMachine_places 0x6000
  obtain ⟨first, second⟩ := bootMachine_apart 0x6000
  have present : load32 (bootMachine 0x6000).mem (directoryEntry (bootMachine 0x6000)) &&& 1 ≠ 0 := by
    rw [directory, word]
    decide
  obtain ⟨t, called, mapped⟩ := all (bootMachine 0x6000) 0 present first second
  obtain ⟨t', called', cpu, -⟩ := callMapPage_exchanges (bootMachine 0x6000) 0 present first second
  obtain rfl := Except.ok.inj (called.symm.trans called')
  have same : t.cpu.ecx = 0x5000 := mapped.ecx
  rw [cpu] at same
  exact absurd same (by decide)

end OnMachine

end Treeos.Boot
