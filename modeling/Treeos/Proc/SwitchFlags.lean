import Treeos.Proc.Switch

/-!
# The scheduler's flags

`g_preemption_enabled` and `g_switch_processes` are C variables of type `bool`, one byte
each. The assembly compares and stores four bytes at their addresses.
-/
namespace Treeos

open ByteMemory X86

/-- Whether `int_handler_stub` goes on to switch processes: two `cmpl $0` with a `je` each. -/
def stubSwitches (preemptionEnabled switchProcesses : BitVec 32) (m : Memory) : Bool :=
  load32 m preemptionEnabled != 0 && load32 m switchProcesses != 0

/-- `scheduler_advance_stage2`, for any place of the variables -/
def advanceStage2At (currentProcess switchProcesses : BitVec 32) (s : Machine) : Machine :=
  let eax := load32 s.mem currentProcess
  let edx := load32 s.mem eax
  let esp := load32 s.mem edx
  { cpu := { s.cpu with eax := eax, edx := edx, esp := esp }
    mem := store32 s.mem switchProcesses 0 }

theorem Kernel.advanceStage2_at (K : Kernel) (s : Machine) :
    K.advanceStage2 s = advanceStage2At K.currentProcess K.switchProcesses s := rfl

/-- The three bytes behind a variable are zero. -/
def ClearBehind (m : Memory) (a : BitVec 32) : Prop := ∀ x ∈ Span a 4, x ≠ a → m x = 0

variable {m : Memory} {a x : BitVec 32}

/-! ### Four bytes at the address of one -/

theorem clearBehind_iff : ClearBehind m a ↔ m (a + 1) = 0 ∧ m (a + 2) = 0 ∧ m (a + 3) = 0 := by
  constructor
  · intro clear
    have byte (i : BitVec 32) (small : i.toNat < 4) (behind : i ≠ 0#32) : m (a + i) = 0 := by
      refine clear (a + i) ?_ ?_
      · rw [mem_span]
        bv_omega
      · bv_omega
    exact ⟨byte 1 (by decide) (by decide), byte 2 (by decide) (by decide),
      byte 3 (by decide) (by decide)⟩
  · rintro ⟨first, second, third⟩ x inside behind
    rw [mem_span] at inside
    have place : x = a + 1#32 ∨ x = a + 2#32 ∨ x = a + 3#32 := by bv_omega
    rcases place with rfl | rfl | rfl
    · exact first
    · exact second
    · exact third

theorem append_eq_zero {n k : Nat} (v : BitVec n) (w : BitVec k) :
    v ++ w = 0 ↔ v = 0 ∧ w = 0 := by
  constructor
  · intro zero
    have bits (i : Nat) : (v ++ w).getLsbD i = false := by
      rw [zero]
      exact BitVec.getLsbD_zero
    refine ⟨BitVec.eq_of_getLsbD_eq fun i bound => ?_, BitVec.eq_of_getLsbD_eq fun i bound => ?_⟩
    · have bit := bits (k + i)
      rw [BitVec.getLsbD_append, if_neg (by omega), Nat.add_sub_cancel_left] at bit
      exact bit.trans BitVec.getLsbD_zero.symm
    · have bit := bits i
      rw [BitVec.getLsbD_append, if_pos bound] at bit
      exact bit.trans BitVec.getLsbD_zero.symm
  · rintro ⟨rfl, rfl⟩
    exact BitVec.zero_append_zero

/-- A variable counts as true when it is, or when a byte behind it is not zero. -/
theorem load32_eq_zero_iff : load32 m a = 0 ↔ m a = 0 ∧ ClearBehind m a := by
  rw [clearBehind_iff, load32, append_eq_zero, append_eq_zero, append_eq_zero]
  constructor
  · rintro ⟨⟨⟨third, second⟩, first⟩, own⟩
    exact ⟨own, first, second, third⟩
  · rintro ⟨own, first, second, third⟩
    exact ⟨⟨⟨third, second⟩, first⟩, own⟩

/-- The store of a zero word changes the bytes that are not zero. -/
theorem store32_zero_changes (x : BitVec 32) :
    store32 m a 0 x ≠ m x ↔ x ∈ Span a 4 ∧ m x ≠ 0 := by
  by_cases inside : x ∈ Span a 4
  · have stored : store32 m a 0 x = 0 := by
      rw [store32, if_pos (mem_span.mp inside)]
      exact congrArg (BitVec.setWidth 8) BitVec.zero_ushiftRight
    rw [stored]
    exact ⟨fun changed => ⟨inside, Ne.symm changed⟩, fun both => Ne.symm both.2⟩
  · rw [store32_of_not_mem inside]
    exact ⟨fun changed => absurd rfl changed, fun both => absurd both.1 inside⟩

/-! ### What the neighbours decide -/

variable {preemptionEnabled switchProcesses currentProcess : BitVec 32} {s : Machine}

theorem stubSwitches_iff : stubSwitches preemptionEnabled switchProcesses m = true ↔
    (m preemptionEnabled ≠ 0 ∨ ¬ClearBehind m preemptionEnabled) ∧
      (m switchProcesses ≠ 0 ∨ ¬ClearBehind m switchProcesses) := by
  rw [stubSwitches, Bool.and_eq_true, bne_iff_ne, bne_iff_ne, Ne, Ne, load32_eq_zero_iff,
    load32_eq_zero_iff, not_and_or, not_and_or]

theorem advanceStage2_writes : (∀ x, (advanceStage2At currentProcess switchProcesses s).mem x ≠
    s.mem x → x = switchProcesses) ↔ ClearBehind s.mem switchProcesses := by
  constructor
  · intro alone x inside behind
    by_contra other
    exact behind (alone x ((store32_zero_changes x).mpr ⟨inside, other⟩))
  · intro clear x changed
    obtain ⟨inside, other⟩ := (store32_zero_changes x).mp changed
    by_contra behind
    exact other (clear x inside behind)

/-- In two states with the same values of the flags, the interrupt stub takes the same branch
and `scheduler_advance_stage2` writes nothing but its flag, exactly when the bytes behind
`g_switch_processes` are zero and those behind `g_preemption_enabled` decide nothing. -/
theorem switchFlags_alone_iff (preemptionEnabled switchProcesses currentProcess : BitVec 32)
    (s s' : Machine) (preemption : s.mem preemptionEnabled = s'.mem preemptionEnabled)
    (switch : s.mem switchProcesses = s'.mem switchProcesses) :
    (stubSwitches preemptionEnabled switchProcesses s.mem =
        stubSwitches preemptionEnabled switchProcesses s'.mem ∧
      (∀ x, (advanceStage2At currentProcess switchProcesses s).mem x ≠ s.mem x →
        x = switchProcesses) ∧
      ∀ x, (advanceStage2At currentProcess switchProcesses s').mem x ≠ s'.mem x →
        x = switchProcesses) ↔
    ClearBehind s.mem switchProcesses ∧ ClearBehind s'.mem switchProcesses ∧
      (s.mem switchProcesses = 0 ∨ s.mem preemptionEnabled ≠ 0 ∨
        (ClearBehind s.mem preemptionEnabled ↔ ClearBehind s'.mem preemptionEnabled)) := by
  rw [advanceStage2_writes, advanceStage2_writes, Bool.eq_iff_iff, stubSwitches_iff,
    stubSwitches_iff, ← preemption, ← switch]
  constructor
  · rintro ⟨same, clear, clear'⟩
    refine ⟨clear, clear', ?_⟩
    -- With clear bytes behind it, only `g_switch_processes` itself can be true.
    by_cases off : s.mem switchProcesses = 0
    · exact .inl off
    · by_cases on : s.mem preemptionEnabled ≠ 0
      · exact .inr (.inl on)
      · refine .inr (.inr ?_)
        simp only [on, off, false_or, ne_eq, not_false_eq_true, true_or, and_true] at same
        exact not_iff_not.mp same
  · rintro ⟨clear, clear', decides⟩
    refine ⟨?_, clear, clear'⟩
    rcases decides with off | on | same
    · exact iff_of_false (fun both => both.2.elim (fun on => on off) fun behind => behind clear)
        fun both => both.2.elim (fun on => on off) fun behind => behind clear'
    · refine and_congr (iff_of_true (.inl on) (.inl on)) (or_congr_right ?_)
      exact not_congr (iff_of_true clear clear')
    · exact and_congr (or_congr_right (not_congr same))
        (or_congr_right (not_congr (iff_of_true clear clear')))

-- the registers before `scheduler_advance_stage2`, which do not matter here
def someCpu : Cpu := ⟨0, 0, 0, 0, 0, 0, 0, 0, 0, 0, 0, 0, 0, 0, 0⟩

-- `g_preemption_enabled` at 0x100 is false, `g_switch_processes` at 0x200 is true
def switchRequested : Memory := store8 (fun _ => 0) 0x200 1

/-- A byte behind `g_preemption_enabled` makes the stub switch, and the store to
`g_switch_processes` changes the byte behind that. -/
theorem neighbours_decide :
    stubSwitches 0x100 0x200 switchRequested = false ∧
    stubSwitches 0x100 0x200 (store8 switchRequested 0x101 1) = true ∧
    (advanceStage2At 0x300 0x200 ⟨someCpu, store8 switchRequested 0x201 1⟩).mem 0x201 ≠
      store8 switchRequested 0x201 1 0x201 := by
  decide

theorem clearNeighbours_alone : stubSwitches 0x100 0x200 switchRequested =
    stubSwitches 0x100 0x200 (store8 switchRequested 0x300 1) :=
  ((switchFlags_alone_iff 0x100 0x200 0x300 ⟨someCpu, switchRequested⟩
    ⟨someCpu, store8 switchRequested 0x300 1⟩ rfl rfl).mpr
    ⟨clearBehind_iff.mpr (by decide), clearBehind_iff.mpr (by decide),
      .inr (.inr (iff_of_true (clearBehind_iff.mpr (by decide))
        (clearBehind_iff.mpr (by decide))))⟩).1

end Treeos
