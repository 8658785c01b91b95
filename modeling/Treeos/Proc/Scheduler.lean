import Mathlib.Algebra.Group.Nat.Defs
import Treeos.Lib.Linked
import Treeos.Lib.Run
import Treeos.Panic

/-!
# The process scheduler

`kernel/proc/scheduler.c` with `process_yield`, the flags that `int_handler_stub` looks at and
what `scheduler_advance_stage2` clears. The `int_lock_region` brackets act on the interrupt masks
alone and are modelled with them.
-/
namespace Treeos

/-- Addresses of process and thread structures. -/
abbrev ProcRef := Nat
abbrev ThreadRef := Nat

/-- `struct thread` -/
structure Thread where
  context : BitVec 32
  owner : Option ProcRef
  next : Option ThreadRef

/-- `struct process` -/
structure Process where
  thread : ThreadRef
  pgdir : BitVec 32
  flags : BitVec 8
  quantum : BitVec 32
  next : Option ProcRef

def procFree : BitVec 8 := 1#8 <<< 0
def procDebugYield : BitVec 8 := 1#8 <<< 1
def procFreeThreadContext : BitVec 8 := 1#8 <<< 2
def defaultQuantum : BitVec 32 := 100

/-- The variables of the scheduler and the structures they lead to. -/
structure Sched where
  proc : ProcRef → Process
  thread : ThreadRef → Thread
  processQueue : Option ProcRef
  currentProcess : Option ProcRef
  preemptionEnabled : Bool
  switchProcesses : Bool

namespace Sched

/-- The `next` fields of all processes. -/
def next (s : Sched) (p : ProcRef) : Option ProcRef := (s.proc p).next

/-- A store to the structure of one process. -/
def setProc (s : Sched) (p : ProcRef) (process : Process) : Sched :=
  { s with proc := Function.update s.proc p process }

def setNext (s : Sched) (p : ProcRef) (link : Option ProcRef) : Sched :=
  s.setProc p { s.proc p with next := link }

def setFlags (s : Sched) (p : ProcRef) (flags : BitVec 8) : Sched :=
  s.setProc p { s.proc p with flags := flags }

def setQuantum (s : Sched) (p : ProcRef) (quantum : BitVec 32) : Sched :=
  s.setProc p { s.proc p with quantum := quantum }

/-- A store to `p->thread->context`. -/
def setContext (s : Sched) (p : ProcRef) (context : BitVec 32) : Sched :=
  { s with thread := Function.update s.thread (s.proc p).thread
                       { s.thread (s.proc p).thread with context := context } }

def setSwitchProcesses (s : Sched) (value : Bool) : Sched := { s with switchProcesses := value }
def setCurrentProcess (s : Sched) (p : Option ProcRef) : Sched := { s with currentProcess := p }
def setProcessQueue (s : Sched) (p : Option ProcRef) : Sched := { s with processQueue := p }

/-- Where the walk of `scheduler_add_process` along the queue stops. -/
inductive Walk where
  | duplicate
  | last (node : ProcRef)

/-- The walk: stop before a node that is `p`, else at the end of the queue. -/
def walkQueue (s : Sched) (p : ProcRef) : Nat → ProcRef → Option Walk
  | 0, _ => none
  | fuel + 1, node =>
    match (s.proc node).next with
    | none => some (.last node)
    | some succ => if succ = p then some .duplicate else walkQueue s p fuel succ

end Sched

/-- `scheduler_init` -/
def schedulerInit (s : Sched) : Sched :=
  { s with processQueue := none, preemptionEnabled := true }

/-- `scheduler_add_process`; the walk may take `fuel` steps. -/
def schedulerAddProcess (fuel : Nat) (s : Sched) (p : Option ProcRef) :
    Except Panic (Bool × Sched) :=
  match p with
  | none => .error (.kassert "p")
  | some p =>
    match s.processQueue with
    | none => .ok (true, s.setProcessQueue (some p))
    | some head =>
      if head = p then .ok (false, s)
      else
        match s.walkQueue p fuel head with
        | none => .error .fuel
        | some .duplicate => .ok (false, s)
        | some (.last node) => .ok (true, s.setNext node (some p))

/-- `scheduler_find_next_best` -/
def schedulerFindNextBest (s : Sched) : Except Panic (Option ProcRef) :=
  match s.currentProcess with
  | none => .error (.kassert "g_current_process")
  | some p =>
    match (s.proc p).next with
    | none => .ok s.processQueue
    | some succ => .ok (some succ)

/-- The two flag updates of `scheduler_advance_stage1`. What the `kfree` next to the
second one does to the heap is not part of this state. -/
def stage1Flags (flags : BitVec 8) : BitVec 8 :=
  let flags := flags &&& ~~~procDebugYield
  if flags &&& procFreeThreadContext ≠ 0 then flags &&& ~~~procFreeThreadContext else flags

/-- `scheduler_advance_stage1`. Through a NULL `g_current_process` the flags are at
address 8. -/
def schedulerAdvanceStage1 (context : BitVec 32) (s : Sched) : Except Panic Sched :=
  match s.currentProcess with
  | none => .error (.pageFault 8#32)
  | some p => do
    let s := (s.setFlags p (stage1Flags (s.proc p).flags)).setContext p context
    let best ← schedulerFindNextBest s
    .ok (s.setCurrentProcess best)

/-! ### Four bytes at a flag

`g_preemption_enabled` and `g_switch_processes` have one byte each, and the assembly compares and
stores four at their addresses. What the other three belong to is up to the linker. -/

/-- What is in a byte behind one of the flags. -/
inductive Neighbour where
  | padding
  | preemptionEnabled
  | switchProcesses
  | currentProcess (i : Fin 4)
  | processQueue (i : Fin 4)
  -- a variable that is neither the scheduler's nor one of its structures
  | other (i : Nat)
deriving DecidableEq

structure FlagPlaces where
  behindPreemption : List Neighbour
  behindSwitch : List Neighbour
  length_preemption : behindPreemption.length = 3
  length_switch : behindSwitch.length = 3

def FlagPlaces.padded : FlagPlaces :=
  ⟨List.replicate 3 .padding, List.replicate 3 .padding, rfl, rfl⟩

/-- The variables as `scheduler.c` declares them, one behind the other, pointers aligned. -/
def FlagPlaces.declared : FlagPlaces where
  behindPreemption := [.switchProcesses, .padding, .padding]
  behindSwitch := [.padding, .padding, .processQueue 0]
  length_preemption := rfl
  length_switch := rfl

def pointerByte (p : Option ProcRef) (i : Fin 4) : Nat := p.getD 0 / 256 ^ i.val % 256

/-- Zero is stored in a byte of a pointer. -/
def clearPointerByte (p : Option ProcRef) (i : Fin 4) : Option ProcRef :=
  let a := p.getD 0 - pointerByte p i * 256 ^ i.val
  if a = 0 then none else some a

/-- The byte is zero; those of other variables are `other`. -/
def Neighbour.isZero (other : Nat → BitVec 8) (s : Sched) : Neighbour → Bool
  | padding => true
  | preemptionEnabled => !s.preemptionEnabled
  | switchProcesses => !s.switchProcesses
  | currentProcess i => pointerByte s.currentProcess i == 0
  | processQueue i => pointerByte s.processQueue i == 0
  | .other i => other i == 0

/-- Zero is stored in the byte. -/
def Neighbour.clear (s : Sched) : Neighbour → Sched
  | padding => s
  | preemptionEnabled => { s with preemptionEnabled := false }
  | switchProcesses => s.setSwitchProcesses false
  | currentProcess i => s.setCurrentProcess (clearPointerByte s.currentProcess i)
  | processQueue i => s.setProcessQueue (clearPointerByte s.processQueue i)
  | other _ => s

/-- What `scheduler_advance_stage2` does to the scheduler's variables. -/
def schedulerAdvanceStage2 (places : FlagPlaces) (s : Sched) : Sched :=
  places.behindSwitch.foldl Neighbour.clear (s.setSwitchProcesses false)

/-- The two `cmpl $0` of `int_handler_stub` with their `je`: whether it goes on to switch. -/
def stubSwitchesProcesses (places : FlagPlaces) (other : Nat → BitVec 8) (s : Sched) : Bool :=
  (s.preemptionEnabled || !places.behindPreemption.all (Neighbour.isZero other s)) &&
    (s.switchProcesses || !places.behindSwitch.all (Neighbour.isZero other s))

/-- `scheduler_tick`. Through NULL pointers the fields `quantum` and `next` are at
addresses 12 and 16. -/
def schedulerTick (s : Sched) : Except Panic Sched :=
  match s.currentProcess with
  | none => .error (.pageFault 12#32)
  | some p =>
    let s := s.setQuantum p ((s.proc p).quantum - 1)
    if (s.proc p).flags &&& procDebugYield ≠ 0 ∨ (s.proc p).quantum = 0 then
      match s.processQueue with
      | none => .error (.pageFault 16#32)
      | some head =>
        -- Only signal a context switch if there's multiple processes
        if (s.proc head).next.isSome then .ok (s.setSwitchProcesses true) else .ok s
    else .ok s

/-- `process_yield` -/
def processYield (s : Sched) : Except Panic Sched :=
  match s.currentProcess with
  | none => .error (.pageFault 8#32)
  | some p => .ok (s.setFlags p ((s.proc p).flags ||| procDebugYield))

/-- A whole context switch. -/
def contextSwitch (places : FlagPlaces) (context : BitVec 32) (s : Sched) : Except Panic Sched := do
  let s ← schedulerAdvanceStage1 context s
  .ok (schedulerAdvanceStage2 places s)

/-- A timer interrupt: the tick, then the switch that `int_handler_stub` makes when it finds
preemption enabled and a switch asked for. -/
def timerInterrupt (places : FlagPlaces) (other : Nat → BitVec 8) (context : BitVec 32)
    (s : Sched) : Except Panic Sched := do
  let s ← schedulerTick s
  if stubSwitchesProcesses places other s then contextSwitch places context s else .ok s

end Treeos
