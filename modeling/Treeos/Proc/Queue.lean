import Treeos.Proc.Scheduler

/-!
# The process queue

`scheduler_add_process` keeps the intrusive queue a NULL-terminated list without
repetition, in order of first addition, whatever happens between the additions: as long as
`scheduler_advance_stage2` does not store into `process_queue`.
-/
namespace Treeos

namespace Sched

variable (s : Sched) (p : ProcRef)

@[simp] theorem setNext_next (link : Option ProcRef) :
    (s.setNext p link).next = Function.update s.next p link := by
  funext q
  by_cases same : q = p <;> simp [next, setNext, setProc, same]

@[simp] theorem setFlags_next (flags : BitVec 8) : (s.setFlags p flags).next = s.next := by
  funext q
  by_cases same : q = p <;> simp [next, setFlags, setProc, same]

@[simp] theorem setQuantum_next (quantum : BitVec 32) :
    (s.setQuantum p quantum).next = s.next := by
  funext q
  by_cases same : q = p <;> simp [next, setQuantum, setProc, same]

@[simp] theorem setContext_next (context : BitVec 32) :
    (s.setContext p context).next = s.next := rfl

@[simp] theorem setNext_processQueue (link : Option ProcRef) :
    (s.setNext p link).processQueue = s.processQueue := rfl
@[simp] theorem setFlags_processQueue (flags : BitVec 8) :
    (s.setFlags p flags).processQueue = s.processQueue := rfl
@[simp] theorem setQuantum_processQueue (quantum : BitVec 32) :
    (s.setQuantum p quantum).processQueue = s.processQueue := rfl
@[simp] theorem setContext_processQueue (context : BitVec 32) :
    (s.setContext p context).processQueue = s.processQueue := rfl

@[simp] theorem setSwitchProcesses_next (value : Bool) :
    (s.setSwitchProcesses value).next = s.next := rfl
@[simp] theorem setCurrentProcess_next (q : Option ProcRef) :
    (s.setCurrentProcess q).next = s.next := rfl
@[simp] theorem setSwitchProcesses_processQueue (value : Bool) :
    (s.setSwitchProcesses value).processQueue = s.processQueue := rfl
@[simp] theorem setCurrentProcess_processQueue (q : Option ProcRef) :
    (s.setCurrentProcess q).processQueue = s.processQueue := rfl

/-- The structure reached from `process_queue` is the NULL-terminated list `xs`. -/
def IsQueue (s : Sched) (xs : List ProcRef) : Prop :=
  Linked.Chain s.next s.processQueue xs

def Queued (s : Sched) (p : ProcRef) : Prop := ∃ xs, s.IsQueue xs ∧ p ∈ xs

variable {s p}

theorem IsQueue.queued_iff {xs : List ProcRef} (queue : s.IsQueue xs) : s.Queued p ↔ p ∈ xs := by
  constructor
  · rintro ⟨ys, queue', member⟩
    exact queue.unique queue' ▸ member
  · exact fun member => ⟨xs, queue, member⟩

theorem IsQueue.nodup {xs : List ProcRef} (queue : s.IsQueue xs) : xs.Nodup :=
  Linked.Chain.nodup queue

theorem IsQueue.congr {s' : Sched} {xs : List ProcRef} (queue : s.IsQueue xs)
    (links : s'.next = s.next) (head : s'.processQueue = s.processQueue) : s'.IsQueue xs := by
  unfold IsQueue at *
  rwa [links, head]

/-! ### The walk -/

theorem walkQueue_cons {node : ProcRef} {fuel : Nat} :
    s.walkQueue p (fuel + 1) node = match s.next node with
      | none => some (.last node)
      | some succ => if succ = p then some .duplicate else s.walkQueue p fuel succ := rfl

/-- From a node on, the walk finds `p` behind it or stops at the end. -/
theorem walkQueue_spec {node : ProcRef} {rest : List ProcRef}
    (chain : Linked.Chain s.next (some node) (node :: rest)) {fuel : Nat}
    (enough : rest.length < fuel) :
    (p ∈ rest ∧ s.walkQueue p fuel node = some .duplicate) ∨
    (p ∉ rest ∧ ∃ front last, node :: rest = front ++ [last] ∧
      s.walkQueue p fuel node = some (.last last)) := by
  induction rest generalizing node fuel with
  | nil =>
    obtain ⟨fuel, rfl⟩ : ∃ n, fuel = n + 1 := ⟨fuel - 1, by omega⟩
    have ends : s.next node = none := chain.2
    exact .inr ⟨by simp, [], node, rfl, by rw [walkQueue_cons, ends]⟩
  | cons succ rest ih =>
    rw [List.length_cons] at enough
    obtain ⟨fuel, rfl⟩ : ∃ n, fuel = n + 1 := ⟨fuel - 1, by omega⟩
    have link : s.next node = some succ := chain.2.1
    rw [walkQueue_cons, link]
    by_cases found : succ = p
    · exact .inl ⟨by simp [found], by simp [found]⟩
    · simp only [if_neg found, List.mem_cons, Ne.symm found, false_or]
      have tail : Linked.Chain s.next (some succ) (succ :: rest) := ⟨rfl, chain.2.2⟩
      have shorter : rest.length < fuel := by omega
      rcases ih tail shorter with duplicate | ⟨absent, front, last, split, walk⟩
      · exact .inl duplicate
      · exact .inr ⟨absent, node :: front, last, by rw [split, List.cons_append], walk⟩

/-- More steps do not change where a finished walk stopped. -/
theorem walkQueue_mono {node : ProcRef} {fuel more : Nat} {stop : Walk}
    (walk : s.walkQueue p fuel node = some stop) (le : fuel ≤ more) :
    s.walkQueue p more node = some stop := by
  induction fuel generalizing node more with
  | zero => cases walk
  | succ fuel ih =>
    obtain ⟨more, rfl⟩ : ∃ n, more = n + 1 := ⟨more - 1, by omega⟩
    rw [walkQueue_cons] at walk ⊢
    cases link : s.next node with
    | none => simpa only [link] using walk
    | some succ =>
      simp only [link] at walk ⊢
      split at walk
      next found => rwa [if_pos found]
      next other =>
        rw [if_neg other]
        exact ih walk (by omega)

end Sched

open Sched

/-- The queue after a call for `p`. -/
def enqueue (xs : List ProcRef) (p : ProcRef) : List ProcRef :=
  if p ∈ xs then xs else xs ++ [p]

theorem schedulerAddProcess_mono {s : Sched} {p : ProcRef} {fuel more : Nat} {r : Bool × Sched}
    (returned : schedulerAddProcess fuel s (some p) = .ok r) (le : fuel ≤ more) :
    schedulerAddProcess more s (some p) = .ok r := by
  unfold schedulerAddProcess at returned ⊢
  cases head : s.processQueue with
  | none => simpa only [head] using returned
  | some node =>
    simp only [head] at returned ⊢
    split at returned
    next same => rwa [if_pos same]
    next other =>
      rw [if_neg other]
      cases walk : s.walkQueue p fuel node with
      | none => simp [walk] at returned
      | some stop => simpa only [walk, walkQueue_mono walk le] using returned

/-- With enough steps for the queue, the call returns whether `p` was new, leaves an
old queue alone and appends a new process. -/
theorem schedulerAddProcess_spec {s : Sched} {xs : List ProcRef} {p : ProcRef}
    (queue : s.IsQueue xs) (clean : p ∉ xs → s.next p = none) {fuel : Nat}
    (enough : xs.length ≤ fuel) :
    ∃ s', schedulerAddProcess fuel s (some p) = .ok (decide (p ∉ xs), s') ∧
      s'.IsQueue (enqueue xs p) ∧ (p ∈ xs → s' = s) ∧
      (s' = s ∨ s' = s.setProcessQueue (some p) ∨ ∃ node, s' = s.setNext node (some p)) := by
  unfold schedulerAddProcess enqueue
  cases xs with
  | nil =>
    have empty : s.processQueue = none := queue
    refine ⟨s.setProcessQueue (some p), by simp [empty], ?_, by simp, .inr (.inl rfl)⟩
    exact ⟨rfl, clean (by simp)⟩
  | cons head rest =>
    have first : s.processQueue = some head := queue.1
    simp only [first]
    by_cases same : head = p
    · exact ⟨s, by simp [same], by simpa [← same] using queue, fun _ => rfl, .inl rfl⟩
    · have chain : Linked.Chain s.next (some head) (head :: rest) := first ▸ queue
      rw [if_neg same]
      rcases walkQueue_spec (p := p) chain enough with
        ⟨member, walk⟩ | ⟨absent, front, last, split, walk⟩
      · exact ⟨s, by simp [walk, member], by simpa [member] using queue, fun _ => rfl, .inl rfl⟩
      · have new : p ∉ front ++ [last] := by simpa [← split, absent] using Ne.symm same
        rw [split] at clean queue ⊢
        refine ⟨s.setNext last (some p), ?_, ?_, fun member => absurd member new,
          .inr (.inr ⟨_, rfl⟩)⟩
        · rw [walk, decide_eq_true new]
        · rw [if_neg new]
          unfold Sched.IsQueue
          rw [setNext_next]
          exact Linked.Chain.append queue new (clean new)

/-! ### The store of four bytes -/

/-- No byte of `process_queue` is behind `g_switch_processes`. -/
def FlagPlaces.KeepsQueue (places : FlagPlaces) : Prop :=
  ∀ i, .processQueue i ∉ places.behindSwitch

/-- No byte of `g_current_process` is behind `g_switch_processes`. -/
def FlagPlaces.KeepsCurrent (places : FlagPlaces) : Prop :=
  ∀ i, .currentProcess i ∉ places.behindSwitch

theorem FlagPlaces.padded_keeps : padded.KeepsQueue ∧ padded.KeepsCurrent := by
  unfold KeepsQueue KeepsCurrent
  decide

def Neighbour.queueByte : Neighbour → Option (Fin 4)
  | .processQueue i => some i
  | _ => none

def Neighbour.currentByte : Neighbour → Option (Fin 4)
  | .currentProcess i => some i
  | _ => none

/-- What the store leaves of a value of `process_queue`. -/
def FlagPlaces.queueStored (places : FlagPlaces) (p : Option ProcRef) : Option ProcRef :=
  (places.behindSwitch.filterMap Neighbour.queueByte).foldl clearPointerByte p

/-- What the store leaves of a value of `g_current_process`. -/
def FlagPlaces.currentStored (places : FlagPlaces) (p : Option ProcRef) : Option ProcRef :=
  (places.behindSwitch.filterMap Neighbour.currentByte).foldl clearPointerByte p

section Stage2

variable {places : FlagPlaces} {s : Sched}

theorem clear_structures (bs : List Neighbour) (s : Sched) :
    (bs.foldl Neighbour.clear s).proc = s.proc ∧
      (bs.foldl Neighbour.clear s).thread = s.thread := by
  induction bs generalizing s with
  | nil => exact ⟨rfl, rfl⟩
  | cons b bs ih =>
    have first := ih (b.clear s)
    cases b <;> exact first

/-- Of the queue pointer, the bytes that are behind the flag are cleared. -/
theorem clear_processQueue (bs : List Neighbour) (s : Sched) :
    (bs.foldl Neighbour.clear s).processQueue =
      (bs.filterMap Neighbour.queueByte).foldl clearPointerByte s.processQueue := by
  induction bs generalizing s with
  | nil => rfl
  | cons b bs ih =>
    rw [List.foldl_cons, ih]
    cases b <;> rfl

theorem clear_currentProcess (bs : List Neighbour) (s : Sched) :
    (bs.foldl Neighbour.clear s).currentProcess =
      (bs.filterMap Neighbour.currentByte).foldl clearPointerByte s.currentProcess := by
  induction bs generalizing s with
  | nil => rfl
  | cons b bs ih =>
    rw [List.foldl_cons, ih]
    cases b <;> rfl

@[simp] theorem schedulerAdvanceStage2_proc : (schedulerAdvanceStage2 places s).proc = s.proc :=
  (clear_structures _ _).1

@[simp] theorem schedulerAdvanceStage2_next : (schedulerAdvanceStage2 places s).next = s.next := by
  funext p
  unfold Sched.next
  rw [schedulerAdvanceStage2_proc]

@[simp] theorem schedulerAdvanceStage2_processQueue :
    (schedulerAdvanceStage2 places s).processQueue = places.queueStored s.processQueue :=
  clear_processQueue _ _

@[simp] theorem schedulerAdvanceStage2_currentProcess :
    (schedulerAdvanceStage2 places s).currentProcess = places.currentStored s.currentProcess :=
  clear_currentProcess _ _

theorem FlagPlaces.KeepsQueue.stored (keeps : places.KeepsQueue) (p : Option ProcRef) :
    places.queueStored p = p := by
  have none : places.behindSwitch.filterMap Neighbour.queueByte = [] := by
    rw [List.filterMap_eq_nil_iff]
    intro b member
    cases b with
    | processQueue i => exact absurd member (keeps i)
    | _ => rfl
  rw [queueStored, none]
  rfl

theorem FlagPlaces.KeepsCurrent.stored (keeps : places.KeepsCurrent) (p : Option ProcRef) :
    places.currentStored p = p := by
  have none : places.behindSwitch.filterMap Neighbour.currentByte = [] := by
    rw [List.filterMap_eq_nil_iff]
    intro b member
    cases b with
    | currentProcess i => exact absurd member (keeps i)
    | _ => rfl
  rw [currentStored, none]
  rfl

theorem clearPointerByte_power (i j : Fin 4) :
    clearPointerByte (some (256 ^ i.val)) j = if j = i then none else some (256 ^ i.val) := by
  revert i j
  decide

theorem clearPointerByte_none (j : Fin 4) : clearPointerByte none j = none := by
  revert j
  decide

/-- A pointer whose only byte that is not zero is cleared becomes NULL. -/
theorem foldl_clear_power {i : Fin 4} {is : List (Fin 4)} (member : i ∈ is) :
    is.foldl clearPointerByte (some (256 ^ i.val)) = none := by
  induction is with
  | nil => cases member
  | cons j js ih =>
    rw [List.foldl_cons, clearPointerByte_power]
    by_cases same : j = i
    · rw [if_pos same]
      have stays (ks : List (Fin 4)) : ks.foldl clearPointerByte none = none := by
        induction ks with
        | nil => rfl
        | cons k ks ih => rw [List.foldl_cons, clearPointerByte_none, ih]
      exact stays js
    · rw [if_neg same]
      exact ih ((List.mem_cons.mp member).resolve_left (Ne.symm same))

/-- Where a byte of the queue pointer is behind the flag, the store can lose the queue. -/
theorem queueStored_power {i : Fin 4} (behind : .processQueue i ∈ places.behindSwitch) :
    places.queueStored (some (256 ^ i.val)) = none :=
  foldl_clear_power (List.mem_filterMap.mpr ⟨_, behind, rfl⟩)

theorem currentStored_power {i : Fin 4} (behind : .currentProcess i ∈ places.behindSwitch) :
    places.currentStored (some (256 ^ i.val)) = none :=
  foldl_clear_power (List.mem_filterMap.mpr ⟨_, behind, rfl⟩)

end Stage2

/-! ### Runs of the scheduler -/

variable {places : FlagPlaces}

/-- What happened, with the answer of an addition and the process switched to. -/
inductive SchedEvent where
  | add (p : ProcRef) (ret : Bool)
  | tick
  | yield
  | switch (target : Option ProcRef)

/-- Additions, ticks, yields and switches in any order. A process that is not queued
is added with `next == NULL`. -/
inductive SchedStep (places : FlagPlaces) : Sched → SchedEvent → Sched → Prop
  | add {s s' : Sched} {fuel : Nat} {p : ProcRef} {ret : Bool}
      (clean : ¬s.Queued p → s.next p = none)
      (returned : schedulerAddProcess fuel s (some p) = .ok (ret, s')) :
      SchedStep places s (.add p ret) s'
  | tick {s s' : Sched} (returned : schedulerTick s = .ok s') : SchedStep places s .tick s'
  | yield {s s' : Sched} (returned : processYield s = .ok s') : SchedStep places s .yield s'
  | switch {s s' : Sched} {context : BitVec 32}
      (returned : contextSwitch places context s = .ok s') :
      SchedStep places s (.switch s'.currentProcess) s'

/-- The process after `p` in the queue, or the first one. -/
def Sched.following (s : Sched) (p : ProcRef) : Option ProcRef :=
  match s.next p with
  | none => s.processQueue
  | some succ => some succ

theorem Sched.following_congr {s s' : Sched} (links : s'.next = s.next)
    (head : s'.processQueue = s.processQueue) (p : ProcRef) : s'.following p = s.following p := by
  unfold Sched.following
  rw [links, head]

theorem schedulerFindNextBest_eq {s : Sched} {p : ProcRef} (current : s.currentProcess = some p) :
    schedulerFindNextBest s = .ok (s.following p) := by
  unfold schedulerFindNextBest Sched.following Sched.next
  simp only [current]
  cases (s.proc p).next <;> rfl

/-- What a tick does: it counts down and may ask for a switch. -/
theorem schedulerTick_cases {s s' : Sched} (returned : schedulerTick s = .ok s') :
    ∃ p flag, s.currentProcess = some p ∧
      s' = (s.setQuantum p ((s.proc p).quantum - 1)).setSwitchProcesses flag := by
  unfold schedulerTick at returned
  split at returned
  · cases returned
  next p current =>
    dsimp only at returned
    split at returned
    · split at returned
      · cases returned
      · split at returned <;> cases returned
        · exact ⟨p, true, current, rfl⟩
        · exact ⟨p, s.switchProcesses, current, rfl⟩
    · cases returned
      exact ⟨p, s.switchProcesses, current, rfl⟩

theorem processYield_cases {s s' : Sched} (returned : processYield s = .ok s') :
    ∃ p, s.currentProcess = some p ∧
      s' = s.setFlags p ((s.proc p).flags ||| procDebugYield) := by
  unfold processYield at returned
  split at returned
  · cases returned
  next p current =>
    cases returned
    exact ⟨p, current, rfl⟩

theorem stage1Flags_yield (flags : BitVec 8) : stage1Flags flags &&& procDebugYield = 0#8 := by
  have cleared (x y z : BitVec 8) : (x &&& ~~~y &&& z) &&& y = 0#8 := by
    ext i bound
    simp only [BitVec.getElem_and, BitVec.getElem_not, BitVec.getElem_zero]
    cases x[i] <;> cases y[i] <;> cases z[i] <;> rfl
  unfold stage1Flags
  dsimp only
  split
  · exact cleared _ _ _
  · have plain := cleared flags procDebugYield (BitVec.allOnes 8)
    rwa [BitVec.and_allOnes] at plain

/-- The first stage clears the yield flag of the current process, stores its context and makes
the following process current. -/
theorem contextSwitch_eq {s : Sched} {p : ProcRef} (context : BitVec 32)
    (current : s.currentProcess = some p) :
    contextSwitch places context s = .ok (schedulerAdvanceStage2 places
      (((s.setFlags p (stage1Flags (s.proc p).flags)).setContext p context).setCurrentProcess
        (s.following p))) := by
  have best := schedulerFindNextBest_eq
    (s := (s.setFlags p (stage1Flags (s.proc p).flags)).setContext p context) current
  have same : ((s.setFlags p (stage1Flags (s.proc p).flags)).setContext p context).following p =
      s.following p := Sched.following_congr (by simp) (by rfl) p
  rw [same] at best
  unfold contextSwitch schedulerAdvanceStage1
  simp only [current, best, bind, Except.bind]

theorem contextSwitch_cases {s s' : Sched} {context : BitVec 32}
    (returned : contextSwitch places context s = .ok s') :
    ∃ p, s.currentProcess = some p ∧
      s' = schedulerAdvanceStage2 places
        (((s.setFlags p (stage1Flags (s.proc p).flags)).setContext p context).setCurrentProcess
          (s.following p)) := by
  cases current : s.currentProcess with
  | none =>
    unfold contextSwitch schedulerAdvanceStage1 at returned
    simp only [current] at returned
    cases returned
  | some p =>
    rw [contextSwitch_eq context current] at returned
    cases returned
    exact ⟨p, rfl, rfl⟩

/-- Only additions touch the queue. -/
def SchedEvent.enqueue (xs : List ProcRef) : SchedEvent → List ProcRef
  | .add p _ => Treeos.enqueue xs p
  | _ => xs

theorem SchedStep.queue {s s' : Sched} {e : SchedEvent} {xs : List ProcRef}
    (keeps : places.KeepsQueue) (queue : s.IsQueue xs) (step : SchedStep places s e s') :
    s'.IsQueue (e.enqueue xs) := by
  cases step with
  | @add _ fuel p ret clean returned =>
    have new : p ∉ xs → s.next p = none := fun absent =>
      clean fun queued => absent (queue.queued_iff.mp queued)
    obtain ⟨t, answer, queue', _⟩ := schedulerAddProcess_spec queue new
      (Nat.le_max_right fuel xs.length)
    rw [schedulerAddProcess_mono returned (Nat.le_max_left fuel xs.length)] at answer
    cases answer
    exact queue'
  | tick returned =>
    obtain ⟨p, flag, _, rfl⟩ := schedulerTick_cases returned
    exact queue.congr (by simp) rfl
  | yield returned =>
    obtain ⟨p, _, rfl⟩ := processYield_cases returned
    exact queue.congr (by simp) rfl
  | switch returned =>
    obtain ⟨p, _, rfl⟩ := contextSwitch_cases returned
    exact queue.congr (by simp) (by simp [keeps.stored])

/-- The processes of a history of events in order of first addition. -/
def firstAdditions (events : List SchedEvent) : List ProcRef :=
  events.foldl SchedEvent.enqueue []

theorem run_queue {init s : Sched} (keeps : places.KeepsQueue) (empty : init.processQueue = none)
    {events : List SchedEvent} (run : Run.From (SchedStep places) init events s) :
    s.IsQueue (firstAdditions events) := by
  refine run.invariant (fun events s => s.IsQueue (firstAdditions events)) empty ?_
  intro events s e s' _ queue step
  rw [firstAdditions, List.foldl_append]
  exact step.queue keeps queue

/-- The queue is a NULL-terminated list without repetition of the processes added, in order of
first addition; and the next call returns, false exactly for a queued process, whose queue it
leaves alone. -/
structure QueuedInOrder (events : List SchedEvent) (s : Sched) : Prop where
  queue : s.IsQueue (firstAdditions events)
  nodup : (firstAdditions events).Nodup
  addition : ∀ p, (¬s.Queued p → s.next p = none) →
    ∃ s', (∀ fuel ≥ (firstAdditions events).length,
        schedulerAddProcess fuel s (some p) = .ok (decide (p ∉ firstAdditions events), s')) ∧
      (p ∈ firstAdditions events → s' = s) ∧
      (p ∉ firstAdditions events → s'.IsQueue (firstAdditions events ++ [p]))

theorem Sched.IsQueue.queuedInOrder {s : Sched} {events : List SchedEvent}
    (queue : s.IsQueue (firstAdditions events)) : QueuedInOrder events s := by
  refine ⟨queue, queue.nodup, fun p clean => ?_⟩
  have new : p ∉ firstAdditions events → s.next p = none := fun absent =>
    clean fun queued => absent (queue.queued_iff.mp queued)
  obtain ⟨s', answer, queue', same, _⟩ := schedulerAddProcess_spec queue new (Nat.le_refl _)
  refine ⟨s', fun fuel enough => schedulerAddProcess_mono answer enough, same, fun absent => ?_⟩
  simpa only [enqueue, if_neg absent] using queue'

/-- The scheduler before start-up: all memory is zero. -/
def blankSched : Sched where
  proc _ := ⟨0, 0#32, 0#8, 0#32, none⟩
  thread _ := ⟨0#32, none, none⟩
  processQueue := none
  currentProcess := none
  preemptionEnabled := false
  switchProcesses := false

/-- One process is added, made current by `scheduler_bootstrap_thread` and switched away from. -/
theorem oneProcess_run (places : FlagPlaces) (p : ProcRef) :
    ∃ s, Run.From (SchedStep places)
        (schedulerInit { blankSched with currentProcess := some p })
        [.add p true, .switch s.currentProcess] s ∧
      (∀ q, s.next q = none) ∧
      s.processQueue = places.queueStored (some p) := by
  let init := schedulerInit { blankSched with currentProcess := some p }
  have added : SchedStep places init (.add p true) (init.setProcessQueue (some p)) :=
    @SchedStep.add places init _ 0 p true (fun _ => rfl) rfl
  have switched : contextSwitch places 0 (init.setProcessQueue (some p)) = .ok _ :=
    contextSwitch_eq 0 rfl
  refine ⟨_, (Run.From.single added).snoc _ (.switch switched), fun q => ?_, ?_⟩
  · simp only [schedulerAdvanceStage2_next, setCurrentProcess_next, setContext_next,
      setFlags_next]
    rfl
  · exact schedulerAdvanceStage2_processQueue

end Treeos
