import Treeos.Lib.Linked
import Treeos.Lib.Run
import Treeos.Panic

/-!
# Interrupt and IRQ handlers

The handler table and the handler lists of `interrupt.c`. The walk of
`int_register_irq_handler` moves the head of the list it walks, so it drops all but
the last node before it appends.
-/
namespace Treeos

/-- Addresses of handler functions and of list nodes. -/
abbrev IntHandler := Nat
abbrev NodeRef := Nat

/-- What the handler table points to. -/
inductive TableEntry where
  | irqIntHandler
  | syscallIntHandler
  | unexpectedIntHandler
  | registered (handler : IntHandler)
deriving DecidableEq

/-- `struct irq_handler` -/
structure IrqHandler where
  handler : Option IntHandler
  next : Option NodeRef

def intNumInterrupts : Nat := 49
def intSyscallInterrupt : Nat := 48
def firstIrqInt : Nat := 32
def numIrqs : Nat := 16

def validIrq (irq : BitVec 8) : Bool := irq.toNat < numIrqs

/-- The dispatch variables of `interrupt.c` with the nodes they lead to. -/
structure Interrupts where
  handlerTable : Nat → Option TableEntry
  irqHandlerList : Nat → Option NodeRef
  node : NodeRef → IrqHandler

namespace Interrupts

def next (s : Interrupts) (a : NodeRef) : Option NodeRef := (s.node a).next

def setEntry (s : Interrupts) (n : Nat) (entry : TableEntry) : Interrupts :=
  { s with handlerTable := Function.update s.handlerTable n (some entry) }

def setHead (s : Interrupts) (irq : Nat) (head : Option NodeRef) : Interrupts :=
  { s with irqHandlerList := Function.update s.irqHandlerList irq head }

def setNode (s : Interrupts) (a : NodeRef) (node : IrqHandler) : Interrupts :=
  { s with node := Function.update s.node a node }

/-- The loop `while ((*node)->next) *node = (*node)->next;`, where `node` points to the
head of the list. -/
def walkHead (s : Interrupts) (irq : Nat) : Nat → NodeRef → Option (Interrupts × NodeRef)
  | 0, _ => none
  | fuel + 1, a =>
    match s.next a with
    | none => some (s, a)
    | some succ => walkHead (s.setHead irq (some succ)) irq fuel succ

end Interrupts

/-- The entry that `int_init` stores at index `i`. -/
def defaultEntry (i : Nat) : TableEntry :=
  if firstIrqInt ≤ i ∧ i < firstIrqInt + numIrqs then .irqIntHandler
  else if i = intSyscallInterrupt then .syscallIntHandler
  else .unexpectedIntHandler

/-- `int_init`, less the descriptor table and the remapping of the PIC. -/
def intInit (s : Interrupts) : Interrupts :=
  let s := { s with handlerTable := fun _ => none, irqHandlerList := fun _ => none }
  (List.range intNumInterrupts).foldl (fun s i => s.setEntry i (defaultEntry i)) s

/-- `int_register_handler` -/
def intRegisterHandler (s : Interrupts) (interrupt : BitVec 8) (handler : Option IntHandler) :
    Except Panic Interrupts := do
  kassert (interrupt.toNat < intNumInterrupts) "interrupt < INT_NUM_INTERRUPTS"
  panicIf (interrupt.toNat = intSyscallInterrupt) "tried to change syscall interrupt handler"
  panicIf (firstIrqInt ≤ interrupt.toNat ∧ interrupt.toNat < firstIrqInt + numIrqs)
    "tried to change IRQ-aware interrupt handler"
  match handler with
  | none => .ok (s.setEntry interrupt.toNat .unexpectedIntHandler)
  | some h => .ok (s.setEntry interrupt.toNat (.registered h))

/-- `int_register_irq_handler`, where `kmalloc` answers `newNode`. -/
def intRegisterIrqHandler (fuel : Nat) (s : Interrupts) (irq : BitVec 8)
    (handler : Option IntHandler) (newNode : Option NodeRef) : Except Panic Interrupts := do
  kassert (validIrq irq) "VALID_IRQ(irq)"
  kassert (irq ≠ 2) "irq != 2"
  kassert handler.isSome "handler"
  match newNode with
  | none => .error (.kassert "new_node")
  | some new =>
    let s := s.setNode new ⟨handler, none⟩
    match s.irqHandlerList irq.toNat with
    | none => .ok (s.setHead irq.toNat (some new))
    | some head =>
      match s.walkHead irq.toNat fuel head with
      | none => .error .fuel
      | some (s, last) => .ok (s.setNode last { s.node last with next := some new })

/-- What the delivery of an interrupt does, in order. -/
inductive DispatchEvent where
  | call (entry : TableEntry)
  | outb (port : BitVec 16) (value : BitVec 8)
deriving DecidableEq

def picMasterCmd : BitVec 16 := 0x20
def picSlaveCmd : BitVec 16 := 0xA0

/-- The loop of `irq_int_handler`. -/
def callHandlers (s : Interrupts) : Nat → Option NodeRef → Except Panic (List DispatchEvent)
  | _, none => .ok []
  | 0, some _ => .error .fuel
  | fuel + 1, some a =>
    match (s.node a).handler with
    | none => .error (.kassert "node->handler")
    | some h => do
      let rest ← callHandlers s fuel (s.node a).next
      .ok (.call (.registered h) :: rest)

/-- The end-of-interrupt commands of `irq_int_handler`. -/
def endOfInterrupt (irq : BitVec 8) : List DispatchEvent :=
  if 8 ≤ irq.toNat then [.outb picSlaveCmd 0x20, .outb picMasterCmd 0x20]
  else [.outb picMasterCmd 0x20]

/-- `irq_int_handler` -/
def irqIntHandler (fuel : Nat) (s : Interrupts) (intNum : BitVec 32) :
    Except Panic (List DispatchEvent) := do
  let irq := (intNum - 32).setWidth 8
  kassert (validIrq irq) "VALID_IRQ(irq)"
  let calls ← callHandlers s fuel (s.irqHandlerList irq.toNat)
  .ok (calls ++ endOfInterrupt irq)

/-- The call through `g_int_handler_table` in `int_handler_stub`. What a handler other
than `irq_int_handler` does is its own business. -/
def dispatch (fuel : Nat) (s : Interrupts) (intNum : BitVec 32) :
    Except Panic (List DispatchEvent) :=
  match s.handlerTable intNum.toNat with
  | none => .error (.pageFault 0#32)
  | some .irqIntHandler => irqIntHandler fuel s intNum
  | some entry => .ok [.call entry]

/-! ### Registrations -/

inductive Registration where
  | handler (interrupt : BitVec 8) (handler : Option IntHandler)
  | irqHandler (irq : BitVec 8) (handler : Option IntHandler)

/-- The interrupt number that a registration is about. -/
def Registration.target : Registration → Nat
  | .handler interrupt _ => interrupt.toNat
  | .irqHandler irq _ => firstIrqInt + irq.toNat

/-- The list from `head` does not use the node `new`. -/
def Interrupts.Unused (s : Interrupts) (new : NodeRef) : Prop :=
  ∀ irq xs, Linked.Chain s.next (s.irqHandlerList irq) xs → new ∉ xs

/-- Calls that return. A node that `kmalloc` answers is not part of any list. -/
inductive RegistrationStep : Interrupts → Registration → Interrupts → Prop
  | handler {s s' : Interrupts} {interrupt : BitVec 8} {handler : Option IntHandler}
      (returned : intRegisterHandler s interrupt handler = .ok s') :
      RegistrationStep s (.handler interrupt handler) s'
  | irqHandler {s s' : Interrupts} {fuel : Nat} {irq : BitVec 8} {handler : Option IntHandler}
      {newNode : Option NodeRef} (fresh : ∀ new, newNode = some new → s.Unused new)
      (returned : intRegisterIrqHandler fuel s irq handler newNode = .ok s') :
      RegistrationStep s (.irqHandler irq handler) s'

/-- The handlers registered for an IRQ, in registration order. -/
def irqHandlers (irq : Nat) (calls : List Registration) : List IntHandler :=
  calls.filterMap fun
    | .irqHandler irq' handler => if irq'.toNat = irq then handler else none
    | .handler _ _ => none

/-- The last registration for an interrupt number; a NULL handler is none. -/
def lastHandler (n : Nat) (calls : List Registration) : Option IntHandler :=
  (calls.filterMap fun
    | .handler interrupt handler => if interrupt.toNat = n then some handler else none
    | .irqHandler _ _ => none).getLast?.join

/-- What the delivery of interrupt `n` is to do after the calls. -/
def registeredDispatch (calls : List Registration) (n : BitVec 32) : List DispatchEvent :=
  if firstIrqInt ≤ n.toNat ∧ n.toNat < firstIrqInt + numIrqs then
    (irqHandlers (n.toNat - firstIrqInt) calls).map (fun h => .call (.registered h)) ++
      endOfInterrupt ((n - 32).setWidth 8)
  else [.call ((lastHandler n.toNat calls).elim .unexpectedIntHandler .registered)]

/-- Every interrupt except the system call runs what was registered for it. -/
def DispatchesAsRegistered (s : Interrupts) (calls : List Registration) : Prop :=
  ∀ n : BitVec 32, n.toNat < intNumInterrupts → n.toNat ≠ intSyscallInterrupt →
    ∀ fuel ≥ calls.length, dispatch fuel s n = .ok (registeredDispatch calls n)

/-- The next registration leaves the delivery of every other interrupt alone. -/
def RegistrationIsolated (s : Interrupts) : Prop :=
  ∀ call s', RegistrationStep s call s' → ∀ n : BitVec 32, n.toNat < intNumInterrupts →
    n.toNat ≠ call.target → ∀ fuel, dispatch fuel s' n = dispatch fuel s n

/-! ### What the calls do -/

/-- The handlers that the walk leaves in a list. -/
def surviving (handlers : List IntHandler) : List IntHandler :=
  handlers.drop (handlers.length - 2)

theorem surviving_eq_iff (handlers : List IntHandler) :
    surviving handlers = handlers ↔ handlers.length ≤ 2 := by
  constructor
  · intro same
    have size := congrArg List.length same
    rw [surviving, List.length_drop] at size
    omega
  · intro few
    rw [surviving, Nat.sub_eq_zero_of_le few, List.drop_zero]

/-- Behind a list that is not empty, a registration leaves two handlers. -/
theorem surviving_snoc {handlers front : List IntHandler} {last : IntHandler}
    (ends : surviving handlers = front ++ [last]) (h : IntHandler) :
    surviving (handlers ++ [h]) = [last, h] := by
  have whole := List.take_append_drop (handlers.length - 2) handlers
  rw [show handlers.drop (handlers.length - 2) = front ++ [last] from ends,
    ← List.append_assoc] at whole
  generalize handlers.take (handlers.length - 2) ++ front = before at whole
  subst whole
  rw [surviving, List.append_assoc]
  exact List.drop_left' (by simp)

namespace Interrupts

variable {s : Interrupts} {irq : Nat}

@[simp] theorem setHead_next (head : Option NodeRef) : (s.setHead irq head).next = s.next := rfl
@[simp] theorem setHead_node (head : Option NodeRef) : (s.setHead irq head).node = s.node := rfl
@[simp] theorem setNode_irqHandlerList (a : NodeRef) (node : IrqHandler) :
    (s.setNode a node).irqHandlerList = s.irqHandlerList := rfl

theorem setNode_next (a : NodeRef) (node : IrqHandler) :
    (s.setNode a node).next = Function.update s.next a node.next := by
  funext b
  by_cases same : b = a <;> simp [next, setNode, same]

theorem setNode_of_ne {a b : NodeRef} (apart : b ≠ a) (node : IrqHandler) :
    (s.setNode a node).node b = s.node b := by
  simp [setNode, apart]

theorem setNode_self (a : NodeRef) (node : IrqHandler) : (s.setNode a node).node a = node := by
  simp [setNode]

/-- The walk ends at the last node and makes it the head. -/
theorem walkHead_spec {a last : NodeRef} {front : List NodeRef}
    (chain : Linked.Chain s.next (some a) (front ++ [last]))
    (head : s.irqHandlerList irq = some a) {fuel : Nat} {r : Interrupts × NodeRef}
    (walk : s.walkHead irq fuel a = some r) : r = (s.setHead irq (some last), last) := by
  induction fuel generalizing s a front with
  | zero => cases walk
  | succ fuel ih =>
    rw [walkHead] at walk
    cases front with
    | nil =>
      obtain ⟨here, ends⟩ := chain
      obtain rfl := Option.some.inj here
      have stays : s.setHead irq (some a) = s := by simp [setHead, ← head]
      simp only [show s.next a = none from ends] at walk
      rw [stays]
      exact (Option.some.inj walk).symm
    | cons b front =>
      obtain ⟨here, rest⟩ := chain
      obtain rfl := Option.some.inj here
      cases link : s.next a with
      | none => cases front <;> simp [link] at rest
      | some succ =>
        simp only [link] at walk
        rw [link] at rest
        have moved := ih (s := s.setHead irq (some succ)) rest (by simp [setHead]) walk
        simpa [setHead] using moved

/-- The walk ends when it may take as many steps as there are nodes. -/
theorem walkHead_returns (irq : Nat) {a : NodeRef} {xs : List NodeRef}
    (chain : Linked.Chain s.next (some a) xs) {fuel : Nat} (enough : xs.length ≤ fuel) :
    ∃ r, s.walkHead irq fuel a = some r := by
  induction xs generalizing s a fuel with
  | nil => cases chain
  | cons b xs ih =>
    obtain ⟨here, rest⟩ := chain
    obtain rfl := Option.some.inj here
    rw [List.length_cons] at enough
    obtain ⟨fuel, rfl⟩ : ∃ n, fuel = n + 1 := ⟨fuel - 1, by omega⟩
    rw [walkHead]
    cases link : s.next a with
    | none => exact ⟨(s, a), rfl⟩
    | some succ =>
      rw [link] at rest
      exact ih (s := s.setHead irq (some succ)) rest (by omega)

end Interrupts

open Interrupts

theorem callHandlers_eq {s : Interrupts} {head : Option NodeRef} {nodes : List NodeRef}
    {hs : List IntHandler} (chain : Linked.Chain s.next head nodes)
    (handlers : nodes.map (fun a => (s.node a).handler) = hs.map some) {fuel : Nat}
    (enough : nodes.length ≤ fuel) :
    callHandlers s fuel head = .ok (hs.map fun h => .call (.registered h)) := by
  induction nodes generalizing head hs fuel with
  | nil =>
    obtain rfl : hs = [] := by simpa using handlers.symm
    obtain rfl : head = none := chain
    cases fuel <;> rfl
  | cons a nodes ih =>
    cases hs with
    | nil => cases handlers
    | cons h hs =>
      obtain ⟨rfl, rest⟩ := chain
      rw [List.map_cons, List.map_cons, List.cons.injEq] at handlers
      rw [List.length_cons] at enough
      obtain ⟨fuel, rfl⟩ : ∃ n, fuel = n + 1 := ⟨fuel - 1, by omega⟩
      have shorter : nodes.length ≤ fuel := by omega
      have tail : callHandlers s fuel (s.node a).next = _ := ih rest handlers.2 shorter
      simp only [callHandlers, handlers.1, tail, bind, Except.bind, List.map_cons]

/-- Only the nodes of the list matter for its calls. -/
theorem callHandlers_congr {s s' : Interrupts} {head : Option NodeRef} {nodes : List NodeRef}
    (chain : Linked.Chain s.next head nodes) (same : ∀ a ∈ nodes, s'.node a = s.node a)
    (fuel : Nat) : callHandlers s' fuel head = callHandlers s fuel head := by
  induction nodes generalizing head fuel with
  | nil =>
    obtain rfl : head = none := chain
    cases fuel <;> rfl
  | cons a nodes ih =>
    obtain ⟨rfl, rest⟩ := chain
    cases fuel with
    | zero => rfl
    | succ fuel =>
      have tail : callHandlers s' fuel (s.node a).next = callHandlers s fuel (s.node a).next :=
        ih rest (fun b member => same b (List.mem_cons_of_mem a member)) fuel
      simp only [callHandlers, same a List.mem_cons_self, tail]

/-- The lists after a history of calls. -/
structure HandlerLists (s : Interrupts) (calls : List Registration)
    (nodes : Nat → List NodeRef) : Prop where
  chain : ∀ irq, Linked.Chain s.next (s.irqHandlerList irq) (nodes irq)
  handlers : ∀ irq, (nodes irq).map (fun a => (s.node a).handler) =
    (surviving (irqHandlers irq calls)).map some
  apart : ∀ i j, i ≠ j → (nodes i).Disjoint (nodes j)

/-- The entries after a history of calls. -/
def HandlerTable (s : Interrupts) (calls : List Registration) : Prop :=
  ∀ n < intNumInterrupts, s.handlerTable n = some
    (if defaultEntry n = .unexpectedIntHandler then
      (lastHandler n calls).elim .unexpectedIntHandler .registered
    else defaultEntry n)

theorem intRegisterHandler_cases {s s' : Interrupts} {interrupt : BitVec 8}
    {handler : Option IntHandler} (returned : intRegisterHandler s interrupt handler = .ok s') :
    interrupt.toNat < intNumInterrupts ∧ defaultEntry interrupt.toNat = .unexpectedIntHandler ∧
      s' = s.setEntry interrupt.toNat (handler.elim .unexpectedIntHandler .registered) := by
  obtain ⟨_, small, rest⟩ := bind_ok_iff.mp returned
  obtain ⟨_, syscall, rest⟩ := bind_ok_iff.mp rest
  obtain ⟨_, irq, rest⟩ := bind_ok_iff.mp rest
  rw [kassert_ok, decide_eq_true_iff] at small
  rw [panicIf_ok, decide_eq_false_iff_not] at syscall irq
  refine ⟨small, by rw [defaultEntry, if_neg irq, if_neg syscall], ?_⟩
  cases handler <;> exact (Except.ok.inj rest).symm

theorem intRegisterIrqHandler_cases {fuel : Nat} {s s' : Interrupts} {irq : BitVec 8}
    {handler : Option IntHandler} {newNode : Option NodeRef}
    (returned : intRegisterIrqHandler fuel s irq handler newNode = .ok s') :
    ∃ h new, handler = some h ∧ newNode = some new ∧ irq.toNat < numIrqs ∧
      ((s.irqHandlerList irq.toNat = none ∧
          s' = (s.setNode new ⟨some h, none⟩).setHead irq.toNat (some new)) ∨
        ∃ head t last, s.irqHandlerList irq.toNat = some head ∧
          (s.setNode new ⟨some h, none⟩).walkHead irq.toNat fuel head = some (t, last) ∧
          s' = t.setNode last { t.node last with next := some new }) := by
  obtain ⟨_, valid, rest⟩ := bind_ok_iff.mp returned
  obtain ⟨_, _, rest⟩ := bind_ok_iff.mp rest
  obtain ⟨_, given, rest⟩ := bind_ok_iff.mp rest
  rw [kassert_ok, validIrq, decide_eq_true_iff] at valid
  obtain ⟨h, rfl⟩ := Option.isSome_iff_exists.mp (kassert_ok.mp given)
  cases newNode with
  | none => cases rest
  | some new =>
    refine ⟨h, new, rfl, rfl, valid, ?_⟩
    simp only [setNode_irqHandlerList] at rest
    cases head : s.irqHandlerList irq.toNat with
    | none =>
      simp only [head] at rest
      exact .inl ⟨rfl, (Except.ok.inj rest).symm⟩
    | some a =>
      simp only [head] at rest
      cases walk : (s.setNode new ⟨some h, none⟩).walkHead irq.toNat fuel a with
      | none => simp [walk] at rest
      | some r =>
        simp only [walk] at rest
        exact .inr ⟨a, r.1, r.2, rfl, walk, (Except.ok.inj rest).symm⟩

theorem irqHandlers_snoc (i : Nat) (calls : List Registration) (irq : BitVec 8) (h : IntHandler) :
    irqHandlers i (calls ++ [.irqHandler irq (some h)]) =
      irqHandlers i calls ++ if irq.toNat = i then [h] else [] := by
  by_cases same : irq.toNat = i <;> simp [irqHandlers, List.filterMap_append, same]

theorem irqHandlers_snoc_handler (i : Nat) (calls : List Registration) (interrupt : BitVec 8)
    (handler : Option IntHandler) :
    irqHandlers i (calls ++ [.handler interrupt handler]) = irqHandlers i calls := by
  simp [irqHandlers, List.filterMap_append]

theorem lastHandler_snoc (n : Nat) (calls : List Registration) (interrupt : BitVec 8)
    (handler : Option IntHandler) :
    lastHandler n (calls ++ [.handler interrupt handler]) =
      if interrupt.toNat = n then handler else lastHandler n calls := by
  by_cases same : interrupt.toNat = n <;> simp [lastHandler, List.filterMap_append, same]

theorem lastHandler_snoc_irqHandler (n : Nat) (calls : List Registration) (irq : BitVec 8)
    (handler : Option IntHandler) :
    lastHandler n (calls ++ [.irqHandler irq handler]) = lastHandler n calls := by
  simp [lastHandler, List.filterMap_append]

/-- What a call for one IRQ leaves alone: the other lists and their nodes, and the table. -/
structure SameElsewhere (s s' : Interrupts) (nodes : Nat → List NodeRef) (i : Nat) : Prop where
  head : ∀ j ≠ i, s'.irqHandlerList j = s.irqHandlerList j
  node : ∀ j ≠ i, ∀ a ∈ nodes j, s'.node a = s.node a
  table : s'.handlerTable = s.handlerTable

/-- One list replaced by another that shares no node with the rest. -/
theorem HandlerLists.replace {s s' : Interrupts} {calls calls' : List Registration}
    {nodes : Nat → List NodeRef} (lists : HandlerLists s calls nodes) {i : Nat}
    (elsewhere : SameElsewhere s s' nodes i)
    (calls_eq : ∀ j ≠ i, irqHandlers j calls' = irqHandlers j calls) {xs : List NodeRef}
    (chain : Linked.Chain s'.next (s'.irqHandlerList i) xs)
    (handlers : xs.map (fun a => (s'.node a).handler) =
      (surviving (irqHandlers i calls')).map some)
    (apart : ∀ j ≠ i, xs.Disjoint (nodes j)) :
    HandlerLists s' calls' (Function.update nodes i xs) where
  chain j := by
    by_cases same : j = i
    · rwa [same, Function.update_self]
    · rw [Function.update_of_ne same, elsewhere.head j same]
      exact (lists.chain j).congr fun a member =>
        congrArg IrqHandler.next (elsewhere.node j same a member)
  handlers j := by
    by_cases same : j = i
    · rwa [same, Function.update_self]
    · rw [Function.update_of_ne same, calls_eq j same, ← lists.handlers j]
      exact List.map_congr_left fun a member =>
        congrArg IrqHandler.handler (elsewhere.node j same a member)
  apart j k other := by
    by_cases left : j = i <;> by_cases right : k = i
    · exact absurd (left.trans right.symm) other
    · rw [left, Function.update_self, Function.update_of_ne right]
      exact apart k right
    · rw [right, Function.update_self, Function.update_of_ne left]
      exact fun a member here => apart j left here member
    · rw [Function.update_of_ne left, Function.update_of_ne right]
      exact lists.apart j k other

theorem irqHandlers_snoc_of_ne {i : Nat} {irq : BitVec 8} (other : i ≠ irq.toNat)
    (calls : List Registration) (h : IntHandler) :
    irqHandlers i (calls ++ [.irqHandler irq (some h)]) = irqHandlers i calls := by
  rw [irqHandlers_snoc, if_neg (Ne.symm other), List.append_nil]

theorem irqHandlers_snoc_self (irq : BitVec 8) (calls : List Registration) (h : IntHandler) :
    irqHandlers irq.toNat (calls ++ [.irqHandler irq (some h)]) =
      irqHandlers irq.toNat calls ++ [h] := by
  rw [irqHandlers_snoc, if_pos rfl]

/-- The first registration for an IRQ makes its list. -/
theorem HandlerLists.first {s : Interrupts} {calls : List Registration}
    {nodes : Nat → List NodeRef} (lists : HandlerLists s calls nodes) {irq : BitVec 8}
    (empty : s.irqHandlerList irq.toNat = none) {new : NodeRef} (unused : ∀ j, new ∉ nodes j)
    (h : IntHandler) :
    let s' := (s.setNode new ⟨some h, none⟩).setHead irq.toNat (some new)
    SameElsewhere s s' nodes irq.toNat ∧ HandlerLists s' (calls ++ [.irqHandler irq (some h)])
      (Function.update nodes irq.toNat [new]) := by
  intro s'
  have elsewhere : SameElsewhere s s' nodes irq.toNat := by
    refine ⟨fun j other => by simp [s', setHead, other], fun j _ a member => ?_, rfl⟩
    exact setNode_of_ne (fun same : a = new => unused j (same ▸ member)) _
  have before : irqHandlers irq.toNat calls = [] := by
    have chain := lists.chain irq.toNat
    have handlers := congrArg List.length (lists.handlers irq.toNat)
    rw [empty] at chain
    rw [chain.unique (show Linked.Chain s.next none [] from rfl), List.length_map, List.length_map, surviving,
      List.length_drop, List.length_nil] at handlers
    exact List.eq_nil_of_length_eq_zero (by omega)
  refine ⟨elsewhere, lists.replace elsewhere (fun j other => irqHandlers_snoc_of_ne other _ _)
    ⟨?_, ?_⟩ ?_ fun j _ => by simpa using unused j⟩
  · simp [s', setHead]
  · simp only [s', setHead_next, setNode_next, Function.update_self, Linked.chain_nil]
  · rw [irqHandlers_snoc_self, before, List.map_singleton]
    simp only [s', setHead_node, setNode_self]
    rfl

/-- A further registration leaves the last node of the list and the new one. -/
theorem HandlerLists.further {s : Interrupts} {calls : List Registration}
    {nodes : Nat → List NodeRef} (lists : HandlerLists s calls nodes) {irq : BitVec 8}
    {front : List NodeRef} {last : NodeRef} (split : nodes irq.toNat = front ++ [last])
    {new : NodeRef} (unused : ∀ j, new ∉ nodes j) (h : IntHandler) :
    let t := (s.setNode new ⟨some h, none⟩).setHead irq.toNat (some last)
    let s' := t.setNode last { t.node last with next := some new }
    SameElsewhere s s' nodes irq.toNat ∧ HandlerLists s' (calls ++ [.irqHandler irq (some h)])
      (Function.update nodes irq.toNat [last, new]) := by
  intro t s'
  have lastMem : last ∈ nodes irq.toNat := by simp [split]
  have apart : new ≠ last := fun same => unused irq.toNat (same ▸ lastMem)
  have elsewhere : SameElsewhere s s' nodes irq.toNat := by
    refine ⟨fun j other => by simp [s', t, setHead, setNode, other], fun j other a member => ?_, rfl⟩
    have first : a ≠ last := fun same => lists.apart j irq.toNat other member (same ▸ lastMem)
    have second : a ≠ new := fun same => unused j (same ▸ member)
    rw [setNode_of_ne first, setHead_node, setNode_of_ne second]
  -- the new head is the last node of the old list, so the handlers before it are lost
  obtain ⟨survivors, h', ends, same⟩ : ∃ survivors h', surviving (irqHandlers irq.toNat calls) =
      survivors ++ [h'] ∧ (s.node last).handler = some h' := by
    have handlers := lists.handlers irq.toNat
    rw [split, List.map_append, List.map_singleton] at handlers
    obtain ⟨survivors, tail, ends, -, final⟩ := List.append_eq_map_iff.mp handlers
    obtain ⟨h', rfl, here⟩ := List.map_eq_singleton_iff.mp final
    exact ⟨survivors, h', ends, here.symm⟩
  refine ⟨elsewhere, lists.replace elsewhere (fun j other => irqHandlers_snoc_of_ne other _ _)
    ⟨?_, ?_, ?_⟩ ?_ fun j other a member => ?_⟩
  · simp [s', t, setHead, setNode]
  · simp only [s', setNode_next, Function.update_self]
  · simp only [s', t, setNode_next, setHead_next, Function.update_of_ne apart,
      Function.update_self, Linked.chain_nil]
  · rw [irqHandlers_snoc_self, surviving_snoc ends, List.map_cons, List.map_singleton]
    simp only [s', t, setNode_self, setNode_of_ne apart, setHead_node, setNode_of_ne apart.symm,
      same]
    rfl
  · rcases List.mem_pair.mp member with rfl | rfl
    · exact fun here => lists.apart j irq.toNat other here lastMem
    · exact unused j

/-- A registration for an IRQ changes its own list only. -/
theorem intRegisterIrqHandler_lists {fuel : Nat} {s s' : Interrupts} {calls : List Registration}
    {nodes : Nat → List NodeRef} (lists : HandlerLists s calls nodes) {irq : BitVec 8}
    {handler : Option IntHandler} {newNode : Option NodeRef}
    (fresh : ∀ new, newNode = some new → s.Unused new)
    (returned : intRegisterIrqHandler fuel s irq handler newNode = .ok s') :
    irq.toNat < numIrqs ∧ SameElsewhere s s' nodes irq.toNat ∧
      ∃ xs, HandlerLists s' (calls ++ [.irqHandler irq handler])
        (Function.update nodes irq.toNat xs) ∧
        ∀ a ∈ xs, a ∈ nodes irq.toNat ∨ newNode = some a := by
  obtain ⟨h, new, rfl, rfl, valid, shape⟩ := intRegisterIrqHandler_cases returned
  have unused : ∀ j, new ∉ nodes j := fun j => fresh new rfl j (nodes j) (lists.chain j)
  refine ⟨valid, ?_⟩
  rcases shape with ⟨empty, rfl⟩ | ⟨head, t, last, start, walk, rfl⟩
  · have ⟨elsewhere, next⟩ := lists.first empty unused h
    exact ⟨elsewhere, _, next, by simp⟩
  · have chain := lists.chain irq.toNat
    rw [start] at chain
    obtain ⟨front, tail, split⟩ : ∃ front tail, nodes irq.toNat = front ++ [tail] := by
      rcases List.eq_nil_or_concat (nodes irq.toNat) with none | ⟨front, tail, split⟩
      · rw [none] at chain
        cases chain
      · exact ⟨front, tail, by rw [split, List.concat_eq_append]⟩
    have linked : Linked.Chain (s.setNode new ⟨some h, none⟩).next (some head)
        (front ++ [tail]) := by
      rw [← split]
      refine chain.congr fun a member => ?_
      rw [setNode_next, Function.update_of_ne fun same : a = new => unused _ (same ▸ member)]
    obtain ⟨rfl, rfl⟩ := Prod.mk.inj (walkHead_spec linked start walk)
    have ⟨elsewhere, next⟩ := lists.further split unused h
    refine ⟨elsewhere, _, next, fun a member => ?_⟩
    rcases List.mem_pair.mp member with rfl | rfl
    · exact .inl (by simp [split])
    · exact .inr rfl

/-! ### Delivery -/

theorem irqNumber {n : BitVec 32} (first : firstIrqInt ≤ n.toNat)
    (last : n.toNat < firstIrqInt + numIrqs) :
    ((n - 32).setWidth 8).toNat = n.toNat - firstIrqInt := by
  have base : (32 : BitVec 32).toNat = 32 := rfl
  unfold firstIrqInt numIrqs at *
  rw [BitVec.toNat_setWidth, BitVec.toNat_sub, base]
  omega

theorem dispatch_irq {s : Interrupts} {calls : List Registration} {n : BitVec 32}
    (table : HandlerTable s calls) (first : firstIrqInt ≤ n.toNat)
    (last : n.toNat < firstIrqInt + numIrqs) (fuel : Nat) :
    dispatch fuel s n = (do
      let calls ← callHandlers s fuel (s.irqHandlerList (n.toNat - firstIrqInt))
      .ok (calls ++ endOfInterrupt ((n - 32).setWidth 8))) := by
  have entry : defaultEntry n.toNat = .irqIntHandler := by
    rw [defaultEntry, if_pos ⟨first, last⟩]
  have valid : validIrq ((n - 32).setWidth 8) = true := by
    rw [validIrq, irqNumber first last, decide_eq_true_iff]
    omega
  have stored := table n.toNat (by unfold intNumInterrupts firstIrqInt numIrqs at *; omega)
  rw [entry, if_neg (by decide)] at stored
  simp only [dispatch, stored, irqIntHandler, kassert_ok.mpr valid, irqNumber first last, bind,
    Except.bind]

theorem dispatch_other {s : Interrupts} {calls : List Registration} {n : BitVec 32}
    (table : HandlerTable s calls) (small : n.toNat < intNumInterrupts)
    (syscall : n.toNat ≠ intSyscallInterrupt)
    (other : ¬(firstIrqInt ≤ n.toNat ∧ n.toNat < firstIrqInt + numIrqs)) (fuel : Nat) :
    dispatch fuel s n =
      .ok [.call ((lastHandler n.toNat calls).elim .unexpectedIntHandler .registered)] := by
  have stored := table n.toNat small
  rw [if_pos (by rw [defaultEntry, if_neg other, if_neg syscall])] at stored
  cases last : lastHandler n.toNat calls <;> simp [dispatch, stored, last]

theorem HandlerTable.irq_range {s : Interrupts} {calls : List Registration}
    (table : HandlerTable s calls) {n : Nat} (small : n < intNumInterrupts)
    (entry : s.handlerTable n = some .irqIntHandler) :
    firstIrqInt ≤ n ∧ n < firstIrqInt + numIrqs := by
  have stored := table n small
  rw [entry, Option.some_inj] at stored
  split at stored
  · cases last : lastHandler n calls <;> simp [last] at stored
  · by_contra other
    rw [defaultEntry, if_neg other] at stored
    split at stored <;> cases stored

/-- The delivery runs what the walks left over. -/
theorem dispatch_surviving {s : Interrupts} {calls : List Registration}
    {nodes : Nat → List NodeRef} (lists : HandlerLists s calls nodes)
    (table : HandlerTable s calls) {n : BitVec 32} (first : firstIrqInt ≤ n.toNat)
    (last : n.toNat < firstIrqInt + numIrqs) {fuel : Nat} (enough : calls.length ≤ fuel) :
    dispatch fuel s n = .ok
      ((surviving (irqHandlers (n.toNat - firstIrqInt) calls)).map
        (fun h => .call (.registered h)) ++ endOfInterrupt ((n - 32).setWidth 8)) := by
  have size := congrArg List.length (lists.handlers (n.toNat - firstIrqInt))
  have few : (irqHandlers (n.toNat - firstIrqInt) calls).length ≤ calls.length :=
    List.length_filterMap_le _ _
  rw [List.length_map, List.length_map, surviving, List.length_drop] at size
  rw [dispatch_irq table first last, callHandlers_eq (lists.chain _) (lists.handlers _) (by omega)]
  rfl

theorem setEntries_table (s : Interrupts) (k : Nat) {n : Nat} (small : n < k) :
    ((List.range k).foldl (fun s i => s.setEntry i (defaultEntry i)) s).handlerTable n =
      some (defaultEntry n) := by
  induction k with
  | zero => omega
  | succ k ih =>
    rw [List.range_succ, List.foldl_append, List.foldl_cons, List.foldl_nil]
    by_cases same : n = k
    · simp [setEntry, same]
    · simpa [setEntry, same] using ih (by omega)

theorem setEntries_lists (s : Interrupts) (k : Nat) :
    ((List.range k).foldl (fun s i => s.setEntry i (defaultEntry i)) s).irqHandlerList =
      s.irqHandlerList := by
  induction k with
  | zero => rfl
  | succ k ih => rwa [List.range_succ, List.foldl_append]

/-- What registrations keep. -/
def Registered (calls : List Registration) (s : Interrupts) : Prop :=
  (∃ nodes, HandlerLists s calls nodes) ∧ HandlerTable s calls

theorem intInit_handlerLists (s : Interrupts) : HandlerLists (intInit s) [] fun _ => [] :=
  ⟨fun irq => congrFun (setEntries_lists _ _) irq, fun _ => rfl,
    fun _ _ _ => List.disjoint_nil_left []⟩

theorem intInit_registered (s : Interrupts) : Registered [] (intInit s) := by
  refine ⟨⟨_, intInit_handlerLists s⟩, fun n small => ?_⟩
  rw [intInit, setEntries_table _ _ small]
  split
  next entry => rw [entry]; rfl
  next => rfl

theorem RegistrationStep.registered {s s' : Interrupts} {calls : List Registration}
    {call : Registration} (inv : Registered calls s) (step : RegistrationStep s call s') :
    Registered (calls ++ [call]) s' := by
  obtain ⟨⟨nodes, lists⟩, table⟩ := inv
  cases step with
  | @handler _ interrupt handler returned =>
    obtain ⟨small, unexpected, rfl⟩ := intRegisterHandler_cases returned
    refine ⟨⟨nodes, lists.chain, fun irq => ?_, lists.apart⟩, fun n bound => ?_⟩
    · rw [irqHandlers_snoc_handler]
      exact lists.handlers irq
    · rw [lastHandler_snoc]
      by_cases same : interrupt.toNat = n
      · simp [setEntry, ← same, unexpected]
      · simpa [setEntry, same, Ne.symm same] using table n bound
  | irqHandler fresh returned =>
    obtain ⟨_, elsewhere, xs, next, _⟩ := intRegisterIrqHandler_lists lists fresh returned
    refine ⟨⟨_, next⟩, fun n bound => ?_⟩
    rw [lastHandler_snoc_irqHandler, elsewhere.table]
    exact table n bound

theorem run_registered {init s : Interrupts} {calls : List Registration}
    (run : Run.From RegistrationStep (intInit init) calls s) : Registered calls s :=
  run.invariant Registered (intInit_registered init) fun _ _ _ _ _ inv step => step.registered inv

/-- A delivery depends on its entry and the calls of its list. -/
theorem dispatch_congr {s s' : Interrupts} {calls : List Registration} {n : BitVec 32}
    (table : HandlerTable s calls) (small : n.toNat < intNumInterrupts)
    (entry : s'.handlerTable n.toNat = s.handlerTable n.toNat) {fuel : Nat}
    (same : firstIrqInt ≤ n.toNat →
      callHandlers s' fuel (s'.irqHandlerList (n.toNat - firstIrqInt)) =
        callHandlers s fuel (s.irqHandlerList (n.toNat - firstIrqInt))) :
    dispatch fuel s' n = dispatch fuel s n := by
  unfold dispatch
  rw [entry]
  cases stored : s.handlerTable n.toNat with
  | none => rfl
  | some entry =>
    cases entry with
    | irqIntHandler =>
      have ⟨first, last⟩ := table.irq_range small stored
      simp only [irqIntHandler, irqNumber first last, same first]
    | _ => rfl

theorem Registered.isolated {s : Interrupts} {calls : List Registration}
    (inv : Registered calls s) : RegistrationIsolated s := by
  intro call s' step n small other fuel
  obtain ⟨⟨nodes, lists⟩, table⟩ := inv
  cases step with
  | @handler _ interrupt handler returned =>
    obtain ⟨_, _, rfl⟩ := intRegisterHandler_cases returned
    refine dispatch_congr table small (Function.update_of_ne other _ _) fun _ => ?_
    have same : ∀ a ∈ nodes (n.toNat - firstIrqInt), (s.setEntry interrupt.toNat
        (handler.elim .unexpectedIntHandler .registered)).node a = s.node a := fun _ _ => rfl
    exact callHandlers_congr (lists.chain _) same fuel
  | @irqHandler _ _ irq _ _ fresh returned =>
    obtain ⟨valid, elsewhere, _⟩ := intRegisterIrqHandler_lists lists fresh returned
    refine dispatch_congr table small (congrFun elsewhere.table _) fun first => ?_
    have apart : n.toNat - firstIrqInt ≠ irq.toNat := by
      rw [Registration.target] at other
      omega
    rw [elsewhere.head _ apart, callHandlers_congr (lists.chain _) (elsewhere.node _ apart)]

/-- After any sequence of registrations, deliveries run exactly what was registered and
the next registration is isolated, if and only if no IRQ was registered for more than
twice. -/
theorem dispatchesAsRegistered_iff (init : Interrupts) (calls : List Registration)
    (s : Interrupts) (run : Run.From RegistrationStep (intInit init) calls s) :
    (DispatchesAsRegistered s calls ∧ RegistrationIsolated s) ↔
      ∀ irq < numIrqs, (irqHandlers irq calls).length ≤ 2 := by
  have inv := run_registered run
  obtain ⟨⟨nodes, lists⟩, table⟩ := inv
  constructor
  · rintro ⟨faithful, -⟩ irq valid
    have number : (BitVec.ofNat 32 (firstIrqInt + irq)).toNat = firstIrqInt + irq := by
      unfold firstIrqInt numIrqs at *
      rw [BitVec.toNat_ofNat]
      omega
    have delivered := faithful (BitVec.ofNat 32 (firstIrqInt + irq))
      (by rw [number]; unfold firstIrqInt numIrqs intNumInterrupts at *; omega)
      (by rw [number]; unfold firstIrqInt numIrqs intSyscallInterrupt at *; omega) _ (Nat.le_refl _)
    rw [dispatch_surviving lists table (by omega) (by omega) (Nat.le_refl _), registeredDispatch,
      if_pos (by omega), Except.ok.injEq, List.append_left_inj, number,
      Nat.add_sub_cancel_left] at delivered
    refine (surviving_eq_iff _).mp (List.map_injective_iff.mpr ?_ delivered)
    intro h h' same
    cases same
    rfl
  · intro few
    refine ⟨fun n small syscall fuel enough => ?_, (run_registered run).isolated⟩
    by_cases range : firstIrqInt ≤ n.toNat ∧ n.toNat < firstIrqInt + numIrqs
    · rw [dispatch_surviving lists table range.1 range.2 enough, registeredDispatch, if_pos range,
        (surviving_eq_iff _).mpr (few _ (by omega))]
    · rw [dispatch_other table small syscall range, registeredDispatch, if_neg range]

/-! ### A lost handler -/

theorem HandlerLists.unused {s : Interrupts} {calls : List Registration}
    {nodes : Nat → List NodeRef} (lists : HandlerLists s calls nodes) {new : NodeRef}
    (absent : ∀ j, new ∉ nodes j) : s.Unused new := by
  intro irq xs chain
  rw [chain.unique (lists.chain irq)]
  exact absent irq

/-- A valid call returns: the walk comes to an end. -/
theorem intRegisterIrqHandler_returns {s : Interrupts} {calls : List Registration}
    {nodes : Nat → List NodeRef} (lists : HandlerLists s calls nodes) {irq : BitVec 8}
    (valid : irq.toNat < numIrqs) (cascade : irq ≠ 2) (h : IntHandler) {new : NodeRef}
    (unused : ∀ j, new ∉ nodes j) {fuel : Nat} (enough : (nodes irq.toNat).length ≤ fuel) :
    ∃ s', intRegisterIrqHandler fuel s irq (some h) (some new) = .ok s' := by
  have guards : kassert (validIrq irq) "VALID_IRQ(irq)" = .ok () ∧
      kassert (decide (irq ≠ 2)) "irq != 2" = .ok () := by
    rw [kassert_ok, kassert_ok, validIrq, decide_eq_true_iff, decide_eq_true_iff]
    exact ⟨valid, cascade⟩
  simp only [intRegisterIrqHandler, guards.1, guards.2, kassert_ok.mpr, Option.isSome_some, bind,
    Except.bind, setNode_irqHandlerList]
  cases start : s.irqHandlerList irq.toNat with
  | none => exact ⟨_, rfl⟩
  | some head =>
    have chain := lists.chain irq.toNat
    rw [start] at chain
    have linked : Linked.Chain (s.setNode new ⟨some h, none⟩).next (some head)
        (nodes irq.toNat) := by
      refine chain.congr fun a member => ?_
      rw [setNode_next, Function.update_of_ne fun same : a = new => unused _ (same ▸ member)]
    obtain ⟨r, walk⟩ := walkHead_returns (irq.toNat) linked enough
    simp only [walk]
    exact ⟨_, rfl⟩

/-- Handlers 0, 1, 2 and so on, registered in this order for IRQ 1. -/
def keyboardHandlers (k : Nat) : List Registration :=
  (List.range k).map fun i => .irqHandler 1 (some i)

theorem keyboardHandlers_run (init : Interrupts) (k : Nat) :
    ∃ s nodes, Run.From RegistrationStep (intInit init) (keyboardHandlers k) s ∧
      HandlerLists s (keyboardHandlers k) nodes ∧ ∀ j, ∀ a ∈ nodes j, a < k := by
  induction k with
  | zero => exact ⟨_, _, .nil, intInit_handlerLists init, by simp⟩
  | succ k ih =>
    obtain ⟨s, nodes, run, lists, below⟩ := ih
    have unused : ∀ j, k ∉ nodes j := fun j member => Nat.lt_irrefl k (below j k member)
    have fresh : ∀ new, some k = some new → s.Unused new := by
      rintro _ ⟨⟩
      exact lists.unused unused
    obtain ⟨s', returned⟩ := intRegisterIrqHandler_returns lists (show (1 : BitVec 8).toNat < _ by
      decide) (by decide) k unused (Nat.le_refl _)
    obtain ⟨-, -, xs, next, origin⟩ := intRegisterIrqHandler_lists lists fresh returned
    rw [keyboardHandlers, List.range_succ, List.map_append]
    refine ⟨s', _, run.snoc _ (.irqHandler fresh returned), next, fun j a member => ?_⟩
    have earlier : ∀ i, a ∈ nodes i → a < k + 1 := fun i old => Nat.lt_succ_of_lt (below i a old)
    by_cases same : j = (1 : BitVec 8).toNat
    · rw [same, Function.update_self] at member
      rcases origin a member with old | new
      · exact earlier _ old
      · cases new
        exact Nat.lt_succ_self k
    · rw [Function.update_of_ne same] at member
      exact earlier j member

def blankInterrupts : Interrupts := ⟨fun _ => none, fun _ => none, fun _ => ⟨none, none⟩⟩

/-- With three handlers for the keyboard the first one is never called again. -/
theorem keyboardHandlers_lost :
    ∃ s, Run.From RegistrationStep (intInit blankInterrupts) (keyboardHandlers 3) s ∧
      dispatch 3 s 33 = .ok [.call (.registered 1), .call (.registered 2),
        .outb picMasterCmd 0x20] ∧
      ¬(DispatchesAsRegistered s (keyboardHandlers 3) ∧ RegistrationIsolated s) := by
  obtain ⟨s, nodes, run, lists, -⟩ := keyboardHandlers_run blankInterrupts 3
  have delivered : dispatch 3 s 33 = .ok [.call (.registered 1), .call (.registered 2),
      .outb picMasterCmd 0x20] :=
    dispatch_surviving lists (run_registered run).2 (by decide) (by decide) (by decide)
  refine ⟨s, run, delivered, fun ⟨faithful, _⟩ => ?_⟩
  have all := faithful 33 (by decide) (by decide) 3 (by decide)
  rw [delivered] at all
  exact absurd (Except.ok.inj all) (by decide)

/-- Two handlers for the keyboard are both called. -/
theorem keyboardHandlers_two :
    ∃ s, Run.From RegistrationStep (intInit blankInterrupts) (keyboardHandlers 2) s ∧
      DispatchesAsRegistered s (keyboardHandlers 2) ∧ RegistrationIsolated s := by
  obtain ⟨s, _, run, _⟩ := keyboardHandlers_run blankInterrupts 2
  exact ⟨s, run, (dispatchesAsRegistered_iff _ _ s run).mpr (by decide)⟩

end Treeos
