import Mathlib.Tactic.TypeStar

/-!
# How kernel code stops

`panic` never returns, so a panicking call ends the run. An access to an unmapped
page ends in `page_fault_int_handler`, which panics as well.
-/
namespace Treeos

/-- The reasons for which a modelled call does not return. -/
inductive Panic where
  /-- `panic(msg)` with a literal message; `KASSERT` builds its own. -/
  | msg (text : String)
  /-- `panic(buffer)` after `sprintf(buffer, format, args...)`. -/
  | fmt (format : String) (args : List (BitVec 32))
  /-- `page_fault_int_handler` at the address in cr2. -/
  | pageFault (vaddr : BitVec 32)
  /-- Not a stop of the kernel: the bound given to a loop or a recursion ran out. -/
  | fuel
  /-- Not a stop of the kernel either: an access behind the array it is meant for. What it reaches
  there (other variables of the kernel, or nothing) is not part of the model. -/
  | outside
deriving DecidableEq, Repr

/-- The message that `KASSERT(cond)` panics with, from the text of `cond`. -/
def Panic.kassert (cond : String) : Panic := .msg ("KASSERT failed: " ++ cond)

/-- `PANIC_IF(cond, msg)` -/
def panicIf (cond : Bool) (text : String) : Except Panic Unit :=
  if cond then .error (.msg text) else .ok ()

/-- `KASSERT(cond)` -/
def kassert (cond : Bool) (text : String) : Except Panic Unit :=
  if cond then .ok () else .error (.kassert text)

@[simp] theorem panicIf_ok {cond : Bool} {text : String} :
    panicIf cond text = .ok () ↔ cond = false := by
  cases cond <;> simp [panicIf]

@[simp] theorem kassert_ok {cond : Bool} {text : String} :
    kassert cond text = .ok () ↔ cond = true := by
  cases cond <;> simp [kassert]

@[simp] theorem ok_bind {α β : Type} (a : α) (f : α → Except Panic β) : .ok a >>= f = f a := rfl

theorem bind_of_ok {α β : Type} {x : Except Panic α} {a : α} (returned : x = .ok a)
    (f : α → Except Panic β) : x >>= f = f a := by
  rw [returned, ok_bind]

/-- A sequence of two calls returns exactly when both do. -/
theorem bind_ok_iff {α β : Type} {x : Except Panic α} {f : α → Except Panic β} {b : β} :
    x >>= f = .ok b ↔ ∃ a, x = .ok a ∧ f a = .ok b := by
  cases x <;> simp [bind, Except.bind]

theorem panicIf_error {cond : Bool} {text : String} {e : Panic}
    (stopped : panicIf cond text = .error e) : e = .msg text := by
  cases cond <;> cases stopped
  rfl

theorem kassert_error {cond : Bool} {text : String} {e : Panic}
    (stopped : kassert cond text = .error e) : e = .kassert text := by
  cases cond <;> cases stopped
  rfl

theorem kassert_failed {cond : Bool} {text : String} {e : Panic}
    (stopped : kassert cond text = .error e) : cond = false := by
  cases cond with
  | false => rfl
  | true => cases stopped

theorem panicIf_bind_ok_iff {β : Type} {cond : Bool} {text : String} {f : Unit → Except Panic β}
    {b : β} : panicIf cond text >>= f = .ok b ↔ cond = false ∧ f () = .ok b := by
  cases cond <;> simp [panicIf, bind, Except.bind]

theorem kassert_bind_ok_iff {β : Type} {cond : Bool} {text : String} {f : Unit → Except Panic β}
    {b : β} : kassert cond text >>= f = .ok b ↔ cond = true ∧ f () = .ok b := by
  cases cond <;> simp [kassert, bind, Except.bind]

/-- A sequence of two calls stops where the first of them stops. -/
theorem bind_error_iff {α β : Type} {x : Except Panic α} {f : α → Except Panic β} {e : Panic} :
    x >>= f = .error e ↔ x = .error e ∨ ∃ a, x = .ok a ∧ f a = .error e := by
  cases x <;> simp [bind, Except.bind]

/-- A call that returns leaves `I`, and one that stops does so for a reason `E`. -/
def Ends {α : Type} (E : Panic → Prop) (I : α → Prop) : Except Panic α → Prop
  | .ok a => I a
  | .error e => E e

section Ends

variable {α β γ : Type} {E E' : Panic → Prop} {I : α → Prop} {J : β → Prop} {K : γ → Prop}
  {x : Except Panic α}

theorem Ends.imp {I' : α → Prop} (ends : Ends E I x) (reason : ∀ e, E e → E' e)
    (weaker : ∀ a, I a → I' a) : Ends E' I' x := by
  cases x with
  | error e => exact reason e ends
  | ok a => exact weaker a ends

theorem Ends.bind {f : α → Except Panic β} (first : Ends E I x)
    (rest : ∀ a, I a → Ends E J (f a)) : Ends E J (x >>= f) := by
  cases x with
  | error e => exact first
  | ok a => exact rest a first

/-- Two sequences that begin alike. -/
theorem Ends.bind_congr {f : α → Except Panic β} {g : α → Except Panic γ}
    (ends : Ends E J (x >>= f)) (rest : ∀ a, Ends E J (f a) → Ends E K (g a)) :
    Ends E K (x >>= g) := by
  cases x with
  | error e => exact ends
  | ok a => exact rest a ends

end Ends

theorem panicIf_fuel (cond : Bool) (text : String) : panicIf cond text ≠ .error .fuel := by
  cases cond <;> simp [panicIf]

theorem kassert_fuel (cond : Bool) (text : String) : kassert cond text ≠ .error .fuel := by
  cases cond <;> simp [kassert, Panic.kassert]

end Treeos
