import Mathlib.Data.List.Pairwise
import Treeos.Lib.ByteMemory

/-!
# Objects in memory

What a caller of an allocator knows from its calls and the pointers they have returned: where
its objects are, how long they are, and what they hold. A byte is `none` as long as nothing has
been written to it.
-/
namespace ObjectStore

open ByteMemory

structure Object where
  ptr : BitVec 32
  bytes : List (Option (BitVec 8))
deriving DecidableEq

inductive Call where
  | malloc (size : BitVec 32)
  | calloc (nobj size : BitVec 32)
  | free (p : BitVec 32)
  | realloc (p size : BitVec 32)
  -- `((char *)p)[i] = b`
  | write (p i : BitVec 32) (b : BitVec 8)
deriving DecidableEq

/-- The number of bytes that a call asks for. -/
def Call.size : Call → Nat
  | .malloc size | .realloc _ size => size.toNat
  | .calloc nobj size => nobj.toNat * size.toNat
  | .free _ | .write _ _ _ => 0

/-- What the object at `p` holds, if there is one. -/
def contents (objects : List Object) (p : BitVec 32) : List (Option (BitVec 8)) :=
  match objects.find? fun o => o.ptr = p with
  | some o => o.bytes
  | none => []

def without (objects : List Object) (p : BitVec 32) : List Object :=
  objects.filter fun o => o.ptr ≠ p

/-- The first `n` bytes, and new ones if there are less. -/
def resize (n : Nat) (bytes : List (Option (BitVec 8))) : List (Option (BitVec 8)) :=
  bytes.take n ++ List.replicate (n - bytes.length) none

/-- The objects after a call that has returned `q`. -/
def after (objects : List Object) (q : BitVec 32) : Call → List Object
  | .malloc size => ⟨q, List.replicate size.toNat none⟩ :: objects
  | .calloc nobj size => ⟨q, List.replicate (nobj.toNat * size.toNat) (some 0)⟩ :: objects
  | .free p => without objects p
  | .realloc p size =>
    if size = 0 then without objects p
    else ⟨q, resize size.toNat (contents objects p)⟩ :: without objects p
  | .write p i b => objects.map fun o =>
    if o.ptr = p then ⟨p, o.bytes.set i.toNat (some b)⟩ else o

/-- A caller frees, resizes and writes to its own objects only. -/
def Allowed (objects : List Object) : Call → Prop
  | .malloc _ | .calloc _ _ => True
  | .free p | .realloc p _ => p = 0 ∨ ∃ o ∈ objects, o.ptr = p
  | .write p i _ => ∃ o ∈ objects, o.ptr = p ∧ i.toNat < o.bytes.length

/-- Memory holds the bytes of an object. -/
def Holds (m : Memory) (o : Object) : Prop :=
  ∀ i b, o.bytes[i]? = some (some b) → m (o.ptr + BitVec.ofNat 32 i) = b

/-- Two objects have no byte in common, and are not at the same place. -/
def Apart (o o' : Object) : Prop := o.ptr ≠ o'.ptr ∧
  (o.ptr.toNat + o.bytes.length ≤ o'.ptr.toNat ∨ o'.ptr.toNat + o'.bytes.length ≤ o.ptr.toNat)

instance : Std.Symm Apart := ⟨fun _ _ apart => ⟨apart.1.symm, apart.2.symm⟩⟩

/-- The objects are behind NULL, aligned, and apart from each other. -/
structure Sound (align : Nat) (objects : List Object) : Prop where
  positive : ∀ o ∈ objects, 0 < o.ptr.toNat
  aligned : ∀ o ∈ objects, o.ptr.toNat % align = 0
  fits : ∀ o ∈ objects, o.ptr.toNat + o.bytes.length ≤ 2 ^ 32
  apart : objects.Pairwise Apart

variable {m m' : Memory} {o : Object} {objects : List Object} {p q : BitVec 32} {n i : Nat}
variable {bytes : List (Option (BitVec 8))} {b : BitVec 8}

@[simp] theorem length_resize : (resize n bytes).length = n := by
  unfold resize
  simp only [List.length_append, List.length_take, List.length_replicate]
  omega

/-- A byte of a resized object is one that was there. -/
theorem getElem?_resize (known : (resize n bytes)[i]? = some (some b)) :
    i < n ∧ bytes[i]? = some (some b) := by
  unfold resize at known
  by_cases inside : i < (bytes.take n).length
  · rw [List.getElem?_append_left inside, List.getElem?_take] at known
    rw [List.length_take] at inside
    split at known
    · exact ⟨by omega, known⟩
    · cases known
  · rw [List.getElem?_append_right (Nat.le_of_not_lt inside), List.getElem?_replicate] at known
    split at known <;> cases known

theorem Sound.nodup {align : Nat} (sound : Sound align objects) :
    (objects.map Object.ptr).Nodup := by
  rw [List.nodup_iff_pairwise_ne, List.pairwise_map]
  exact sound.apart.imp fun apart => apart.1

/-- A byte of one object is no byte of another one. -/
theorem Sound.not_mem_span {align : Nat} (sound : Sound align objects) {o' : Object}
    (member : o ∈ objects) (member' : o' ∈ objects) (other : o.ptr ≠ o'.ptr)
    (bound : i < o.bytes.length) : o.ptr + BitVec.ofNat 32 i ∉ Span o'.ptr o'.bytes.length := by
  obtain ⟨-, order⟩ := sound.apart.forall member member' fun same =>
    other (congrArg Object.ptr same)
  have fits := sound.fits o member
  have fits' := sound.fits o' member'
  rw [mem_span]
  bv_omega

theorem Sound.span_apart {align : Nat} (sound : Sound align objects) {o' : Object}
    (member : o ∈ objects) (member' : o' ∈ objects) (other : o.ptr ≠ o'.ptr) :
    ∀ x ∈ Span o.ptr o.bytes.length, x ∉ Span o'.ptr o'.bytes.length := by
  intro x inside
  have away := sound.not_mem_span member member' other (mem_span.mp inside)
  rwa [BitVec.ofNat_toNat, BitVec.setWidth_eq, BitVec.add_comm, BitVec.sub_add_cancel] at away

theorem mem_without : o ∈ without objects p ↔ o ∈ objects ∧ o.ptr ≠ p := by
  simp [without]

theorem contents_of_mem (apart : (objects.map Object.ptr).Nodup) (member : o ∈ objects) :
    contents objects o.ptr = o.bytes := by
  unfold contents
  have found : objects.find? (fun o' => o'.ptr = o.ptr) = some o := by
    induction objects with
    | nil => cases member
    | cons o' objects ih =>
      rw [List.map_cons, List.nodup_cons] at apart
      rcases List.mem_cons.mp member with rfl | member
      · simp
      · have other : o'.ptr ≠ o.ptr := fun same =>
          apart.1 (same ▸ List.mem_map.mpr ⟨o, member, rfl⟩)
        rw [List.find?_cons_of_neg (by simpa using other)]
        exact ih apart.2 member
  rw [found]

theorem contents_of_not_mem (none : ∀ o ∈ objects, o.ptr ≠ p) : contents objects p = [] := by
  unfold contents
  have missing : objects.find? (fun o => o.ptr = p) = Option.none := by simpa using none
  rw [missing]

theorem holds_replicate (n : Nat) : Holds m ⟨q, List.replicate n none⟩ := by
  intro i b known
  rw [List.getElem?_replicate] at known
  split at known <;> cases known

/-- A memory that has kept the bytes of an object. -/
theorem Holds.congr (holds : Holds m o)
    (same : ∀ i < o.bytes.length, m' (o.ptr + BitVec.ofNat 32 i) = m (o.ptr + BitVec.ofNat 32 i)) :
    Holds m' o := by
  intro i b known
  rw [same i (List.getElem?_eq_some_iff.mp known).1]
  exact holds i b known

/-- A memory with the same bytes elsewhere. -/
theorem Holds.moved (holds : Holds m o)
    (same : ∀ i < min n o.bytes.length,
      m' (q + BitVec.ofNat 32 i) = m (o.ptr + BitVec.ofNat 32 i)) :
    Holds m' ⟨q, resize n o.bytes⟩ := by
  intro i b known
  obtain ⟨inside, there⟩ := getElem?_resize known
  have bound := (List.getElem?_eq_some_iff.mp there).1
  rw [same i (by omega)]
  exact holds i b there

/-- A byte of an object is written. -/
theorem Holds.write (holds : Holds m o) (fits : o.bytes.length ≤ 2 ^ 32) {k : Nat}
    (bound : k < o.bytes.length) :
    Holds (store8 m (o.ptr + BitVec.ofNat 32 k) b) ⟨o.ptr, o.bytes.set k (some b)⟩ := by
  intro i b' known
  rw [List.getElem?_set] at known
  by_cases same : k = i
  · subst same
    simp only [if_true, bound] at known
    cases known
    simp [store8]
  · rw [if_neg same] at known
    have inside := (List.getElem?_eq_some_iff.mp known).1
    have away : o.ptr + BitVec.ofNat 32 i ≠ o.ptr + BitVec.ofNat 32 k := by bv_omega
    show store8 m _ b (o.ptr + BitVec.ofNat 32 i) = b'
    rw [store8_of_ne away]
    exact holds i b' known

end ObjectStore
