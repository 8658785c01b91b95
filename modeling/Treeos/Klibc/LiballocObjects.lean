import Treeos.Lib.ObjectStore
import Treeos.Klibc.LiballocBytes

/-!
# liballoc as a store of objects

Each minor is an object of a caller. After every call the objects are the ones that the caller
expects, they are apart from each other, and they hold what has been written to them.
-/
namespace Treeos

open ByteMemory DoublyLinked Extents Liballoc
open ObjectStore (Object Call Allowed after without contents)

variable {σ : Type} {K : Hooks σ} {Owns : σ → List PageArea → Prop} {view : σ → Memory}
variable {s s' : Liballoc σ} {M N : Major} {c d : Minor} {m m' : Memory} {h h' : σ}
variable {pre post majors majors' : List Major} {xs ys : List Minor}
variable {objects objects' : List Object} {o : Object} {p q size : BitVec 32} {fuel : Nat}

/-- A call of a caller, or a byte that it writes. -/
def Liballoc.call (K : Hooks σ) (fuel : Nat) (s : Liballoc σ) :
    Call → Except Panic (BitVec 32 × Liballoc σ)
  | .malloc size => s.malloc K fuel size
  | .calloc nobj size => s.calloc K fuel nobj size
  | .free p => do
    let s ← s.free K p
    .ok (0, s)
  | .realloc p size => s.realloc K fuel p size
  | .write p i b => do
    let s ← s.store8 K (p + i) b
    .ok (0, s)

/-- The minors of all blocks. -/
def minorsOf (majors : List Major) : List Minor := majors.flatMap Major.minors

def Minor.shape (c : Minor) : BitVec 32 × Nat := (c.ptr, c.reqSize.toNat)

def shapeOf (o : Object) : BitVec 32 × Nat := (o.ptr, o.bytes.length)

/-- The blocks of liballoc hold the objects, and nothing else. -/
structure Backs (Owns : σ → List PageArea → Prop) (view : σ → Memory) (s : Liballoc σ)
    (majors : List Major) (objects : List Object) : Prop where
  layout : Layout Owns view s majors
  used : ∀ M ∈ majors, M.minors ≠ []
  shapes : (objects.map shapeOf).Perm ((minorsOf majors).map Minor.shape)
  holds : ∀ o ∈ objects, ObjectStore.Holds (view s.host) o

theorem mem_minorsOf : c ∈ minorsOf majors ↔ ∃ M ∈ majors, c ∈ M.minors := List.mem_flatMap

/-- The minors of all blocks lie apart. -/
theorem Layout.minors_apart (law : K.Growing Owns view) (layout : Layout Owns view s majors) :
    (minorsOf majors).Pairwise fun c d => c.stop ≤ d.start ∨ d.stop ≤ c.start := by
  unfold minorsOf
  rw [List.pairwise_flatMap]
  constructor
  · intro M member
    exact (layout.sound M member).packed.pairwise.imp .inl
  · have areas := law.apart layout.owns
    rw [List.pairwise_map] at areas
    refine areas.imp_of_mem fun {M N} first second apart c here d there => ?_
    obtain ⟨low, high, limit, -⟩ := (layout.sound M first).bounds here
    obtain ⟨low', high', limit', -⟩ := (layout.sound N second).bounds there
    by_contra overlap
    unfold Minor.start Minor.stop at *
    -- the higher one of the two addresses is in both blocks
    have bound : max c.addr.toNat d.addr.toNat < 2 ^ 32 := by omega
    have value : (BitVec.ofNat 32 (max c.addr.toNat d.addr.toNat)).toNat =
        max c.addr.toNat d.addr.toNat := by
      rw [BitVec.toNat_ofNat, Nat.mod_eq_of_lt bound]
    refine apart (BitVec.ofNat 32 (max c.addr.toNat d.addr.toNat)) ?_ ?_
    · refine (layout.sound M first).area.mem_range.mpr ⟨?_, ?_⟩
      · show M.base.toNat ≤ _
        omega
      · show _ < M.high
        omega
    · refine (layout.sound N second).area.mem_range.mpr ⟨?_, ?_⟩
      · show N.base.toNat ≤ _
        omega
      · show _ < N.high
        omega

/-- Where the object of a minor is. -/
theorem Layout.minor_bounds (layout : Layout Owns view s majors) (member : c ∈ minorsOf majors) :
    c.ptr.toNat % 16 = 0 ∧ c.addr.toNat + 40 ≤ c.ptr.toNat ∧
      c.ptr.toNat + c.reqSize.toNat < c.stop ∧ c.stop < 2 ^ 32 := by
  obtain ⟨M, there, listed⟩ := mem_minorsOf.mp member
  obtain ⟨aligned, low, high, -⟩ := (layout.sound M there).ptr_bounds listed
  obtain ⟨-, below, limit, -⟩ := (layout.sound M there).bounds listed
  exact ⟨aligned, low, high, by omega⟩

theorem Backs.minor (backs : Backs Owns view s majors objects) (member : o ∈ objects) :
    ∃ c ∈ minorsOf majors, c.ptr = o.ptr ∧ c.reqSize.toNat = o.bytes.length := by
  have shape := backs.shapes.mem_iff.mp (List.mem_map.mpr ⟨o, member, rfl⟩)
  obtain ⟨c, listed, same⟩ := List.mem_map.mp shape
  exact ⟨c, listed, congrArg Prod.fst same, congrArg Prod.snd same⟩

/-- The objects of liballoc. -/
theorem Backs.sound (law : K.Growing Owns view) (backs : Backs Owns view s majors objects) :
    ObjectStore.Sound 16 objects := by
  have each (o : Object) (member : o ∈ objects) : 0 < o.ptr.toNat ∧ o.ptr.toNat % 16 = 0 ∧
      o.ptr.toNat + o.bytes.length ≤ 2 ^ 32 := by
    obtain ⟨c, listed, ptr, length⟩ := backs.minor member
    have bounds := backs.layout.minor_bounds listed
    rw [← ptr, ← length]
    omega
  refine ⟨fun o member => (each o member).1, fun o member => (each o member).2.1,
    fun o member => (each o member).2.2, ?_⟩
  have apart := backs.layout.minors_apart law
  have shapes : ((minorsOf majors).map Minor.shape).Pairwise fun r r' => r.1 ≠ r'.1 ∧
      (r.1.toNat + r.2 ≤ r'.1.toNat ∨ r'.1.toNat + r'.2 ≤ r.1.toNat) := by
    rw [List.pairwise_map]
    refine apart.imp_of_mem fun {c d} first second order => ?_
    have boundsC := backs.layout.minor_bounds first
    have boundsD := backs.layout.minor_bounds second
    unfold Minor.start at order
    show c.ptr ≠ d.ptr ∧ (c.ptr.toNat + c.reqSize.toNat ≤ d.ptr.toNat ∨
      d.ptr.toNat + d.reqSize.toNat ≤ c.ptr.toNat)
    constructor
    · intro same
      rw [same] at boundsC
      omega
    · omega
  have same := (backs.shapes.pairwise_iff fun {r r'} apart => ⟨Ne.symm apart.1, apart.2.symm⟩).mpr
    shapes
  rw [List.pairwise_map] at same
  exact same

/-- The bytes of an object are behind the headers of its block. -/
theorem Backs.payload (backs : Backs Owns view s majors objects) (member : o ∈ objects)
    {i : Nat} (bound : i < o.bytes.length) :
    ∃ M ∈ majors, ∃ c ∈ M.minors, o.ptr + BitVec.ofNat 32 i ∈ c.data ∧
      o.ptr + BitVec.ofNat 32 i ∈ M.payload := by
  obtain ⟨c, listed, ptr, length⟩ := backs.minor member
  obtain ⟨M, there, here⟩ := mem_minorsOf.mp listed
  have bounds := backs.layout.minor_bounds listed
  have inside : o.ptr + BitVec.ofNat 32 i ∈ c.data := by
    unfold Minor.data
    rw [ptr]
    exact (mem_span_add (by omega)).mpr (by omega)
  exact ⟨M, there, c, here, inside, (backs.layout.sound M there).data_subset here inside⟩

theorem Backs.kept (backs : Backs Owns view s majors objects)
    (same : ∀ M ∈ majors, ∀ x ∈ M.payload, m x = view s.host x) (member : o ∈ objects) :
    ObjectStore.Holds m o := by
  refine (backs.holds o member).congr fun i bound => ?_
  obtain ⟨M, there, -, -, -, inside⟩ := backs.payload member bound
  exact same M there _ inside

/-- Writes to objects do not move them. -/
theorem Backs.client (law : K.Growing Owns view) (backs : Backs Owns view s majors objects)
    (owns : Owns h' (majors.map Major.area)) (shapes : objects'.map shapeOf = objects.map shapeOf)
    (same : ∀ x, (∀ M ∈ majors, ∀ c ∈ M.minors, x ∉ c.data) → view h' x = view s.host x)
    (holds : ∀ o ∈ objects', ObjectStore.Holds (view h') o) :
    Backs Owns view (s.withHost h') majors objects' :=
  ⟨backs.layout.client law owns same, backs.used, shapes ▸ backs.shapes, holds⟩

/-! ### `kmalloc` and `kcalloc` -/

/-- The minor that has been chosen is the only new one. -/
theorem Chosen.minors {reqSize : BitVec 32} (chosen : Chosen K h reqSize size majors majors' c) :
    (minorsOf majors').Perm (c :: minorsOf majors) ∧ c.reqSize = reqSize := by
  unfold minorsOf
  cases chosen with
  | @fit pre post M xs ys split gap =>
    refine ⟨?_, rfl⟩
    have old : M.minors = xs ++ ys := Extents.firstFit_append gap
    rw [split]
    simp only [List.flatMap_append, List.flatMap_cons, old, List.append_assoc, List.cons_append]
    rw [← List.append_assoc, ← List.append_assoc]
    exact List.perm_middle
  | grow =>
    refine ⟨?_, rfl⟩
    simp only [List.flatMap_append, List.flatMap_cons, List.flatMap_nil, List.append_nil]
    exact List.perm_append_singleton _ _

theorem Chosen.used {reqSize : BitVec 32} (chosen : Chosen K h reqSize size majors majors' c)
    (used : ∀ M ∈ majors, M.minors ≠ []) : ∀ M ∈ majors', M.minors ≠ [] := by
  cases chosen with
  | @fit pre post M xs ys split gap =>
    intro N member
    rw [split] at used
    rcases List.mem_append.mp member with member | member
    · exact used N (by simp [member])
    · rcases List.mem_cons.mp member with rfl | member
      · simp
      · exact used N (by simp [member])
  | grow =>
    intro N member
    rcases List.mem_append.mp member with member | member
    · exact used N member
    · rw [List.mem_singleton.mp member]
      simp

/-- How a call that asks for `size` bytes ends: with the objects that the caller expects, or
because no block has a gap and the host has no pages. -/
inductive CallEnds (K : Hooks σ) (Owns : σ → List PageArea → Prop) (view : σ → Memory)
    (s : Liballoc σ) (majors : List Major) (size : BitVec 32)
    (expected : BitVec 32 → List Object) : Except Panic (BitVec 32 × Liballoc σ) → Prop
  | returns {q : BitVec 32} {s' : Liballoc σ} {majors' : List Major}
      (backs : Backs Owns view s' majors' (expected q))
      (count : (minorsOf majors').length ≤ (minorsOf majors).length + 1)
      (flag : s'.interruptFlag = s.interruptFlag) :
      CallEnds K Owns view s majors size expected (.ok (q, s'))
  | stops {e : Panic} (full : ∀ M ∈ majors, M.gap (size + 32) = none)
      (stopped : K.liballocAlloc s.host (pagesFor (size + 32)) = .error e) :
      CallEnds K Owns view s majors size expected (.error e)

/-- Rounds that are enough, for blocks with minors. -/
theorem Backs.enough (backs : Backs Owns view s majors objects) {n : Nat}
    (count : (minorsOf majors).length ≤ n) : 2 * majors.length + (n + 1) + 2 ≤ 3 * n + 3 ∧
      ∀ M ∈ majors, M.minors.length + 1 ≤ n + 1 := by
  have used := backs.used
  clear backs
  unfold minorsOf at count
  induction majors generalizing n with
  | nil => exact ⟨by rw [List.length_nil]; omega, nofun⟩
  | cons M majors ih =>
    rw [List.flatMap_cons, List.length_append] at count
    have some := List.length_pos_iff.mpr (used M List.mem_cons_self)
    obtain ⟨total, each⟩ := ih (n := n - M.minors.length) (by omega)
      fun N member => used N (List.mem_cons_of_mem M member)
    constructor
    · rw [List.length_cons]
      omega
    · intro N member
      rcases List.mem_cons.mp member with rfl | member
      · omega
      · have length := each N member
        omega

theorem malloc_backs (law : K.Growing Owns view) (backs : Backs Owns view s majors objects)
    (small : size.toNat + 80 < 2 ^ 32) (enough : 3 * (minorsOf majors).length + 3 ≤ fuel) :
    CallEnds K Owns view s majors size (fun q => ⟨q, List.replicate size.toNat none⟩ :: objects)
      (s.malloc K fuel size) := by
  obtain ⟨rounds, short⟩ := backs.enough (Nat.le_refl _)
  have ends := malloc_spec law backs.layout backs.used small short (rounds.trans enough)
  generalize s.malloc K fuel size = result at *
  cases ends with
  | @found majors' c s' chosen done =>
    obtain ⟨minors, asked⟩ := chosen.minors
    refine .returns ⟨done.layout, chosen.used backs.used, ?_, ?_⟩ ?_ done.unlocked
    · have shape : shapeOf ⟨c.ptr, List.replicate size.toNat none⟩ = c.shape := by
        unfold shapeOf Minor.shape
        rw [List.length_replicate, asked]
      rw [List.map_cons, shape]
      exact (backs.shapes.cons _).trans (minors.map Minor.shape).symm
    · intro o member
      rcases List.mem_cons.mp member with rfl | member
      · exact ObjectStore.holds_replicate size.toNat
      · exact backs.kept done.kept member
    · rw [minors.length_eq, List.length_cons]
  | stop full stopped => exact .stops full stopped

/-- The pages that an object is in. -/
theorem Backs.area (backs : Backs Owns view s majors objects) (member : o ∈ objects) :
    ∃ M ∈ majors, ∃ c ∈ M.minors, Span o.ptr o.bytes.length = c.data ∧
      M.area ∈ majors.map Major.area ∧ c.data ⊆ M.area.range := by
  obtain ⟨c, listed, ptr, length⟩ := backs.minor member
  obtain ⟨M, there, here⟩ := mem_minorsOf.mp listed
  have sound := backs.layout.sound M there
  refine ⟨M, there, c, here, ?_, List.mem_map.mpr ⟨M, there, rfl⟩, ?_⟩
  · unfold Minor.data
    rw [ptr, length]
  · exact (sound.data_subset here).trans sound.payload_subset

theorem calloc_backs (law : K.Growing Owns view) (backs : Backs Owns view s majors objects)
    {nobj : BitVec 32} (small : nobj.toNat * size.toNat + 80 < 2 ^ 32)
    (enough : 3 * (minorsOf majors).length + 3 ≤ fuel) :
    CallEnds K Owns view s majors (nobj * size)
      (fun q => ⟨q, List.replicate (nobj.toNat * size.toNat) (some 0)⟩ :: objects)
      (s.calloc K fuel nobj size) := by
  have product : (nobj * size).toNat = nobj.toNat * size.toNat := by
    rw [BitVec.toNat_mul, Nat.mod_eq_of_lt (by omega)]
  rw [← product] at small ⊢
  have ends := malloc_backs law backs small enough
  unfold calloc
  dsimp only
  generalize s.malloc K fuel (nobj * size) = result at *
  cases ends with
  | stops full stopped => exact .stops full stopped
  | @returns q s₁ majors₁ backs₁ count flag =>
    have sound := backs₁.sound law
    have bound : (nobj * size).toNat < 2 ^ 32 := (nobj * size).isLt
    obtain ⟨M, there, c, here, span, area, inside⟩ := backs₁.area List.mem_cons_self
    rw [List.length_replicate] at span
    obtain ⟨h₂, filled, owns, zeros, frame⟩ := memset_spec law backs₁.layout.owns area
      (by rw [span]; exact inside) (by omega) 0
    rw [ok_bind]
    dsimp only
    rw [filled, ok_bind]
    refine .returns (backs₁.client law owns ?_ ?_ ?_) count flag
    · simp [shapeOf]
    · intro x outside
      exact frame x (by rw [span]; exact outside M there c here)
    · intro o member
      rcases List.mem_cons.mp member with rfl | member
      · intro i b known
        rw [List.getElem?_replicate] at known
        split at known
        next inside =>
          cases known
          exact zeros i inside
        next => cases known
      · refine (backs₁.holds o (List.mem_cons_of_mem _ member)).congr fun i bound => frame _ ?_
        have away := sound.not_mem_span (List.mem_cons_of_mem _ member) List.mem_cons_self
          ((List.pairwise_cons.mp sound.apart).1 o member).1.symm bound
        rwa [List.length_replicate] at away

/-! ### Bytes that are written -/

theorem write_backs (law : K.Growing Owns view) (backs : Backs Owns view s majors objects)
    (member : o ∈ objects) {i : BitVec 32} (bound : i.toNat < o.bytes.length) (b : BitVec 8) :
    ∃ s', s.store8 K (o.ptr + i) b = .ok s' ∧ s'.interruptFlag = s.interruptFlag ∧
      Backs Owns view s' majors (objects.map fun o' =>
        if o'.ptr = o.ptr then ⟨o.ptr, o'.bytes.set i.toNat (some b)⟩ else o') := by
  have sound := backs.sound law
  have index : BitVec.ofNat 32 i.toNat = i := by rw [BitVec.ofNat_toNat, BitVec.setWidth_eq]
  obtain ⟨M, there, c, here, span, area, inside⟩ := backs.area member
  have byte : o.ptr + i ∈ c.data := by
    rw [← span, ← index]
    exact (mem_span_add (by omega)).mpr bound
  obtain ⟨h', stored, owns, value⟩ := law.store8 backs.layout.owns area (inside byte) b
  refine ⟨_, stored, rfl, backs.client law owns ?_ ?_ ?_⟩
  · rw [List.map_map]
    refine List.map_congr_left fun o' _ => ?_
    simp only [Function.comp, shapeOf]
    split
    next same => simp [same]
    next => rfl
  · intro x outside
    rw [value]
    refine store8_of_ne ?_
    rintro rfl
    exact outside M there c here byte
  · intro o' member'
    obtain ⟨o₁, listed, rfl⟩ := List.mem_map.mp member'
    rw [value]
    have holds := backs.holds o₁ listed
    have fits := sound.fits o₁ listed
    split
    next same =>
      -- there is only one object at this place
      have one : o₁ = o := by
        by_contra other
        exact (sound.apart.forall listed member other).1 same
      rw [one] at holds fits ⊢
      have written := holds.write (b := b) (by omega) bound
      rwa [index] at written
    next other =>
      refine holds.congr fun k inside => store8_of_ne ?_
      have away := sound.not_mem_span listed member other inside
      intro same
      apply away
      rw [span, same]
      exact byte

/-! ### `kfree` -/

/-- The shapes that are left without the object at `p`. -/
theorem without_shapes {shapes : List (BitVec 32 × Nat)} {n : Nat}
    (nodup : (objects.map Object.ptr).Nodup)
    (perm : (objects.map shapeOf).Perm ((p, n) :: shapes)) :
    ((without objects p).map shapeOf).Perm shapes := by
  have left : (objects.map shapeOf).filter (fun r => r.1 ≠ p) =
      (without objects p).map shapeOf := by
    unfold without
    rw [List.filter_map]
    rfl
  have ptrs : ((p, n) :: shapes).map Prod.fst = p :: shapes.map Prod.fst := rfl
  have others : ∀ r ∈ shapes, r.1 ≠ p := by
    have same := perm.map Prod.fst
    rw [List.map_map, ptrs] at same
    have split := same.nodup_iff.mp nodup
    intro r member here
    exact (List.nodup_cons.mp split).1 (here ▸ List.mem_map.mpr ⟨r, member, rfl⟩)
  have right : ((p, n) :: shapes).filter (fun r => r.1 ≠ p) = shapes := by
    rw [List.filter_cons_of_neg (by simp), List.filter_eq_self]
    intro r member
    simpa using others r member
  have filtered := perm.filter fun r => r.1 ≠ p
  rwa [left, right] at filtered

/-- A minor and all the others. -/
theorem minorsOf_middle (split : M.minors = xs ++ c :: ys) (pre post : List Major) :
    (minorsOf (pre ++ M :: post)).Perm
      (c :: (minorsOf pre ++ (xs ++ ys ++ minorsOf post))) := by
  unfold minorsOf
  simp only [List.flatMap_append, List.flatMap_cons, split, List.append_assoc, List.cons_append]
  rw [← List.append_assoc, ← List.append_assoc]
  exact List.perm_middle

/-- The shapes of the other objects are those of the other minors. -/
theorem Backs.others (law : K.Growing Owns view)
    (backs : Backs Owns view s majors objects) {rest : List Minor} (ptr : c.ptr = o.ptr)
    (perm : (minorsOf majors).Perm (c :: rest)) :
    ((without objects o.ptr).map shapeOf).Perm (rest.map Minor.shape) := by
  have head := perm.map Minor.shape
  have shape : c.shape = (o.ptr, c.reqSize.toNat) := by
    unfold Minor.shape
    rw [ptr]
  rw [List.map_cons, shape] at head
  exact without_shapes (backs.sound law).nodup (backs.shapes.trans head)

theorem free_backs (law : K.Lawful Owns view) (backs : Backs Owns view s majors objects)
    (member : o ∈ objects) : ∃ s' majors', s.free K o.ptr = .ok s' ∧
      Backs Owns view s' majors' (without objects o.ptr) ∧
      (minorsOf majors').length ≤ (minorsOf majors).length ∧
      s'.interruptFlag = s.interruptFlag := by
  obtain ⟨c, listed, ptr, length⟩ := backs.minor member
  obtain ⟨M, there, here⟩ := mem_minorsOf.mp listed
  obtain ⟨pre, post, rfl⟩ := List.append_of_mem there
  obtain ⟨xs, ys, split⟩ := List.append_of_mem here
  have ends := free_spec law backs.layout split
  have sound := backs.sound law.toGrowing
  have middle := minorsOf_middle split pre post
  rw [ptr] at ends
  generalize s.free K o.ptr = result at *
  cases ends with
  | @stays s' others done kept dead =>
    have same : minorsOf pre ++ (xs ++ ys ++ minorsOf post) =
        minorsOf (pre ++ { M with minors := xs ++ ys } :: post) := by
      simp [minorsOf]
    rw [same] at middle
    refine ⟨s', _, rfl, ⟨done.layout, ?_, backs.others law.toGrowing ptr middle, ?_⟩, ?_, done.unlocked⟩
    · intro N member
      rcases List.mem_append.mp member with member | member
      · exact backs.used N (by simp [member])
      · rcases List.mem_cons.mp member with rfl | member
        · exact others
        · exact backs.used N (by simp [member])
    · intro o' member'
      exact backs.kept kept (ObjectStore.mem_without.mp member').1
    · rw [middle.length_eq]
      simp
  | @released s' last done kept gone =>
    have same : minorsOf pre ++ (xs ++ ys ++ minorsOf post) = minorsOf (pre ++ post) := by
      rw [last]
      simp [minorsOf]
    rw [same] at middle
    refine ⟨s', _, rfl, ⟨done.layout, ?_, backs.others law.toGrowing ptr middle, ?_⟩, ?_, done.unlocked⟩
    · intro N member
      refine backs.used N ?_
      rcases List.mem_append.mp member with member | member <;> simp [member]
    · intro o' member'
      obtain ⟨listed', other⟩ := ObjectStore.mem_without.mp member'
      refine (backs.holds o' listed').congr fun i bound => ?_
      obtain ⟨N, there', d, here', data, payload⟩ := backs.payload listed' bound
      refine kept N ?_ _ payload
      -- the only minor of the block was the other one
      rcases List.mem_append.mp there' with there' | there'
      · simp [there']
      · rcases List.mem_cons.mp there' with rfl | there'
        · obtain ⟨rfl, rfl⟩ := List.append_eq_nil_iff.mp last
          rw [split] at here'
          obtain rfl := List.mem_singleton.mp here'
          unfold Minor.data at data
          rw [ptr, length] at data
          exact absurd data (sound.not_mem_span listed' member other bound)
        · simp [there']
    · rw [middle.length_eq]
      simp

/-! ### `krealloc` -/

/-- `krealloc` up to the size that the header notes. -/
theorem Layout.realloc (law : K.Growing Owns view) (layout : Layout Owns view s (pre ++ M :: post))
    (split : M.minors = xs ++ c :: ys) (some : size ≠ 0) (fuel : Nat) :
    s.realloc K fuel c.ptr size =
      if size ≤ c.reqSize then (do
        let s ← s.locked.store K c.addr MinorField.reqSize size
        let s ← s.unlock
        .ok (c.ptr, s))
      else (do
        let s ← s.locked.unlock
        let (ptr, s) ← s.malloc K fuel size
        let s ← s.memcpy K ptr c.ptr c.reqSize.toNat
        let s ← s.free K c.ptr
        .ok (ptr, s)) := by
  have sound := layout.sound M (by simp)
  have member : c ∈ M.minors := by simp [split]
  obtain ⟨-, low, -, -⟩ := sound.ptr_bounds member
  have pointer : c.ptr ≠ 0 := by
    apply ne_zero_of_pos
    omega
  have header : c.addr + 24 - 24 = c.addr := by bv_omega
  obtain ⟨-, -, -, magic, -, asked⟩ := layout.lock.loadMinor law split
  unfold Liballoc.realloc
  rw [if_neg some, if_neg pointer, layout.unalign law member, ok_bind, lock_eq, ok_bind, header]
  refine (bind_of_ok magic _).trans ?_
  rw [if_neg (by simp)]
  exact bind_of_ok asked _

/-- A size that is not larger stays at its place. -/
theorem shrink_backs (law : K.Growing Owns view) (backs : Backs Owns view s majors objects)
    (member : o ∈ objects) (some : size ≠ 0) (smaller : size.toNat ≤ o.bytes.length) :
    CallEnds K Owns view s majors size
      (fun q => ⟨q, ObjectStore.resize size.toNat o.bytes⟩ :: without objects o.ptr)
      (s.realloc K fuel o.ptr size) := by
  obtain ⟨c, listed, ptr, length⟩ := backs.minor member
  obtain ⟨M, there, here⟩ := mem_minorsOf.mp listed
  obtain ⟨pre, post, rfl⟩ := List.append_of_mem there
  obtain ⟨xs, ys, split⟩ := List.append_of_mem here
  have call := backs.layout.realloc law split some fuel
  have fits : size ≤ c.reqSize := by
    rw [BitVec.le_def]
    omega
  obtain ⟨h', stored, layout, kept⟩ := backs.layout.lock.resize law split fits
  have locked : (s.locked.withHost h').interruptFlag = false := rfl
  rw [ptr, if_pos fits, stored, ok_bind, unlock_locked locked, ok_bind] at call
  rw [call]
  have shape : ({ c with reqSize := size } : Minor).shape = (o.ptr, size.toNat) := by
    unfold Minor.shape Minor.ptr at *
    rw [ptr]
  have before := minorsOf_middle split pre post
  have after := minorsOf_middle
    (M := { M with minors := xs ++ { c with reqSize := size } :: ys }) rfl pre post
  refine .returns ⟨layout.unlock, ?_, ?_, ?_⟩ ?_ rfl
  · intro N member
    rcases List.mem_append.mp member with member | member
    · exact backs.used N (by simp [member])
    · rcases List.mem_cons.mp member with rfl | member
      · simp
      · exact backs.used N (by simp [member])
  · have head : shapeOf ⟨o.ptr, ObjectStore.resize size.toNat o.bytes⟩ =
        ({ c with reqSize := size } : Minor).shape := by
      rw [shape, shapeOf, ObjectStore.length_resize]
    have perm := ((backs.others law ptr before).cons _).trans (after.map Minor.shape).symm
    rw [← head] at perm
    exact perm
  · intro o' member'
    rcases List.mem_cons.mp member' with rfl | member'
    · refine (backs.holds o member).moved fun i inside => ?_
      obtain ⟨N, inN, -, -, -, payload⟩ := backs.payload member (show i < o.bytes.length by omega)
      exact kept N inN _ payload
    · exact backs.kept kept (ObjectStore.mem_without.mp member').1
  · rw [after.length_eq, before.length_eq]
    simp

/-- A larger size gets another place, and what was there is copied. -/
theorem grow_backs (law : K.Lawful Owns view) (backs : Backs Owns view s majors objects)
    (member : o ∈ objects) (larger : o.bytes.length < size.toNat)
    (small : size.toNat + 80 < 2 ^ 32) (enough : 3 * (minorsOf majors).length + 3 ≤ fuel) :
    CallEnds K Owns view s majors size
      (fun q => ⟨q, ObjectStore.resize size.toNat o.bytes⟩ :: without objects o.ptr)
      (s.realloc K fuel o.ptr size) := by
  obtain ⟨c, listed, ptr, length⟩ := backs.minor member
  obtain ⟨M, there, here⟩ := mem_minorsOf.mp listed
  obtain ⟨pre, post, rfl⟩ := List.append_of_mem there
  obtain ⟨xs, ys, split⟩ := List.append_of_mem here
  have some : size ≠ 0 := ne_zero_of_pos (by omega)
  have call := backs.layout.realloc law.toGrowing split some fuel
  have less : ¬size ≤ c.reqSize := by
    rw [BitVec.le_def]
    omega
  rw [ptr, if_neg less, unlock_locked rfl, ok_bind, length] at call
  rw [call]
  have backs₁ : Backs Owns view { s.locked with interruptFlag := s.locked.enableInt } _ objects :=
    ⟨backs.layout.lock.unlock, backs.used, backs.shapes, backs.holds⟩
  have ends := malloc_backs law.toGrowing backs₁ small enough
  generalize Liballoc.malloc K fuel { s.locked with interruptFlag := s.locked.enableInt } size =
    result at *
  cases ends with
  | stops full stopped => exact .stops full stopped
  | @returns q s₂ majors₂ backs₂ count flag =>
    have sound := backs₂.sound law.toGrowing
    have other : q ≠ o.ptr := ((List.pairwise_cons.mp sound.apart).1 o member).1
    have listed₂ := List.mem_cons_of_mem (⟨q, List.replicate size.toNat none⟩ : Object) member
    obtain ⟨N, inN, d, inD, span, areaN, insideN⟩ := backs₂.area List.mem_cons_self
    obtain ⟨P, -, e, -, span', areaP, insideP⟩ := backs₂.area listed₂
    rw [List.length_replicate] at span
    have part : Span q o.bytes.length ⊆ Span q size.toNat := span_mono (by omega)
    have bound := size.isLt
    have away := sound.span_apart listed₂ List.mem_cons_self other.symm
    rw [List.length_replicate] at away
    obtain ⟨h₃, copied, owns, moved⟩ := memcpy_spec law.toGrowing backs₂.layout.owns areaP areaN
      (by rw [span']; exact insideP) (by rw [← span] at insideN; exact part.trans insideN)
      (by omega) fun x inside outside => away x inside (part outside)
    rw [ok_bind]
    dsimp only
    rw [copied, ok_bind]
    have backs₃ : Backs Owns view (s₂.withHost h₃) majors₂
        (⟨q, ObjectStore.resize size.toNat o.bytes⟩ :: objects) := by
      refine backs₂.client law.toGrowing owns ?_ ?_ ?_
      · simp [shapeOf]
      · intro x outside
        refine moved.frame x fun inside => outside N inN d inD ?_
        rw [← span]
        exact part inside
      · intro o' member'
        rcases List.mem_cons.mp member' with rfl | member'
        · refine (backs₂.holds o listed₂).moved fun i inside => moved.bytes i (by omega)
        · refine (backs₂.holds o' (List.mem_cons_of_mem _ member')).congr fun i inside => ?_
          refine moved.frame _ fun written => ?_
          have apart := sound.not_mem_span (List.mem_cons_of_mem _ member') List.mem_cons_self
            ((List.pairwise_cons.mp sound.apart).1 o' member').1.symm inside
          rw [List.length_replicate] at apart
          exact apart (part written)
    obtain ⟨s₄, majors₄, freed, backs₄, less', flag'⟩ :=
      free_backs law backs₃ (List.mem_cons_of_mem _ member)
    rw [freed, ok_bind]
    have rest : without (⟨q, ObjectStore.resize size.toNat o.bytes⟩ :: objects) o.ptr =
        ⟨q, ObjectStore.resize size.toNat o.bytes⟩ :: without objects o.ptr := by
      unfold without
      rw [List.filter_cons_of_pos (by simpa using other)]
    rw [rest] at backs₄
    exact .returns backs₄ (Nat.le_trans less' count) (flag'.trans flag)

/-! ### All calls -/

/-- The size that is asked for does not wrap around with what liballoc adds. -/
def SmallCall (call : Call) : Prop := call.size + 80 < 2 ^ 32

theorem SmallCall.request {call : Call} (small : SmallCall call) :
    Request (BitVec.ofNat 32 call.size) (BitVec.ofNat 32 call.size + 32) := by
  refine request_of_lt ?_
  unfold SmallCall at small
  rwa [BitVec.toNat_ofNat, Nat.mod_eq_of_lt (by omega)]

theorem Backs.positive (backs : Backs Owns view s majors objects) (member : o ∈ objects) :
    0 < o.ptr.toNat := by
  obtain ⟨c, listed, ptr, -⟩ := backs.minor member
  have bounds := backs.layout.minor_bounds listed
  rw [← ptr]
  omega

/-- After every call the objects are the ones that the caller expects. -/
theorem call_backs (law : K.Lawful Owns view) (backs : Backs Owns view s majors objects)
    {call : Call} (allowed : Allowed objects call) (small : SmallCall call)
    (enough : 3 * (minorsOf majors).length + 3 ≤ fuel) :
    CallEnds K Owns view s majors (BitVec.ofNat 32 call.size) (fun q => after objects q call)
      (s.call K fuel call) := by
  have null : ∀ o ∈ objects, o.ptr ≠ 0 := fun o member => ne_zero_of_pos (backs.positive member)
  have none : without objects 0 = objects := by
    unfold without
    rw [List.filter_eq_self]
    intro o member
    simpa using null o member
  -- `kfree(NULL)` only counts
  have freeNull : s.free K 0 = .ok { s with warningCount := s.warningCount + 1 } := rfl
  have counted : Backs Owns view { s with warningCount := s.warningCount + 1 } majors objects :=
    ⟨⟨backs.layout.owns, backs.layout.sound, backs.layout.root, backs.layout.linked,
      backs.layout.bestBet, backs.layout.allocated, backs.layout.inuse⟩, backs.used, backs.shapes,
      backs.holds⟩
  cases call with
  | malloc size =>
    have asked : BitVec.ofNat 32 (Call.malloc size).size = size := by
      rw [Call.size, BitVec.ofNat_toNat, BitVec.setWidth_eq]
    rw [asked]
    exact malloc_backs law.toGrowing backs small enough
  | calloc nobj size =>
    have asked : BitVec.ofNat 32 (Call.calloc nobj size).size = nobj * size := by
      apply BitVec.eq_of_toNat_eq
      rw [BitVec.toNat_mul, BitVec.toNat_ofNat]
      rfl
    rw [asked]
    exact calloc_backs law.toGrowing backs small enough
  | free p =>
    simp only [Liballoc.call, after]
    rcases allowed with rfl | ⟨o, member, rfl⟩
    · rw [freeNull, ok_bind, none]
      exact .returns counted (Nat.le_succ _) rfl
    · obtain ⟨s', majors', freed, backs', count, flag⟩ := free_backs law backs member
      rw [freed, ok_bind]
      exact .returns backs' (Nat.le_succ_of_le count) flag
  | realloc p size =>
    have asked : BitVec.ofNat 32 (Call.realloc p size).size = size := by
      rw [Call.size, BitVec.ofNat_toNat, BitVec.setWidth_eq]
    rw [asked]
    simp only [Liballoc.call, after]
    by_cases zero : size = 0
    · -- `krealloc(p, 0)` is `kfree(p)`
      unfold Liballoc.realloc
      simp only [zero, if_true]
      rcases allowed with rfl | ⟨o, member, rfl⟩
      · rw [freeNull, ok_bind, none]
        exact .returns counted (Nat.le_succ _) rfl
      · obtain ⟨s', majors', freed, backs', count, flag⟩ := free_backs law backs member
        rw [freed, ok_bind]
        exact .returns backs' (Nat.le_succ_of_le count) flag
    · simp only [if_neg zero]
      rcases allowed with rfl | ⟨o, member, rfl⟩
      · -- `krealloc(NULL, size)` is `kmalloc(size)`
        have same : s.realloc K fuel 0 size = s.malloc K fuel size := by
          unfold Liballoc.realloc
          rw [if_neg zero, if_pos rfl]
        rw [same, none, ObjectStore.contents_of_not_mem null]
        have blank : ObjectStore.resize size.toNat [] = List.replicate size.toNat Option.none := by
          simp [ObjectStore.resize]
        rw [blank]
        exact malloc_backs law.toGrowing backs small enough
      · rw [ObjectStore.contents_of_mem (backs.sound law.toGrowing).nodup member]
        by_cases fits : size.toNat ≤ o.bytes.length
        · exact shrink_backs law.toGrowing backs member zero fits
        · exact grow_backs law backs member (Nat.lt_of_not_le fits) small enough
  | write p i b =>
    obtain ⟨o, member, rfl, bound⟩ := allowed
    obtain ⟨s', stored, flag, backs'⟩ := write_backs law.toGrowing backs member bound b
    simp only [Liballoc.call, after]
    rw [stored, ok_bind]
    exact .returns backs' (Nat.le_succ _) flag

end Treeos
