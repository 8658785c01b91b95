import Treeos.Klibc.LiballocLayout

/-!
# Running liballoc

What the hooks promise about the pages they have given out, and what the loads and stores of
liballoc do to records in these pages.
-/
namespace Treeos

open ByteMemory DoublyLinked Extents

/-- What `kmalloc` relies on: `Owns h as` says that the areas `as` have been allocated and not
been freed, and `view` is what memory holds. -/
structure Hooks.Growing {σ : Type} (K : Hooks σ) (Owns : σ → List PageArea → Prop)
    (view : σ → Memory) : Prop where
  sound : ∀ {h as}, Owns h as → ∀ a ∈ as, a.Sound
  apart : ∀ {h as}, Owns h as → as.Pairwise fun a b => ∀ x ∈ a.range, x ∉ b.range
  perm : ∀ {h as bs}, Owns h as → as.Perm bs → Owns h bs
  load : ∀ {h as a x}, Owns h as → a ∈ as → x ∈ a.range → K.load8 h x = .ok (view h x)
  store : ∀ {h as a x}, Owns h as → a ∈ as → x ∈ a.range → ∀ b, ∃ h', K.store8 h x b = .ok h' ∧
    Owns h' as ∧ view h' = ByteMemory.store8 (view h) x b
  alloc : ∀ {h as pages start h'}, Owns h as → pages ≠ 0 →
    K.liballocAlloc h pages = .ok (start, h') →
    Owns h' (⟨start, pages⟩ :: as) ∧ ∀ a ∈ as, ∀ x ∈ a.range, view h' x = view h x

/-- What all of liballoc relies on: areas can be freed, too. -/
structure Hooks.Lawful {σ : Type} (K : Hooks σ) (Owns : σ → List PageArea → Prop)
    (view : σ → Memory) : Prop extends K.Growing Owns view where
  free : ∀ {h a as}, Owns h (a :: as) → ∃ r h', K.liballocFree h a.start a.pages = .ok (r, h') ∧
    Owns h' as ∧ (∀ b ∈ as, ∀ x ∈ b.range, view h' x = view h x) ∧
    ∀ x ∈ a.range, K.load8 h' x = .error (.pageFault x)

/-- What stores and requests keep for the areas that are owned. -/
structure Hooks.GrowingKeeps {σ : Type} (K : Hooks σ) (Owns Q : σ → List PageArea → Prop) :
    Prop where
  perm : ∀ {h as bs}, Q h as → as.Perm bs → Q h bs
  store : ∀ {h h' as a x b}, Owns h as → Q h as → a ∈ as → x ∈ a.range →
    K.store8 h x b = .ok h' → Q h' as
  alloc : ∀ {h h' as pages start}, Owns h as → Q h as → pages ≠ 0 →
    K.liballocAlloc h pages = .ok (start, h') → Q h' (⟨start, pages⟩ :: as)

/-- What the calls of the hooks keep for the areas that are owned. -/
structure Hooks.Keeps {σ : Type} (K : Hooks σ) (Owns Q : σ → List PageArea → Prop) : Prop
    extends K.GrowingKeeps Owns Q where
  free : ∀ {h h' a as r}, Q h (a :: as) → K.liballocFree h a.start a.pages = .ok (r, h') → Q h' as

theorem Hooks.Growing.and {σ : Type} {K : Hooks σ} {Owns Q : σ → List PageArea → Prop}
    {view : σ → Memory} (law : K.Growing Owns view) (keeps : K.GrowingKeeps Owns Q) :
    K.Growing (fun h as => Owns h as ∧ Q h as) view where
  sound owns := law.sound owns.1
  apart owns := law.apart owns.1
  perm owns same := ⟨law.perm owns.1 same, keeps.perm owns.2 same⟩
  load owns := law.load owns.1
  store owns member inside b := by
    obtain ⟨h', stored, kept, value⟩ := law.store owns.1 member inside b
    exact ⟨h', stored, ⟨kept, keeps.store owns.1 owns.2 member inside stored⟩, value⟩
  alloc owns some returned := by
    obtain ⟨kept, same⟩ := law.alloc owns.1 some returned
    exact ⟨⟨kept, keeps.alloc owns.1 owns.2 some returned⟩, same⟩

/-- Hooks keep their promises together with what their calls keep. -/
theorem Hooks.Lawful.and {σ : Type} {K : Hooks σ} {Owns Q : σ → List PageArea → Prop}
    {view : σ → Memory} (law : K.Lawful Owns view) (keeps : K.Keeps Owns Q) :
    K.Lawful (fun h as => Owns h as ∧ Q h as) view where
  toGrowing := law.toGrowing.and keeps.toGrowingKeeps
  free owns := by
    obtain ⟨r, h', returned, kept, same, gone⟩ := law.free owns.1
    exact ⟨r, h', returned, ⟨kept, keeps.free owns.2 returned⟩, same, gone⟩

/-- The state of liballoc with another host. -/
def Liballoc.withHost {σ : Type} (s : Liballoc σ) (h : σ) : Liballoc σ := { s with host := h }

section
variable {σ : Type} (s : Liballoc σ) (h h' : σ)

@[simp] theorem withHost_host : (s.withHost h).host = h := rfl
@[simp] theorem withHost_withHost : (s.withHost h).withHost h' = s.withHost h' := rfl
@[simp] theorem withHost_memRoot : (s.withHost h).memRoot = s.memRoot := rfl
@[simp] theorem withHost_bestBet : (s.withHost h).bestBet = s.bestBet := rfl
@[simp] theorem withHost_allocated : (s.withHost h).allocated = s.allocated := rfl
@[simp] theorem withHost_inuse : (s.withHost h).inuse = s.inuse := rfl
@[simp] theorem withHost_interruptFlag : (s.withHost h).interruptFlag = s.interruptFlag := rfl
@[simp] theorem withHost_enableInt : (s.withHost h).enableInt = s.enableInt := rfl

end

variable {σ : Type} {K : Hooks σ} {Owns : σ → List PageArea → Prop} {view : σ → Memory}
variable {h : σ} {as : List PageArea} {m₀ : Memory} {rs front back : List Record} {r : Record}
variable {s : Liballoc σ} {a : PageArea} {x : BitVec 32} {i : Nat}

/-- The host owns the areas, and memory holds the records, which lie in them, and what `m₀`
holds elsewhere. -/
structure Holds (Owns : σ → List PageArea → Prop) (view : σ → Memory) (as : List PageArea)
    (m₀ : Memory) (rs : List Record) (h : σ) : Prop where
  owns : Owns h as
  records : Records m₀ (view h) rs
  inside : ∀ r ∈ rs, ∃ a ∈ as, r.span ⊆ a.range

theorem Hooks.Growing.load32 (law : K.Growing Owns view) (owns : Owns s.host as) (member : a ∈ as)
    {p : BitVec 32} (inside : Span (field p i) 4 ⊆ a.range) :
    s.load K p i = .ok (ByteMemory.load32 (view s.host) (field p i)) := by
  have byte (d : BitVec 32) (small : d.toNat < 4) :
      K.load8 s.host (field p i + d) = .ok (view s.host (field p i + d)) := by
    refine law.load owns member (inside ?_)
    rw [mem_span]
    bv_omega
  have zero := byte 0#32 (by decide)
  rw [BitVec.add_zero] at zero
  unfold Liballoc.load
  rw [zero, byte 1 (by decide), byte 2 (by decide), byte 3 (by decide)]
  rfl

/-- A store of four bytes is one of a word. -/
theorem store8_four (m : Memory) (p v : BitVec 32) :
    store8 (store8 (store8 (store8 m p (v.setWidth 8)) (p + 1) ((v >>> 8).setWidth 8)) (p + 2)
      ((v >>> 16).setWidth 8)) (p + 3) ((v >>> 24).setWidth 8) = store32 m p v := by
  funext x
  unfold store32
  by_cases inside : (x - p).toNat < 4
  · rw [if_pos inside]
    -- the byte is one of the four
    obtain ⟨d, small, rfl⟩ : ∃ d : BitVec 32, d.toNat < 4 ∧ x = p + d :=
      ⟨x - p, inside, by bv_omega⟩
    have offset : p + d - p = d := by bv_omega
    rw [offset]
    have cases : d = 0#32 ∨ d = 1#32 ∨ d = 2#32 ∨ d = 3#32 := by bv_omega
    unfold store8
    rcases cases with rfl | rfl | rfl | rfl <;> simp
  · rw [if_neg inside]
    have away (d : BitVec 32) (small : d.toNat < 4) : x ≠ p + d := by
      rintro rfl
      apply inside
      bv_omega
    have zero := away 0#32 (by decide)
    rw [BitVec.add_zero] at zero
    rw [store8_of_ne (away 3 (by decide)), store8_of_ne (away 2 (by decide)),
      store8_of_ne (away 1 (by decide)), store8_of_ne zero]

theorem Hooks.Growing.store8 (law : K.Growing Owns view) (owns : Owns s.host as) (member : a ∈ as)
    (inside : x ∈ a.range) (b : BitVec 8) : ∃ h', s.store8 K x b = .ok (s.withHost h') ∧
      Owns h' as ∧ view h' = ByteMemory.store8 (view s.host) x b := by
  obtain ⟨h', stored, kept, value⟩ := law.store owns member inside b
  refine ⟨h', ?_, kept, value⟩
  unfold Liballoc.store8
  rw [stored]
  rfl

theorem Hooks.Growing.store32 (law : K.Growing Owns view) (owns : Owns s.host as) (member : a ∈ as)
    {p : BitVec 32} (inside : Span (field p i) 4 ⊆ a.range) (v : BitVec 32) :
    ∃ h', s.store K p i v = .ok (s.withHost h') ∧ Owns h' as ∧
      view h' = ByteMemory.store32 (view s.host) (field p i) v := by
  have byte (d : BitVec 32) (small : d.toNat < 4) : field p i + d ∈ a.range := by
    refine inside ?_
    rw [mem_span]
    bv_omega
  have zero := byte 0#32 (by decide)
  rw [BitVec.add_zero] at zero
  obtain ⟨h₀, stored₀, owns₀, view₀⟩ := law.store8 owns member zero (v.setWidth 8)
  obtain ⟨h₁, stored₁, owns₁, view₁⟩ := law.store8 (s := s.withHost h₀) owns₀ member
    (byte 1 (by decide)) ((v >>> 8).setWidth 8)
  obtain ⟨h₂, stored₂, owns₂, view₂⟩ := law.store8 (s := s.withHost h₁) owns₁ member
    (byte 2 (by decide)) ((v >>> 16).setWidth 8)
  obtain ⟨h₃, stored₃, owns₃, view₃⟩ := law.store8 (s := s.withHost h₂) owns₂ member
    (byte 3 (by decide)) ((v >>> 24).setWidth 8)
  refine ⟨h₃, ?_, owns₃, ?_⟩
  · unfold Liballoc.store
    rw [stored₀, ok_bind]
    rw [withHost_withHost] at stored₁ stored₂ stored₃
    rw [stored₁, ok_bind, stored₂, ok_bind, stored₃]
  · rw [view₃, withHost_host, view₂, withHost_host, view₁, withHost_host, view₀, store8_four]

theorem Holds.load (law : K.Growing Owns view) (front : List Record) (r : Record)
    (back : List Record) (holds : Holds Owns view as m₀ (front ++ r :: back) h)
    (bound : i < r.words.length) : (s.withHost h).load K r.base i = .ok r.words[i] := by
  obtain ⟨a, here, inside⟩ := holds.inside r (by simp)
  rw [law.load32 holds.owns here fun x there => inside (span_field bound there),
    withHost_host, holds.records.load (by simp) bound]

/-- A store to a field of one of the records. -/
theorem Holds.store (law : K.Growing Owns view) (front : List Record) (r : Record)
    (back : List Record) (holds : Holds Owns view as m₀ (front ++ r :: back) h)
    (bound : i < r.words.length) (v : BitVec 32) :
    ∃ h', (s.withHost h).store K r.base i v = .ok (s.withHost h') ∧
      Holds Owns view as m₀ (front ++ r.set i v :: back) h' := by
  obtain ⟨a, here, inside⟩ := holds.inside r (by simp)
  obtain ⟨h', stored, owns, value⟩ := law.store32 (s := s.withHost h) holds.owns here
    (fun x there => inside (span_field bound there)) v
  refine ⟨h', stored, owns, value ▸ holds.records.store bound v, ?_⟩
  intro r' member
  rcases List.mem_append.mp member with member | member
  · exact holds.inside r' (by simp [member])
  · rcases List.mem_cons.mp member with rfl | member
    · exact ⟨a, here, by simpa using inside⟩
    · exact holds.inside r' (by simp [member])

/-- The words of a record after stores to its fields. -/
def setAll (ws : List (BitVec 32)) (fields : List (Nat × BitVec 32)) : List (BitVec 32) :=
  fields.foldl (fun ws (i, v) => ws.set i v) ws

theorem Holds.storeAll (law : K.Growing Owns view) (front : List Record) (r : Record)
    (back : List Record) (holds : Holds Owns view as m₀ (front ++ r :: back) h)
    (fields : List (Nat × BitVec 32)) (bound : fields.all (·.1 < r.words.length) = true) :
    ∃ h', (s.withHost h).storeAll K r.base fields = .ok (s.withHost h') ∧
      Holds Owns view as m₀ (front ++ ⟨r.base, setAll r.words fields⟩ :: back) h' := by
  induction fields generalizing h r with
  | nil => exact ⟨h, rfl, holds⟩
  | cons f fields ih =>
    obtain ⟨i, v⟩ := f
    rw [List.all_cons, Bool.and_eq_true] at bound
    obtain ⟨h₁, stored, holds₁⟩ := holds.store (s := s) law front r back
      (of_decide_eq_true bound.1) v
    obtain ⟨h₂, rest, holds₂⟩ := ih (r.set i v) holds₁ (by simpa using bound.2)
    refine ⟨h₂, ?_, holds₂⟩
    unfold Liballoc.storeAll at *
    rw [List.foldlM_cons]
    exact bind_ok_iff.mpr ⟨_, stored, rest⟩

/-- A byte outside of the records. -/
theorem Holds.store8 (law : K.Growing Owns view) (holds : Holds Owns view as m₀ rs h)
    (member : a ∈ as) (inside : x ∈ a.range) (outside : ∀ r ∈ rs, x ∉ r.span) (b : BitVec 8) :
    ∃ h', (s.withHost h).store8 K x b = .ok (s.withHost h') ∧
      Holds Owns view as (ByteMemory.store8 m₀ x b) rs h' ∧
      view h' = ByteMemory.store8 (view h) x b := by
  obtain ⟨h', stored, owns, value⟩ := law.store8 (s := s.withHost h) holds.owns member inside b
  exact ⟨h', stored, ⟨owns, value ▸ holds.records.store8 outside b, holds.inside⟩, value⟩

/-! ### Lock and alignment -/

/-- Between `liballoc_lock` and `liballoc_unlock` interrupts are off. -/
theorem unlock_locked (off : s.interruptFlag = false) :
    s.unlock = .ok { s with interruptFlag := s.enableInt } := by
  obtain ⟨host, root, bet, allocated, inuse, warnings, errors, overruns, flag, enable⟩ := s
  cases off
  cases enable <;> rfl

theorem lock_eq (s : Liballoc σ) :
    s.lock = .ok { s with enableInt := s.interruptFlag, interruptFlag := false } := by
  unfold Liballoc.lock
  cases flag : s.interruptFlag with
  | false => rw [if_neg (by decide), ← flag]
  | true => rfl

theorem align_eq (s : Liballoc σ) (p : BitVec 32) : s.align K p =
    s.store8 K (alignedPtr p - 16) (alignInfo p) >>= fun s => .ok (alignedPtr p, s) := by
  unfold Liballoc.align
  by_cases other : (p + 16) &&& 15 ≠ 0
  · have pointer : alignedPtr p = p + 16 + (16 - ((p + 16) &&& 15)) := if_pos other
    have info : alignInfo p = (16 - ((p + 16) &&& 15) + 16).setWidth 8 := by
      unfold alignInfo
      rw [pointer]
      congr 1
      bv_omega
    simp only [if_pos other, pointer, info]
  · have pointer : alignedPtr p = p + 16 := if_neg other
    have info : alignInfo p = (((p + 16) &&& 15) + 16).setWidth 8 := by
      unfold alignInfo
      rw [pointer, Classical.not_not.mp other]
      congr 1
      bv_omega
    simp only [if_neg other, pointer, info]

end Treeos
