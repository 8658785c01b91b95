import Treeos.Klibc.LiballocFree
import Treeos.Klibc.Memory

/-!
# The bytes of the callers

`liballoc_memcpy` and `liballoc_memset`, and what callers of `kmalloc` may do: write to the bytes
that they have asked for. None of it touches the structures of liballoc.
-/
namespace Treeos

open ByteMemory DoublyLinked Extents Liballoc

variable {σ : Type} {K : Hooks σ} {Owns : σ → List PageArea → Prop} {view : σ → Memory}
variable {s s' : Liballoc σ} {M N : Major} {c d : Minor} {m m' m₁ : Memory} {h h' : σ}
variable {pre post majors : List Major} {xs ys : List Minor} {as : List PageArea} {a b : PageArea}
variable {dest src p : BitVec 32} {n k : Nat}

/-! ### `liballoc_memcpy` -/

/-- Two moves, the second one behind the first. -/
theorem Moved.trans (first : Moved m m₁ dest src k)
    (second : Moved m₁ m' (dest + BitVec.ofNat 32 k) (src + BitVec.ofNat 32 k) n)
    (fits : k + n ≤ 2 ^ 32) (apart : ∀ x ∈ Span src (k + n), x ∉ Span dest (k + n)) :
    Moved m m' dest src (k + n) := by
  constructor
  · intro i bound
    by_cases low : i < k
    · have away : dest + BitVec.ofNat 32 i ∉ Span (dest + BitVec.ofNat 32 k) n := by
        rw [mem_span]
        bv_omega
      rw [second.frame _ away]
      exact first.bytes i low
    · obtain ⟨j, rfl⟩ : ∃ j, i = k + j := ⟨i - k, by omega⟩
      have byte := second.bytes j (by omega)
      have unread : src + BitVec.ofNat 32 (k + j) ∉ Span dest k := fun written =>
        apart _ ((mem_span_add (by omega)).mpr bound) (span_mono (Nat.le_add_right k n) written)
      rw [BitVec.add_assoc, BitVec.add_assoc, ← BitVec.ofNat_add] at byte
      rw [byte, first.frame _ unread]
  · intro x outside
    have tail : x ∉ Span (dest + BitVec.ofNat 32 k) n := by
      intro inside
      apply outside
      rw [mem_span] at *
      bv_omega
    rw [second.frame x tail]
    exact first.frame x fun inside => outside (span_mono (Nat.le_add_right k n) inside)

theorem moved_byte (m : Memory) (dest src : BitVec 32) :
    Moved m (ByteMemory.store8 m dest (m src)) dest src 1 := by
  constructor
  · intro i bound
    obtain rfl : i = 0 := by omega
    simp [ByteMemory.store8]
  · intro x outside
    refine store8_of_ne fun here => outside ?_
    rw [mem_span, here, BitVec.sub_self]
    decide

/-- The bytes of a word that has been loaded. -/
theorem load32_byte (m : Memory) (src i : BitVec 32) (small : i.toNat < 4) :
    (load32 m src >>> (8 * i.toNat)).setWidth 8 = m (src + i) := by
  have cases : i = 0#32 ∨ i = 1#32 ∨ i = 2#32 ∨ i = 3#32 := by bv_omega
  apply BitVec.eq_of_getLsbD_eq
  intro j bound
  rw [BitVec.getLsbD_setWidth, BitVec.getLsbD_ushiftRight, load32]
  simp only [BitVec.getLsbD_append]
  rcases cases with rfl | rfl | rfl | rfl
  · simp [bound]
  · simp [bound, show ¬8 + j < 8 by omega]
  · simp [bound, show ¬16 + j < 8 by omega, show 16 + j - 8 = 8 + j by omega,
      show ¬8 + j < 8 by omega]
  · simp [bound, show ¬24 + j < 8 by omega, show 24 + j - 8 = 16 + j by omega,
      show ¬16 + j < 8 by omega, show 16 + j - 8 = 8 + j by omega, show ¬8 + j < 8 by omega]

theorem moved_word (m : Memory) (dest src : BitVec 32) :
    Moved m (store32 m dest (load32 m src)) dest src 4 := by
  constructor
  · intro i bound
    have small : (BitVec.ofNat 32 i).toNat < 4 := by
      rw [BitVec.toNat_ofNat]
      omega
    rw [store32_byte _ _ small]
    exact load32_byte m src _ small
  · intro x outside
    exact store32_of_not_mem outside

/-- Less than four bytes are copied one by one. -/
theorem memcpy_few (few : n < 3) : s.memcpy K dest src (n + 1) = (do
    let b ← K.load8 s.host src
    let s ← s.store8 K dest b
    memcpy K s (dest + 1) (src + 1) n) := by
  have cases : n = 0 ∨ n = 1 ∨ n = 2 := by omega
  rcases cases with rfl | rfl | rfl <;> rfl

/-- `liballoc_memcpy` between areas that have been allocated. -/
theorem memcpy_spec (law : K.Growing Owns view) (owns : Owns s.host as) (here : a ∈ as)
    (there : b ∈ as) (source : Span src n ⊆ a.range) (target : Span dest n ⊆ b.range)
    (fits : n ≤ 2 ^ 32) (apart : ∀ x ∈ Span src n, x ∉ Span dest n) :
    ∃ h', s.memcpy K dest src n = .ok (s.withHost h') ∧ Owns h' as ∧
      Moved (view s.host) (view h') dest src n := by
  induction n using Nat.strong_induction_on generalizing s dest src with
  | _ n ih =>
    by_cases none : n = 0
    · subst none
      refine ⟨s.host, by rw [memcpy]; rfl, owns, ⟨fun i bound => ?_, fun x _ => rfl⟩⟩
      exact absurd bound (Nat.not_lt_zero i)
    -- a word or a byte, and then the rest
    have step {k j : Nat} (length : n = k + j) (some : 0 < k) {h₁ : σ} (owns₁ : Owns h₁ as)
        (moved : Moved (view s.host) (view h₁) dest src k) (call : s.memcpy K dest src n =
          (s.withHost h₁).memcpy K (dest + BitVec.ofNat 32 k) (src + BitVec.ofNat 32 k) j) :
        ∃ h', s.memcpy K dest src n = .ok (s.withHost h') ∧ Owns h' as ∧
          Moved (view s.host) (view h') dest src n := by
      have small : (BitVec.ofNat 32 k).toNat ≤ k := Nat.mod_le _ _
      have rest (q : BitVec 32) : Span (q + BitVec.ofNat 32 k) j ⊆ Span q n := fun x inside =>
        span_mono (by omega) (span_shift (BitVec.ofNat 32 k) inside)
      obtain ⟨h₂, copied, owns₂, moved₂⟩ := ih j (by omega) (s := s.withHost h₁) owns₁
        ((rest src).trans source) ((rest dest).trans target) (by omega)
        (fun x inside outside => apart x (rest src inside) (rest dest outside))
      refine ⟨h₂, call.trans copied, owns₂, ?_⟩
      subst length
      exact moved.trans moved₂ fits apart
    by_cases word : 4 ≤ n
    · obtain ⟨j, rfl⟩ : ∃ j, n = j + 4 := ⟨n - 4, by omega⟩
      have zero (q : BitVec 32) : field q 0 = q := BitVec.add_zero q
      have first (q : BitVec 32) : Span q 4 ⊆ Span q (j + 4) := span_mono (by omega)
      have read := law.load32 owns here (p := src) (i := 0)
        (by rw [zero]; exact (first src).trans source)
      obtain ⟨h₁, stored, owns₁, value⟩ := law.store32 owns there (p := dest) (i := 0)
        (by rw [zero]; exact (first dest).trans target) (load32 (view s.host) src)
      rw [zero] at read value
      refine step (Nat.add_comm j 4) (by decide) owns₁ ?_ ?_
      · rw [value]
        exact moved_word (view s.host) dest src
      · exact (bind_of_ok read _).trans (bind_of_ok stored _)
    · obtain ⟨j, rfl⟩ : ∃ j, n = j + 1 := ⟨n - 1, by omega⟩
      have first (q : BitVec 32) : q ∈ Span q (j + 1) := by
        rw [mem_span, BitVec.sub_self]
        exact Nat.succ_pos j
      have read := law.load owns here (source (first src))
      obtain ⟨h₁, stored, owns₁, value⟩ := law.store8 owns there (target (first dest))
        (view s.host src)
      refine step (Nat.add_comm j 1) (by decide) owns₁ ?_ ?_
      · rw [value]
        exact moved_byte (view s.host) dest src
      · rw [memcpy_few (by omega)]
        exact (bind_of_ok read _).trans (bind_of_ok stored _)

/-! ### `liballoc_memset` -/

/-- `liballoc_memset` in an area that has been allocated. -/
theorem memset_spec (law : K.Growing Owns view) (owns : Owns s.host as) (here : a ∈ as)
    (target : Span p n ⊆ a.range) (fits : n ≤ 2 ^ 32) (byte : BitVec 8) :
    ∃ h', s.memset K p byte n = .ok (s.withHost h') ∧ Owns h' as ∧
      (∀ i < n, view h' (p + BitVec.ofNat 32 i) = byte) ∧
      ∀ x ∉ Span p n, view h' x = view s.host x := by
  induction n with
  | zero =>
    exact ⟨s.host, rfl, owns, fun i bound => absurd bound (Nat.not_lt_zero i), fun _ _ => rfl⟩
  | succ n ih =>
    obtain ⟨h₁, filled, owns₁, bytes, frame⟩ := ih
      (fun x inside => target (span_mono (Nat.le_succ n) inside)) (by omega)
    have inside : p + BitVec.ofNat 32 n ∈ a.range :=
      target ((mem_span_add (by omega)).mpr (Nat.lt_succ_self n))
    obtain ⟨h₂, stored, owns₂, value⟩ := law.store8 (s := s.withHost h₁) owns₁ here inside byte
    refine ⟨h₂, ?_, owns₂, fun i bound => ?_, fun x outside => ?_⟩
    · unfold memset at filled ⊢
      rw [List.range_succ, List.foldlM_append]
      refine (bind_of_ok filled _).trans ?_
      exact bind_of_ok stored _
    · rw [value]
      by_cases last : i = n
      · simp [ByteMemory.store8, last]
      · have away : p + BitVec.ofNat 32 i ≠ p + BitVec.ofNat 32 n := by bv_omega
        rw [store8_of_ne away]
        exact bytes i (by omega)
    · have away : x ≠ p + BitVec.ofNat 32 n := by
        rintro rfl
        exact outside ((mem_span_add (by omega)).mpr (Nat.lt_succ_self n))
      rw [value, store8_of_ne away]
      exact frame x fun inside => outside (span_mono (Nat.le_succ n) inside)

/-! ### Writes of the callers -/

/-- The bytes that `kmalloc` has been asked for. -/
def Minor.data (c : Minor) : Set (BitVec 32) := Span c.ptr c.reqSize.toNat

theorem Major.Sound.mem_data (sound : M.Sound) (member : c ∈ M.minors) {x : BitVec 32} :
    x ∈ c.data ↔ c.ptr.toNat ≤ x.toNat ∧ x.toNat < c.ptr.toNat + c.reqSize.toNat := by
  obtain ⟨-, -, high, -⟩ := sound.ptr_bounds member
  obtain ⟨-, below, limit, -⟩ := sound.bounds member
  exact mem_span_iff (by omega)

theorem Major.Sound.data_subset (sound : M.Sound) (member : c ∈ M.minors) :
    c.data ⊆ M.payload := by
  intro x inside
  obtain ⟨-, low, high, -⟩ := sound.ptr_bounds member
  rw [sound.mem_data member] at inside
  exact ⟨c, member, by omega, by omega⟩

/-- A byte of a block belongs to one minor at most. -/
theorem Major.Sound.unique (sound : M.Sound) (first : c ∈ M.minors) (second : d ∈ M.minors)
    {x : BitVec 32} (here : c.addr.toNat ≤ x.toNat ∧ x.toNat < c.stop)
    (there : d.addr.toNat ≤ x.toNat ∧ x.toNat < d.stop) : c = d := by
  obtain ⟨xs, ys, split⟩ := List.append_of_mem second
  have packed := sound.packed
  rw [split] at packed first
  obtain ⟨before, behind⟩ := packed.around
  rcases List.mem_append.mp first with first | first
  · have order : c.stop ≤ d.addr.toNat := before c first
    omega
  · rcases List.mem_cons.mp first with same | first
    · exact same
    · have order : d.stop ≤ c.addr.toNat := behind c first
      omega

/-- The structures of liballoc are outside of what callers write to. -/
theorem Layout.client (law : K.Growing Owns view) (layout : Layout Owns view s majors)
    (owns : Owns h' (majors.map Major.area))
    (same : ∀ x, (∀ M ∈ majors, ∀ c ∈ M.minors, x ∉ c.data) → view h' x = view s.host x) :
    Layout Owns view (s.withHost h') majors := by
  refine ⟨owns, layout.sound, layout.root, layout.linked.imp fun M member p n cell => ?_,
    layout.bestBet, layout.allocated, layout.inuse⟩
  have sound := layout.sound M member
  have low := sound.packed.le
  have limit : M.high < 2 ^ 32 := sound.area.fits
  unfold Major.low at low
  -- whose byte it can be
  have own {x : BitVec 32} (here : x ∈ M.area.range) {N : Major} (there : N ∈ majors) {d : Minor}
      (listed : d ∈ N.minors) (inside : x ∈ d.data) : d ∈ M.minors := by
    have soundN := layout.sound N there
    have place := soundN.payload_subset (soundN.data_subset listed inside)
    rw [← layout.unique law there member place here]
    exact listed
  constructor
  · refine cell.header.congr fun x inside => same x fun N there d listed data => ?_
    have byte : M.base.toNat ≤ x.toNat ∧ x.toNat < M.base.toNat + 24 :=
      (mem_span_iff (by simp; omega)).mp inside
    have place : x ∈ M.area.range :=
      sound.area.mem_range.mpr ⟨byte.1, by show _ < M.high; omega⟩
    have mine := own place there listed data
    obtain ⟨above, -, -, -⟩ := sound.bounds mine
    obtain ⟨-, first, -, -⟩ := sound.ptr_bounds mine
    rw [sound.mem_data mine] at data
    omega
  · refine cell.minors.imp fun c listed p n here => ?_
    obtain ⟨above, below, -, room⟩ := sound.bounds listed
    obtain ⟨-, first, last, byte⟩ := sound.ptr_bounds listed
    have header (x : BitVec 32) (low : c.addr.toNat ≤ x.toNat) (high : x.toNat < c.ptr.toNat) :
        view h' x = view s.host x := by
      refine same x fun N there d listed' data => ?_
      have place : x ∈ M.area.range := sound.area.mem_range.mpr
        ⟨by show M.base.toNat ≤ _; omega, by show _ < M.high; omega⟩
      have mine := own place there listed' data
      obtain ⟨-, first', last', -⟩ := sound.ptr_bounds mine
      rw [sound.mem_data mine] at data
      have one := sound.unique listed mine ⟨low, by omega⟩ ⟨by omega, by omega⟩
      rw [← one] at data
      omega
    refine ⟨here.header.congr fun x inside => ?_, ?_⟩
    · unfold Minor.stop at below last
      have bytes : c.addr.toNat ≤ x.toNat ∧ x.toNat < c.addr.toNat + 24 :=
        (mem_span_iff (by simp; omega)).mp inside
      exact header x bytes.1 (by omega)
    · rw [withHost_host, header _ (by omega) (by omega)]
      exact here.info

/-! ### A smaller size -/

/-- The size that has been asked for is only noted in the header. -/
theorem Layout.resize (law : K.Growing Owns view) (layout : Layout Owns view s (pre ++ M :: post))
    (split : M.minors = xs ++ c :: ys) {size : BitVec 32}
    (smaller : size.toNat ≤ c.reqSize.toNat) :
    ∃ h', s.store K c.addr MinorField.reqSize size = .ok (s.withHost h') ∧
      Layout Owns view (s.withHost h')
        (pre ++ { M with minors := xs ++ { c with reqSize := size } :: ys } :: post) ∧
      ∀ N ∈ pre ++ M :: post, ∀ x ∈ N.payload, view h' x = view s.host x := by
  have sound := layout.sound M (by simp)
  have member : c ∈ M.minors := by simp [split]
  obtain ⟨above, below, limit, room⟩ := sound.bounds member
  have stop : c.stop = c.addr.toNat + 24 + c.size.toNat := rfl
  have minors := layout.cell.minors
  rw [split, seg_append, seg_cons] at minors
  obtain ⟨front, here, back⟩ := minors
  have holds : Holds Owns view ((pre ++ M :: post).map Major.area) (view s.host)
      [c.record M.base (last Minor.addr 0 xs) (first Minor.addr 0 ys)] s.host := by
    refine layout.holds ?_ ?_ ?_ ?_
    · simp [Minor.record]
    · simp only [List.forall_mem_cons]
      exact ⟨here.header, List.forall_mem_nil _⟩
    · simp [Minor.record]
      omega
    · simp
  obtain ⟨h', stored, holds'⟩ := Holds.store law (s := s) (i := 5) [] _ [] holds
    (by simp [Minor.record]) size
  have touched (x : BitVec 32) (other : ¬c.InHeader x) : view h' x = view s.host x := by
    refine holds'.records.frame x ?_
    simp only [List.nil_append, List.forall_mem_cons]
    refine ⟨fun inside => other ?_, List.forall_mem_nil _⟩
    exact (Six.mem_span ⟨rfl, by show c.addr.toNat + 24 ≤ _; omega⟩).mp inside
  have fits := sound.fits_erase split
  have fits' : Fits { M with minors := xs ++ ys } xs ys { c with reqSize := size } :=
    ⟨rfl, fits.low, fits.high, by show size.toNat + 32 ≤ c.size.toNat; omega⟩
  have sound' := fits'.sound (sound.erase split)
  have whole : ({ M with minors := xs ++ c :: ys } : Major) = M := by rw [← split]
  -- the other headers do not say how much has been asked for
  have head (p : BitVec 32) : first Minor.addr p (xs ++ { c with reqSize := size } :: ys) =
      first Minor.addr p (xs ++ c :: ys) := by simp
  have others (e : Minor) (listed : e ∈ xs ++ ys) (p n : BitVec 32)
      (cell : e.Cell (view s.host) M.base p n) : e.Cell (view h') M.base p n := by
    have packed := sound.packed
    rw [split] at packed
    obtain ⟨before, behind⟩ := packed.around
    have within : e ∈ M.minors := by
      rw [split]
      rcases List.mem_append.mp listed with listed | listed <;> simp [listed]
    refine Minor.Cell.congr sound within (fun x low high => touched x fun byte => ?_) cell
    obtain ⟨start, last⟩ := byte
    rcases List.mem_append.mp listed with listed | listed
    · have order : e.stop ≤ c.addr.toNat := before e listed
      omega
    · have order : c.stop ≤ e.addr.toNat := behind e listed
      omega
  refine ⟨h', stored, layout.change law sound' holds'.owns ⟨?_, ?_⟩ ?_ rfl rfl rfl ?_, ?_⟩
  · have header := layout.cell.header
    rw [split] at header
    have usage : ({ M with minors := xs ++ { c with reqSize := size } :: ys } : Major).usage =
        M.usage := by
      rw [usage_insert, ← whole, usage_insert]
    rw [usage, head]
    refine header.congr fun x inside => touched x fun byte => ?_
    have high : M.high < 2 ^ 32 := limit
    have byte' : M.base.toNat ≤ x.toNat ∧ x.toNat < M.base.toNat + 24 :=
      (mem_span_iff (by simp; omega)).mp inside
    have start := byte.1
    omega
  · rw [seg_append, seg_cons]
    refine ⟨front.imp fun e listed => others e (by simp [listed]), ⟨?_, ?_⟩,
      back.imp fun e listed => others e (by simp [listed])⟩
    · exact holds'.records.words _ List.mem_cons_self
    · obtain ⟨-, low, high, byte⟩ := sound.ptr_bounds member
      refine (touched _ fun header => ?_).trans here.info
      have last := header.2
      have place : (({ c with reqSize := size } : Minor).ptr - 16).toNat = c.ptr.toNat - 16 := byte
      omega
  · intro x outside
    refine touched x fun byte => outside ?_
    have first := byte.1
    have last := byte.2
    exact sound.area.mem_range.mpr ⟨by show M.base.toNat ≤ _; omega, by show _ < M.high; omega⟩
  · refine layout.inuse.trans ?_
    simp [split]
  · intro N there x inside
    refine touched x fun byte => ?_
    have soundN := layout.sound N there
    have place := soundN.payload_subset inside
    have first := byte.1
    have last := byte.2
    have mine : x ∈ M.area.range :=
      sound.area.mem_range.mpr ⟨by show M.base.toNat ≤ _; omega, by show _ < M.high; omega⟩
    obtain rfl := layout.unique law there (by simp) place mine
    obtain ⟨d, listed, low, high⟩ := inside
    obtain rfl := sound.unique member listed ⟨first, by omega⟩ ⟨by omega, high⟩
    omega

end Treeos
