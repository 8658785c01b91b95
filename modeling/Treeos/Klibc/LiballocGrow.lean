import Treeos.Klibc.LiballocSearch

/-!
# New blocks

`allocate_new_page`, and how its block becomes the first one or the one behind the last.
-/
namespace Treeos

open ByteMemory DoublyLinked Extents Liballoc

variable {σ : Type} {K : Hooks σ} {Owns : σ → List PageArea → Prop} {view : σ → Memory}
variable {s s' : Liballoc σ} {M N : Major} {as : List PageArea} {m' : Memory}
variable {pre majors : List Major} {reqSize size : BitVec 32}

/-- The pages hold the two headers and the request, rounded up, and at least 16 of them. -/
theorem toNat_pagesFor (request : Request reqSize size) :
    (pagesFor size).toNat = max 16 ((size.toNat + 48 + 4095) / 4096) := by
  have small := request.small
  have need : (size + 24 + 24).toNat = size.toNat + 48 := by bv_omega
  have rounded : (if (size + 24 + 24) % 4096 = 0 then (size + 24 + 24) / 4096
      else (size + 24 + 24) / 4096 + 1).toNat = (size.toNat + 48 + 4095) / 4096 := by
    have quotient : ((size + 24 + 24) / 4096).toNat = (size.toNat + 48) / 4096 := by
      rw [BitVec.toNat_udiv, need]
      rfl
    have rest : ((size + 24 + 24) % 4096).toNat = (size.toNat + 48) % 4096 := by
      rw [BitVec.toNat_umod, need]
      rfl
    split
    next zero =>
      have exact : (size.toNat + 48) % 4096 = 0 := rest.symm.trans (congrArg BitVec.toNat zero)
      rw [quotient]
      omega
    next other =>
      have some : (size.toNat + 48) % 4096 ≠ 0 := fun zero =>
        other (BitVec.eq_of_toNat_eq (rest.trans zero))
      have next : ((size + 24 + 24) / 4096 + 1).toNat = ((size + 24 + 24) / 4096).toNat + 1 := by
        generalize (size + 24 + 24) / 4096 = q at *
        bv_omega
      rw [next, quotient]
      omega
  unfold pagesFor
  dsimp only
  generalize (if (size + 24 + 24) % 4096 = 0 then (size + 24 + 24) / 4096
      else (size + 24 + 24) / 4096 + 1) = st at *
  split
  next less =>
    rw [BitVec.lt_def] at less
    have value : (16 : BitVec 32).toNat = 16 := rfl
    omega
  next more =>
    rw [BitVec.lt_def] at more
    have value : (16 : BitVec 32).toNat = 16 := rfl
    omega

theorem pagesFor_ne_zero (request : Request reqSize size) : pagesFor size ≠ 0 := by
  intro zero
  have value := toNat_pagesFor request
  have none : (pagesFor size).toNat = 0 := congrArg BitVec.toNat zero
  omega

/-- A new block has room for the request. -/
theorem pagesFor_room (request : Request reqSize size) :
    size.toNat + 24 ≤ 4096 * (pagesFor size).toNat - 24 := by
  rw [toNat_pagesFor request]
  omega

/-- A block without minors. -/
def blankMajor (start pages : BitVec 32) : Major := ⟨start, pages, []⟩

theorem blankMajor_sound {start : BitVec 32} (request : Request reqSize size)
    (area : PageArea.Sound ⟨start, pagesFor size⟩) :
    (blankMajor start (pagesFor size)).Sound := by
  have many := toNat_pagesFor request
  refine ⟨area, by show 16 ≤ (pagesFor size).toNat; omega, ?_, nofun⟩
  have some := area.some
  show start.toNat + 24 ≤ start.toNat + 4096 * (pagesFor size).toNat
  dsimp only at some
  omega

/-- What `allocate_new_page` does when the host has pages. -/
theorem Hooks.Growing.allocateNewPage (law : K.Growing Owns view) (owns : Owns s.host as)
    (request : Request reqSize size) {start : BitVec 32} {h : σ}
    (pages : K.liballocAlloc s.host (pagesFor size) = .ok (start, h)) : ∃ h',
      s.allocateNewPage K size = .ok (start, { s with
        host := h', allocated := s.allocated + (pagesFor size * 4096).setWidth 64 }) ∧
      Owns h' (⟨start, pagesFor size⟩ :: as) ∧
      Words (view h') start [0, 0, pagesFor size, pagesFor size * 4096, 24, 0] ∧
      ∀ a ∈ as, ∀ x ∈ a.range, view h' x = view s.host x := by
  obtain ⟨owns₁, kept⟩ := law.alloc owns (pagesFor_ne_zero request) pages
  have area := law.sound owns₁ _ List.mem_cons_self
  have room := pagesFor_room request
  have positive : 0 < start.toNat := area.positive
  have holds : Holds Owns view (⟨start, pagesFor size⟩ :: as) (view h)
      [⟨start, wordsAt (view h) start 6⟩] h := by
    refine ⟨owns₁, ⟨by simp, by simp, ?_, fun _ _ => rfl⟩, ?_⟩
    · simpa using words_wordsAt _ _ 6
    · simp only [List.forall_mem_cons]
      refine ⟨⟨_, List.mem_cons_self, ?_⟩, nofun⟩
      exact span_mono (by simp; omega)
  obtain ⟨h', stored, holds'⟩ := Holds.storeAll law (s := s) [] _ [] holds
    [(MajorField.prev, 0), (MajorField.next, 0), (MajorField.pages, pagesFor size),
      (MajorField.size, pagesFor size * 4096), (MajorField.usage, 24), (MajorField.first, 0)] rfl
  refine ⟨h', ?_, holds'.owns, holds'.records.words _ List.mem_cons_self, ?_⟩
  · unfold Liballoc.allocateNewPage
    refine (bind_of_ok pages _).trans ?_
    dsimp only
    rw [if_neg (ne_zero_of_pos positive)]
    exact bind_of_ok stored _
  · intro a member x inside
    rw [← kept a member x inside]
    refine holds'.records.frame x ?_
    simp only [List.nil_append, List.forall_mem_cons]
    refine ⟨fun here => ?_, nofun⟩
    have apart := (List.pairwise_cons.mp (law.apart owns₁)).1 a member x
    have within : x ∈ Span start (4096 * (pagesFor size).toNat) :=
      span_mono (by show 24 ≤ 4096 * (pagesFor size).toNat; omega) here
    exact apart within inside

/-- A new block has been linked behind the others. -/
structure Grown (Owns : σ → List PageArea → Prop) (view : σ → Memory) (s s' : Liballoc σ)
    (majors : List Major) (N : Major) : Prop where
  layout : Layout Owns view s' (majors ++ [N])
  kept : ∀ M ∈ majors, ∀ x ∈ M.payload, view s'.host x = view s.host x
  state : s' = { s with host := s'.host, memRoot := s'.memRoot, allocated := s'.allocated }

theorem sum_allocated (majors : List Major) (N : Major) (sound : N.Sound) :
    BitVec.ofNat 64 (majors.map fun M => 4096 * M.pages.toNat).sum + N.size.setWidth 64 =
      BitVec.ofNat 64 ((majors ++ [N]).map fun M => 4096 * M.pages.toNat).sum := by
  have size := sound.toNat_size
  have bound := N.size.isLt
  simp only [List.map_append, List.map_cons, List.map_nil, List.sum_append, List.sum_cons,
    List.sum_nil]
  apply BitVec.eq_of_toNat_eq
  rw [BitVec.toNat_add, BitVec.toNat_setWidth, BitVec.toNat_ofNat, BitVec.toNat_ofNat]
  omega

/-- The first block of the heap. -/
theorem Layout.root_grown (law : K.Growing Owns view) (layout : Layout Owns view s [])
    (request : Request reqSize size) {start : BitVec 32} {h : σ}
    (pages : K.liballocAlloc s.host (pagesFor size) = .ok (start, h)) : ∃ s',
      s.ensureRoot K size = .ok s' ∧ s'.memRoot = start ∧
      Grown Owns view s s' [] (blankMajor start (pagesFor size)) := by
  obtain ⟨h', called, owns, words, kept⟩ := law.allocateNewPage layout.owns request pages
  have area := law.sound owns _ List.mem_cons_self
  have sound := blankMajor_sound request area
  have root : s.memRoot = 0 := layout.root
  refine ⟨{ s with
    host := h', memRoot := start, allocated := s.allocated + (pagesFor size * 4096).setWidth 64 },
    ?_, rfl, ?_⟩
  · unfold Liballoc.ensureRoot
    rw [if_pos root]
    exact bind_of_ok called _
  · refine ⟨⟨owns, ?_, rfl, ?_, ?_, ?_, ?_⟩, nofun, rfl⟩
    · simpa using sound
    · rw [List.nil_append, seg_cons]
      exact ⟨⟨words, trivial⟩, trivial⟩
    · rcases layout.bestBet with none | ⟨M, member, -⟩
      · exact .inl none
      · cases member
    · show s.allocated + (blankMajor start (pagesFor size)).size.setWidth 64 = _
      rw [layout.allocated]
      exact sum_allocated [] _ sound
    · exact layout.inuse

/-- In the memory `m'` a new block is linked behind the last one; but for the header of the
last one the blocks are as in `m`. -/
structure Appended (m m' : Memory) (pre : List Major) (M N : Major) : Prop where
  header : Words m' M.base (M.record (last Major.base 0 pre) N.base (BitVec.ofNat 32 M.usage)
    (first Minor.addr 0 M.minors)).words
  blank : Words m' N.base (N.record M.base 0 24 0).words
  same : ∀ N' ∈ pre ++ [M], ∀ x ∈ N'.area.range,
    ¬(M.base.toNat ≤ x.toNat ∧ x.toNat < M.base.toNat + 24) → m' x = m x

/-- The header of the last block and the one of a block that the host has just given. -/
theorem Layout.lastHeaders (law : K.Growing Owns view) (layout : Layout Owns view s (pre ++ [M]))
    {h : σ} (owns : Owns h (N.area :: (pre ++ [M]).map Major.area)) (soundN : N.Sound)
    (blank : Words (view h) N.base (N.record 0 0 24 0).words)
    (kept : ∀ a ∈ (pre ++ [M]).map Major.area, ∀ x ∈ a.range, view h x = view s.host x) :
    Holds Owns view (N.area :: (pre ++ [M]).map Major.area) (view h)
      [M.record (last Major.base 0 pre) 0 (BitVec.ofNat 32 M.usage) (first Minor.addr 0 M.minors),
        N.record 0 0 24 0] h := by
  have soundM := layout.sound M (by simp)
  have lowM := soundM.packed.le
  have lowN := soundN.packed.le
  have apart := (List.pairwise_cons.mp (law.apart owns)).1
  have cell : M.Cell (view h) (last Major.base 0 pre) 0 :=
    layout.cell.congr soundM (kept M.area (by simp))
  have insideM : (M.record (last Major.base 0 pre) 0 (BitVec.ofNat 32 M.usage)
      (first Minor.addr 0 M.minors)).span ⊆ M.area.range :=
    span_mono (by unfold Major.low Major.high at lowM; simp [Major.record, Major.area]; omega)
  have insideN : (N.record 0 0 24 0).span ⊆ N.area.range :=
    span_mono (by unfold Major.low Major.high at lowN; simp [Major.record, Major.area]; omega)
  refine ⟨owns, ⟨?_, ?_, ?_, fun _ _ => rfl⟩, ?_⟩
  · simp only [List.pairwise_cons, List.forall_mem_cons]
    refine ⟨⟨fun x here there => ?_, List.forall_mem_nil _⟩, List.forall_mem_nil _, .nil⟩
    exact apart M.area (by simp) x (insideN there) (insideM here)
  · simp [Major.record]
  · simp only [List.forall_mem_cons]
    exact ⟨cell.header, blank, List.forall_mem_nil _⟩
  · simp only [List.forall_mem_cons]
    exact ⟨⟨M.area, by simp, insideM⟩, ⟨N.area, by simp, insideN⟩, List.forall_mem_nil _⟩

/-- The two stores that link the block. -/
theorem Layout.appended (law : K.Growing Owns view) (layout : Layout Owns view s (pre ++ [M]))
    {h h' : σ} (owns : Owns h (N.area :: (pre ++ [M]).map Major.area)) (soundN : N.Sound)
    (kept : ∀ a ∈ (pre ++ [M]).map Major.area, ∀ x ∈ a.range, view h x = view s.host x)
    (holds : Holds Owns view as (view h)
      [M.record (last Major.base 0 pre) N.base (BitVec.ofNat 32 M.usage)
        (first Minor.addr 0 M.minors), N.record M.base 0 24 0] h') :
    Appended (view s.host) (view h') pre M N := by
  have soundM := layout.sound M (by simp)
  have lowM := soundM.packed.le
  have lowN := soundN.packed.le
  have apart := (List.pairwise_cons.mp (law.apart owns)).1
  refine ⟨holds.records.words _ List.mem_cons_self,
    holds.records.words _ (List.mem_cons_of_mem _ List.mem_cons_self),
    fun N' member x inside away => ?_⟩
  have area : N'.area ∈ (pre ++ [M]).map Major.area := List.mem_map.mpr ⟨N', member, rfl⟩
  rw [← kept N'.area area x inside]
  refine holds.records.frame x ?_
  simp only [List.forall_mem_cons]
  refine ⟨fun here => away ?_, fun here => ?_, List.forall_mem_nil _⟩
  · have fits : M.high < 2 ^ 32 := soundM.area.fits
    unfold Major.low at lowM
    exact (Six.mem_span ⟨rfl, by show M.base.toNat + 24 ≤ _; omega⟩).mp here
  · refine apart N'.area area x (span_mono ?_ here) inside
    unfold Major.low Major.high at lowN
    show 24 ≤ 4096 * N.pages.toNat
    omega

/-- The list with the new block is linked. -/
theorem Layout.append_linked (law : K.Growing Owns view)
    (layout : Layout Owns view s (pre ++ [M])) (none : N.minors = [])
    (appended : Appended (view s.host) m' pre M N) :
    Seg Major.base (Major.Cell m') 0 0 (pre ++ [M] ++ [N]) := by
  have soundM := layout.sound M (by simp)
  have linked := layout.linked
  rw [seg_append] at linked
  rw [List.append_assoc, seg_append]
  constructor
  · refine linked.1.imp fun N' member p n cell => ?_
    refine cell.congr (layout.sound N' (by simp [member])) fun x inside => ?_
    refine appended.same N' (by simp [member]) x inside fun byte => ?_
    exact layout.apart law (by simpa using member) inside (layout.header_mem (by simp) byte)
  · rw [List.cons_append, List.nil_append, seg_cons, seg_cons]
    refine ⟨⟨appended.header, ?_⟩, ⟨?_, ?_⟩, trivial⟩
    · refine layout.cell.minors.imp fun c member p n => ?_
      refine Minor.Cell.congr soundM member fun x low high => ?_
      obtain ⟨above, below, -, -⟩ := soundM.bounds member
      refine appended.same M (by simp) x (soundM.area.mem_range.mpr ⟨?_, ?_⟩) (by omega)
      · show M.base.toNat ≤ _
        omega
      · show _ < M.high
        omega
    · simpa [Major.record, Major.usage, none] using appended.blank
    · rw [none]
      trivial

/-- The objects in the other blocks keep their bytes. -/
theorem Layout.append_payload (law : K.Growing Owns view)
    (layout : Layout Owns view s (pre ++ [M])) (appended : Appended (view s.host) m' pre M N)
    {N' : Major} (member : N' ∈ pre ++ [M]) {x : BitVec 32} (payload : x ∈ N'.payload) :
    m' x = view s.host x := by
  have inside := (layout.sound N' member).payload_subset payload
  obtain ⟨c, listed, low, -⟩ := payload
  have above := ((layout.sound N' member).bounds listed).1
  refine appended.same N' member x inside fun byte => ?_
  have one := layout.unique law member (by simp) inside (layout.header_mem (by simp) byte)
  rw [← one] at byte
  omega

/-- A block behind the last one. -/
theorem Layout.last_grown (law : K.Growing Owns view) (layout : Layout Owns view s (pre ++ [M]))
    (request : Request reqSize size) {start : BitVec 32} {h : σ}
    (pages : K.liballocAlloc s.host (pagesFor size) = .ok (start, h)) : ∃ s',
      s.moveOn K size M.base false = .ok (.fresh start s') ∧
      Grown Owns view s s' (pre ++ [M]) (blankMajor start (pagesFor size)) := by
  obtain ⟨h₁, called, owns, words, kept⟩ := law.allocateNewPage layout.owns request pages
  obtain ⟨N, new⟩ : ∃ N, N = blankMajor start (pagesFor size) := ⟨_, rfl⟩
  have area := law.sound owns _ List.mem_cons_self
  have sound : N.Sound := new ▸ blankMajor_sound request area
  have positive : 0 < start.toNat := area.positive
  have owned : Owns h₁ (N.area :: (pre ++ [M]).map Major.area) := new ▸ owns
  have holds := layout.lastHeaders law owned sound (new ▸ words) kept
  obtain ⟨s₁, grown⟩ : ∃ s₁ : Liballoc σ, s₁ = { s with
      allocated := s.allocated + (pagesFor size * 4096).setWidth 64 } := ⟨_, rfl⟩
  obtain ⟨h₂, stored₂, holds₂⟩ := Holds.store law (s := s₁) (i := 1) [] _ [_] holds
    (by simp [Major.record]) N.base
  obtain ⟨h₃, stored₃, holds₃⟩ := Holds.store law (s := s₁) (i := 0) [_] _ [] holds₂
    (by simp [Major.record]) M.base
  have appended := layout.appended law owned sound kept holds₃
  obtain ⟨-, link, -⟩ := layout.loadMajor law
  refine ⟨s₁.withHost h₃, ?_, ?_⟩
  · unfold Liballoc.moveOn
    refine (bind_of_ok link _).trans ?_
    dsimp only
    rw [if_neg (by simp), if_neg (by decide)]
    refine (bind_of_ok called _).trans ?_
    rw [new, grown] at stored₂ stored₃
    refine (bind_of_ok stored₂ _).trans ?_
    rw [if_neg (ne_zero_of_pos positive), grown]
    exact bind_of_ok stored₃ _
  · rw [← new]
    have none : N.minors = [] := by rw [new]; rfl
    subst grown
    refine ⟨⟨?_, ?_, layout.root.trans (by simp), layout.append_linked law none appended, ?_, ?_,
      ?_⟩, ?_, rfl⟩
    · refine law.perm holds₃.owns ?_
      rw [List.map_append, List.map_append, List.map_append]
      exact (List.perm_append_singleton N.area _).symm
    · intro N' member
      rcases List.mem_append.mp member with member | member
      · exact layout.sound N' member
      · rw [List.mem_singleton.mp member]
        exact sound
    · rcases layout.bestBet with zero | ⟨N', member, here⟩
      · exact .inl zero
      · exact .inr ⟨N', List.mem_append_left _ member, here⟩
    · rw [← sum_allocated (pre ++ [M]) N sound, ← layout.allocated, new]
      rfl
    · refine layout.inuse.trans ?_
      simp [none]
    · intro N' member x payload
      exact layout.append_payload law appended member payload

end Treeos
