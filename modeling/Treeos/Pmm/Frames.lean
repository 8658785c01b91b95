import Treeos.Lib.FirstFit
import Treeos.Panic
import Treeos.Pmm.Entry
import Treeos.Util.Bitmap

/-!
# Frame allocation

`page_alloc` and `page_free` of `pmm/paging.c` over the frame bitmap, and what any
history of such calls does to it.
-/
namespace Treeos

/-- `page_alloc`; the pointers are `none` for NULL. -/
def pageAlloc (bm : Bitmap) (page : Option Entry) : Except Panic (Option Entry × Bitmap) :=
  match page with
  | none => .error (.kassert "page")
  | some page =>
    let bit := bm.firstFree
    if bit = -1#32 then .ok (none, bm)
    else .ok (some (Entry.setAddress page (bit.setWidth 20)), bm.setBit bit.toNat)

/-- `page_free`. Clearing an unset bit only prints a worry. -/
def pageFree (bm : Bitmap) (page : Option Entry) : Except Panic Bitmap :=
  match page with
  | none => .error (.kassert "page")
  | some page => .ok (bm.clearBit (Entry.address page).toNat)

/-- What one call returned. -/
inductive FrameCall where
  | alloc (frame : Frame)
  | null
  | free (frame : Frame)

/-- Calls of the two functions, with the frames their callers hold. `page_free`
is only given held frames. -/
inductive FrameStep : Bitmap × List Frame → FrameCall → Bitmap × List Frame → Prop
  | alloc {bm bm' : Bitmap} {held : List Frame} {page page' : Entry}
      (returned : pageAlloc bm (some page) = .ok (some page', bm')) :
      FrameStep (bm, held) (.alloc (Entry.address page')) (bm', Entry.address page' :: held)
  | null {bm bm' : Bitmap} {held : List Frame} {page : Entry}
      (returned : pageAlloc bm (some page) = .ok (none, bm')) :
      FrameStep (bm, held) .null (bm', held)
  | free {bm bm' : Bitmap} {held : List Frame} {page : Entry} (member : Entry.address page ∈ held)
      (returned : pageFree bm (some page) = .ok bm') :
      FrameStep (bm, held) (.free (Entry.address page)) (bm', held.erase (Entry.address page))

/-! ### Specification of the two functions -/

/-- A call of `page_alloc` hands out the least clear bit and sets it. -/
theorem pageAlloc_some {bm bm' : Bitmap} {page page' : Entry}
    (bound : bm.wordCount.toNat ≤ 1024)
    (returned : pageAlloc bm (some page) = .ok (some page', bm')) :
    IsLeast bm.clearBits (Entry.address page').toNat ∧
      bm' = bm.setBit (Entry.address page').toNat := by
  simp only [pageAlloc] at returned
  split at returned
  · cases returned
  next found =>
    have least := bm.firstFree_least (by omega) found
    have inside : bm.firstFree.toNat < bm.size := least.1.1
    unfold Bitmap.size bitsPerWord at inside
    have same : (bm.firstFree.setWidth 20).toNat = bm.firstFree.toNat := by
      rw [BitVec.toNat_setWidth, Nat.mod_eq_of_lt (by omega)]
    cases returned
    rw [Entry.address_setAddress, same]
    exact ⟨least, rfl⟩

theorem pageAlloc_none_iff {bm : Bitmap} {page : Entry} (bound : bm.wordCount.toNat ≤ 1024) :
    (∃ bm', pageAlloc bm (some page) = .ok (none, bm')) ↔ bm.clearBits = ∅ := by
  rw [← bm.firstFree_eq_neg_one_iff (by omega)]
  simp only [pageAlloc]
  split <;> simp_all

/-- The other direction of `pageAlloc_some`. -/
theorem pageAlloc_of_least {bm : Bitmap} (bound : bm.wordCount.toNat ≤ 1024) {frame : Frame}
    (least : IsLeast bm.clearBits frame.toNat) (page : Entry) : ∃ page',
      pageAlloc bm (some page) = .ok (some page', bm.setBit frame.toNat) ∧
        Entry.address page' = frame := by
  cases answer : pageAlloc bm (some page) with
  | error e =>
    simp only [pageAlloc] at answer
    split at answer <;> cases answer
  | ok result =>
    obtain ⟨_ | page', bm'⟩ := result
    · have full := (pageAlloc_none_iff bound).mp ⟨bm', answer⟩
      rw [full] at least
      exact absurd least.1 (Set.notMem_empty _)
    · obtain ⟨least', changed⟩ := pageAlloc_some bound answer
      have same : Entry.address page' = frame := BitVec.eq_of_toNat_eq (least'.unique least)
      exact ⟨page', by rw [changed, same], same⟩

theorem pageAlloc_none {bm bm' : Bitmap} {page : Entry}
    (returned : pageAlloc bm (some page) = .ok (none, bm')) : bm' = bm := by
  simp only [pageAlloc] at returned
  split at returned <;> cases returned
  rfl

/-! ### Histories -/

/-- The bitmap is the initial one with the bits of the held frames set. -/
structure Tracks (init : Bitmap) (bm : Bitmap) (held : List Frame) : Prop where
  wordCount : bm.wordCount = init.wordCount
  flags : bm.flags = init.flags
  bits : ∀ bit, bm.testBit bit = (init.testBit bit || decide (bit ∈ held.map BitVec.toNat))

/-- The pool of a bitmap: its bit numbers, those set from the start reserved. -/
def framePool (init : Bitmap) : Set Nat := {bit | bit < init.size}
def reservedFrames (init : Bitmap) : Set Nat := {bit | init.testBit bit = true}

theorem Tracks.clearBits {init bm : Bitmap} {held : List Frame} (tracks : Tracks init bm held) :
    bm.clearBits = FirstFit.free (framePool init) (reservedFrames init) (held.map BitVec.toNat) := by
  ext bit
  simp [Bitmap.mem_clearBits, FirstFit.free, framePool, reservedFrames, tracks.bits bit,
    Bitmap.size, tracks.wordCount]

theorem map_toNat_erase (held : List Frame) (frame : Frame) :
    (held.erase frame).map BitVec.toNat = (held.map BitVec.toNat).erase frame.toNat :=
  List.map_erase (fun _ _ same => BitVec.eq_of_toNat_eq same) held

/-- What a call means to the pool. -/
def FrameCall.op : FrameCall → FirstFit.Op Nat
  | .alloc frame => .take frame.toNat
  | .null => .exhausted
  | .free frame => .give frame.toNat

/-- The bitmap allocator refines the first-fit pool. -/
theorem FrameStep.refines {init : Bitmap} (bound : init.wordCount.toNat ≤ 1024)
    {s s' : Bitmap × List Frame} {call : FrameCall} (tracks : Tracks init s.1 s.2)
    (sound : FirstFit.Sound (framePool init) (reservedFrames init) (s.2.map BitVec.toNat))
    (step : FrameStep s call s') :
    Tracks init s'.1 s'.2 ∧ FirstFit.Step (framePool init) (reservedFrames init)
      (s.2.map BitVec.toNat) call.op (s'.2.map BitVec.toNat) := by
  cases step with
  | @alloc bm bm' held page page' returned =>
    have ⟨least, changed⟩ := pageAlloc_some (tracks.wordCount ▸ bound) returned
    refine ⟨⟨changed ▸ tracks.wordCount, changed ▸ tracks.flags, fun bit => ?_⟩, ?_⟩
    · simp only [changed, Bitmap.testBit_setBit, tracks.bits, List.map_cons, List.mem_cons,
        eq_comm (a := bit), Bool.decide_or]
      exact Bool.or_left_comm _ _ _
    · rw [tracks.clearBits] at least
      exact .take least
  | null returned =>
    have same := pageAlloc_none returned
    exact ⟨same ▸ tracks, .exhausted⟩
  | @free bm bm' held page member returned =>
    have changed : bm' = bm.clearBit (Entry.address page).toNat := (Except.ok.inj returned).symm
    have held := List.mem_map_of_mem (f := BitVec.toNat) member
    refine ⟨⟨changed ▸ tracks.wordCount, changed ▸ tracks.flags, fun bit => ?_⟩, ?_⟩
    · simp only [changed, Bitmap.testBit_clearBit, tracks.bits, map_toNat_erase,
        sound.nodup.mem_erase_iff]
      by_cases same : (Entry.address page).toNat = bit
      · subst same
        have unreserved : init.testBit (Entry.address page).toNat = false := by
          simpa [reservedFrames] using (sound.inside _ held).2
        simp [unreserved]
      · simp [same, Ne.symm same]
    · rw [map_toNat_erase]
      exact .give held

/-- Over any history the bitmap tracks the held frames and the pool stays sound. -/
theorem history_tracks {init bm : Bitmap} {held : List Frame} {calls : List FrameCall}
    (bound : init.wordCount.toNat ≤ 1024)
    (history : Run.From FrameStep (init, []) calls (bm, held)) :
    Tracks init bm held ∧
      FirstFit.Sound (framePool init) (reservedFrames init) (held.map BitVec.toNat) := by
  refine history.invariant (fun _ s => Tracks init s.1 s.2 ∧
    FirstFit.Sound (framePool init) (reservedFrames init) (s.2.map BitVec.toNat))
    ⟨⟨rfl, rfl, by simp⟩, ⟨by simp, by simp⟩⟩ ?_
  rintro _ s _ s' _ ⟨tracks, sound⟩ step
  have ⟨tracks', abstract⟩ := step.refines bound tracks sound
  exact ⟨tracks', abstract.sound sound⟩

/-- First fit over any history: `page_alloc` returns the lowest frame that is
neither reserved nor held and NULL exactly in a full bitmap, held frames are
distinct and never frame 0, and giving everything back restores the bitmap. -/
theorem pageAlloc_firstFit (init : Bitmap) (bound : init.wordCount.toNat ≤ 1024)
    (zero : init.testBit 0 = true) (calls : List FrameCall) (bm : Bitmap) (held : List Frame)
    (history : Run.From FrameStep (init, []) calls (bm, held)) :
    held.Nodup ∧ 0#20 ∉ held ∧
    (∀ page page' bm', pageAlloc bm (some page) = .ok (some page', bm') →
      IsLeast {frame | frame < init.size ∧ init.testBit frame = false ∧
        frame ∉ held.map BitVec.toNat} (Entry.address page').toNat) ∧
    (∀ page, (∃ bm', pageAlloc bm (some page) = .ok (none, bm')) ↔
      ∀ word < bm.wordCount.toNat, bm.bits word = BitVec.allOnes 32) ∧
    (held = [] → bm = init) := by
  have ⟨tracks, sound⟩ := history_tracks bound history
  refine ⟨List.Nodup.of_map _ sound.nodup, ?_, ?_, ?_, ?_⟩
  · intro member
    exact (sound.inside 0 (List.mem_map_of_mem (f := BitVec.toNat) member)).2 zero
  · intro page page' bm' returned
    have least := (pageAlloc_some (tracks.wordCount ▸ bound) returned).1
    rw [tracks.clearBits] at least
    simpa only [FirstFit.free, framePool, reservedFrames, Set.mem_ofPred_eq,
      Bool.not_eq_true] using least
  · intro page
    rw [pageAlloc_none_iff (tracks.wordCount ▸ bound), Bitmap.clearBits_eq_empty_iff]
  · rintro rfl
    exact Bitmap.ext_testBit tracks.wordCount tracks.flags (by simp [tracks.bits])

/-- One word with frame 0 reserved. -/
def oneWord : Bitmap := ⟨1#32, fun word => if word = 0 then 1#32 else 0#32, 0#8⟩

/-- After frames 1 and 2 have been handed out and frame 1 has come back, it is next. -/
theorem oneWord_firstFit :
    IsLeast {frame | frame < oneWord.size ∧ oneWord.testBit frame = false ∧
      frame ∉ [2#20].map BitVec.toNat} 1 := by
  have first : FrameStep (oneWord, []) (.alloc 1#20) (oneWord.setBit 1, [1#20]) :=
    @FrameStep.alloc oneWord (oneWord.setBit 1) [] 0#32 0x1000#32 rfl
  have second : FrameStep (oneWord.setBit 1, [1#20]) (.alloc 2#20)
      ((oneWord.setBit 1).setBit 2, [2#20, 1#20]) :=
    @FrameStep.alloc (oneWord.setBit 1) _ [1#20] 0#32 0x2000#32 rfl
  have third : FrameStep ((oneWord.setBit 1).setBit 2, [2#20, 1#20]) (.free 1#20)
      (((oneWord.setBit 1).setBit 2).clearBit 1, [2#20]) :=
    @FrameStep.free _ _ [2#20, 1#20] 0x1000#32 (by decide) rfl
  have run := ((Run.From.single first).snoc _ second).snoc _ third
  have spec := pageAlloc_firstFit oneWord (by decide) (by decide) _ _ _ run
  exact spec.2.2.1 0#32 0x1000#32 ((((oneWord.setBit 1).setBit 2).clearBit 1).setBit 1) rfl

end Treeos
