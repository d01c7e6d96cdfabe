import VnlKernel.Kernel.Multiboot

/-!
# Walking the tags of the boot information

Where the next tag lies is computed from what the last one says of its size. A size of
zero leads back to the same tag, and so does one that rounds up to zero in 32 bits; a tag
that begins inside the block may end outside. Each of the loops therefore has a condition
on the tags it meets, in the order it meets them: what it reads of the tag lies inside the
block, and unless it leaves the loop there, the size brings it forward.
-/

namespace VnlKernel

open ByteMem Bits Logged

/-- `tag->type`. -/
def tagType (m : Mem) (ptr : Nat) : Nat := readLE m ptr 4

/-- `tag->size`. -/
def tagSize (m : Mem) (ptr : Nat) : Nat := readLE m (ptr + 4) 4

/-- What one of the loops asks of a tag at `ptr`, in a block that ends at `stop`. -/
structure TagRule where
  /-- What it reads there lies before `stop`, and it does not divide by zero. -/
  fits : Mem → Nat → Nat → Prop
  /-- It leaves the loop there. -/
  last : Mem → Nat → Prop
  /-- A tag of this size has something behind it. -/
  forward : Nat → Nat → Prop
  /-- Where that is. -/
  next : Nat → Nat → Nat

/-- All is well with the tags from `ptr` on, one after the other. -/
inductive TagsFit (r : TagRule) (m : Mem) (stop : Nat) : Nat → Prop
  | past {ptr : Nat} : stop ≤ ptr → TagsFit r m stop ptr
  | last {ptr : Nat} : ptr < stop → r.fits m stop ptr → r.last m ptr → TagsFit r m stop ptr
  | tag {ptr : Nat} : ptr < stop → r.fits m stop ptr → ¬ r.last m ptr → r.forward ptr (tagSize m ptr) →
      TagsFit r m stop (r.next ptr (tagSize m ptr)) → TagsFit r m stop ptr

/-- The block at `mbInfo` has its size in it, and its tags are as the loop needs them. -/
def BlockFits (r : TagRule) (m : Mem) (mbInfo : Nat) : Prop :=
  4 ≤ readLE m mbInfo 4 ∧ TagsFit r m (mbInfo + readLE m mbInfo 4) (mbInfo + 8)

/-- A read inside the block, or a step forward. -/
def WalkEvent.Good (m : Mem) (mbInfo : Nat) : WalkEvent → Prop
  | .read a n => mbInfo ≤ a ∧ a + n ≤ mbInfo + readLE m mbInfo 4
  | .advance ptr next => ptr < next

/-- The loop ends, it goes forward at every tag, and it reads inside the block only. -/
def WalksBlock {α : Type} (m : Mem) (mbInfo : Nat) (loop : Nat → Logged WalkEvent α) : Prop :=
  ∃ fuel, Fine (WalkEvent.Good m mbInfo) (loop fuel)

/-! ## The rules of the four loops -/

/-- Three of them round the size up, in 32 bits. -/
def sizeForward (_ size : Nat) : Prop := 0 < size ∧ size ≤ 2 ^ 32 - 8

def sizeNext (ptr size : Nat) : Nat := ptr + (size + 7) / 8 * 8

def mmapRule : TagRule where
  fits m stop ptr := ptr + 4 ≤ stop ∧ (tagType m ptr ≠ mb2TagEnd → ptr + 8 ≤ stop
    ∧ (tagType m ptr = mb2TagMmap → ptr + 12 ≤ stop ∧ readLE m (ptr + 8) 4 ≠ 0
      ∧ ∀ i, i < (numEntries (tagSize m ptr) (readLE m (ptr + 8) 4)).toNat → ptr + 36 + 24 * i ≤ stop))
  last m ptr := tagType m ptr = mb2TagEnd
  forward := sizeForward
  next := sizeNext

def memoryRule : TagRule where
  fits m stop ptr := ptr + 4 ≤ stop ∧ (tagType m ptr ≠ mb2TagEnd →
    (tagType m ptr = mb2TagMem → ptr + 16 ≤ stop) ∧ (tagType m ptr ≠ mb2TagMem → ptr + 8 ≤ stop))
  last m ptr := tagType m ptr = mb2TagEnd ∨ tagType m ptr = mb2TagMem
  forward := sizeForward
  next := sizeNext

def fbRule : TagRule where
  fits m stop ptr := ptr + 8 ≤ stop
    ∧ (tagType m ptr = mb2TagFb ∧ mb2TagFbSize ≤ tagSize m ptr → ptr + 30 ≤ stop)
  last m ptr := tagType m ptr = mb2TagEnd ∨ tagType m ptr = mb2TagFb ∧ mb2TagFbSize ≤ tagSize m ptr
  forward := sizeForward
  next := sizeNext

/-- The fourth rounds the address, in 64 bits. -/
def kernelMainRule : TagRule where
  fits m stop ptr := ptr + 4 ≤ stop ∧ (tagType m ptr ≠ mb2TagEnd → ptr + 8 ≤ stop
    ∧ (tagType m ptr = mb2TagFb → ptr + 29 ≤ stop))
  last m ptr := tagType m ptr = mb2TagEnd
  forward ptr size := 0 < size ∨ ptr % 8 ≠ 0
  next ptr size := (ptr + size + 7) / 8 * 8

/-! ## The loop -/

section Loop

variable {m : Mem} {mbInfo stop : Nat} {α : Type}

/-- A loop body does at a tag what the rule says. -/
structure TagsFollow (m : Mem) (mbInfo stop : Nat) (r : TagRule)
    (body : α → Nat → Logged WalkEvent (α × Option Nat)) : Prop where
  fits : ∀ a ptr, mbInfo ≤ ptr → ptr < stop → (Fine (WalkEvent.Good m mbInfo) (body a ptr) ↔ r.fits m stop ptr)
  last : ∀ a ptr x, (body a ptr).out = .done x → r.last m ptr → x.2 = none
  next : ∀ a ptr x, ptr < stop → (body a ptr).out = .done x → ¬ r.last m ptr →
    ∃ q, x.2 = some q ∧ (ptr < q ↔ r.forward ptr (tagSize m ptr))
      ∧ (ptr < q → q = r.next ptr (tagSize m ptr))

variable {r : TagRule} {body : α → Nat → Logged WalkEvent (α × Option Nat)}

theorem TagsFollow.tagsFit (h : TagsFollow m mbInfo stop r body) :
    ∀ (fuel : Nat) (a : α) (ptr : Nat), mbInfo ≤ ptr →
    Fine (WalkEvent.Good m mbInfo) (tagLoop stop body fuel a ptr) → TagsFit r m stop ptr := by
  intro fuel
  induction fuel with
  | zero => exact fun a ptr _ hf => absurd hf not_fine_timeout
  | succ fuel ih =>
      intro a ptr hlow hf
      rw [tagLoop] at hf
      by_cases hstop : ptr < stop
      · rw [if_pos hstop, fine_bind] at hf
        obtain ⟨hbody, hrest⟩ := hf
        have hfits := (h.fits a ptr hlow hstop).mp hbody
        obtain ⟨_, ⟨a', nx⟩, hout⟩ := hbody
        have hgo := hrest _ hout
        by_cases hlast : r.last m ptr
        · exact .last hstop hfits hlast
        · obtain ⟨q, hq, hforward, hnext⟩ := h.next a ptr _ hstop hout hlast
          obtain rfl : nx = some q := hq
          dsimp only at hgo
          rw [fine_bind, fine_note] at hgo
          have hlt : ptr < q := hgo.1
          have htags := ih a' q (by omega) (hgo.2 () rfl)
          rw [hnext hlt] at htags
          exact .tag hstop hfits hlast (hforward.mp hlt) htags
      · exact .past (Nat.le_of_not_lt hstop)

theorem TagsFollow.walks (h : TagsFollow m mbInfo stop r body) {ptr : Nat}
    (ht : TagsFit r m stop ptr) :
    mbInfo ≤ ptr → ∀ a : α, ∃ fuel, Fine (WalkEvent.Good m mbInfo)
    (tagLoop stop body fuel a ptr) := by
  induction ht with
  | past hstop =>
      intro _ a
      refine ⟨1, ?_⟩
      rw [tagLoop, if_neg (by omega)]
      exact fine_pure a
  | @last ptr hstop hfits hlast =>
      intro hlow a
      refine ⟨1, ?_⟩
      rw [tagLoop, if_pos hstop, fine_bind]
      refine ⟨(h.fits a ptr hlow hstop).mpr hfits, fun x hx => ?_⟩
      have hnone := h.last a ptr x hx hlast
      obtain ⟨a', nx⟩ := x
      obtain rfl : nx = none := hnone
      exact fine_pure a'
  | @tag ptr hstop hfits hlast hforward _ ih =>
      intro hlow a
      have hbody := (h.fits a ptr hlow hstop).mpr hfits
      obtain ⟨_, ⟨a', nx⟩, hout⟩ := hbody
      obtain ⟨q, hq, hiff, hnext⟩ := h.next a ptr _ hstop hout hlast
      have hlt := hiff.mpr hforward
      obtain rfl : nx = some q := hq
      rw [← hnext hlt] at ih
      obtain ⟨fuel, hfuel⟩ := ih (by omega) a'
      refine ⟨fuel + 1, ?_⟩
      rw [tagLoop, if_pos hstop, fine_bind]
      refine ⟨(h.fits a ptr hlow hstop).mpr hfits, fun x hx => ?_⟩
      cases hout.symm.trans hx
      dsimp only
      rw [fine_bind, fine_note]
      exact ⟨hlt, fun _ _ => hfuel⟩

/-- **A loop over the block**, whatever it does with the tags. -/
theorem TagsFollow.walksBlock (hmb : mbInfo < 2 ^ 32)
    (h : TagsFollow m mbInfo (mbInfo + readLE m mbInfo 4) r body) (a : α) :
    WalksBlock m mbInfo (fun fuel => walkTags m mbInfo fuel body a) ↔ BlockFits r m mbInfo := by
  have htotal : readLE m mbInfo 4 < 2 ^ 32 := readLE_lt m 4 mbInfo
  have hstart : ∀ fuel, Fine (WalkEvent.Good m mbInfo) (walkTags m mbInfo fuel body a)
      ↔ 4 ≤ readLE m mbInfo 4
        ∧ Fine (WalkEvent.Good m mbInfo)
            (tagLoop (mbInfo + readLE m mbInfo 4) body fuel a (mbInfo + 8)) := by
    intro fuel
    have hread : WalkEvent.Good m mbInfo (.read mbInfo 4) ↔ 4 ≤ readLE m mbInfo 4 :=
      ⟨fun hg => by have := hg.2; omega, fun hg => ⟨Nat.le_refl _, by omega⟩⟩
    unfold walkTags loadLE
    rw [fine_bind, fine_bind, fine_note, hread]
    refine ⟨fun ⟨⟨h4, _⟩, hloop⟩ => ⟨h4, ?_⟩,
      fun ⟨h4, hloop⟩ => ⟨⟨h4, fun _ _ => fine_pure _⟩, fun t ht => ?_⟩⟩
    · have := hloop _ rfl
      rwa [u64_of_lt (by omega), u64_of_lt (by omega)] at this
    · obtain rfl : readLE m mbInfo 4 = t := by simpa using ht
      rwa [u64_of_lt (by omega), u64_of_lt (by omega)]
  constructor
  · intro ⟨fuel, hf⟩
    obtain ⟨h4, hloop⟩ := (hstart fuel).mp hf
    exact ⟨h4, h.tagsFit fuel a _ (by omega) hloop⟩
  · intro ⟨h4, ht⟩
    obtain ⟨fuel, hloop⟩ := h.walks ht (by omega) a
    exact ⟨fuel, (hstart fuel).mpr ⟨h4, hloop⟩⟩

end Loop

/-! ## The bodies -/

section Bodies

variable {m : Mem} {mbInfo stop : Nat} {α : Type}

theorem good_read {ptr a n : Nat} (hstop : stop = mbInfo + readLE m mbInfo 4) (hlow : mbInfo ≤ ptr)
    (ha : ptr ≤ a) :
    WalkEvent.Good m mbInfo (.read a n) ↔ a + n ≤ stop :=
  ⟨fun h => by have := h.2; omega, fun h => ⟨by omega, by omega⟩⟩

theorem fine_loadLE {P : WalkEvent → Prop} {a n : Nat} {f : Nat → Logged WalkEvent α} :
    Fine P (loadLE m a n >>= f) ↔ P (.read a n) ∧ Fine P (f (readLE m a n)) := by
  unfold loadLE
  rw [fine_bind, fine_bind, fine_note]
  constructor
  · intro ⟨⟨h, _⟩, hf⟩
    exact ⟨h, hf _ rfl⟩
  · intro ⟨h, hf⟩
    refine ⟨⟨h, fun _ _ => fine_pure _⟩, fun b hb => ?_⟩
    obtain rfl : readLE m a n = b := by simpa using hb
    exact hf

theorem loadLE_out (m : Mem) (a n : Nat) (f : Nat → Logged WalkEvent α) :
    (loadLE m a n >>= f).out = (f (readLE m a n)).out := by
  rw [bind_out]
  rfl

/-- Rounding a size up in 32 bits. -/
theorem alignUpTag_eq (size : Nat) : alignUpTag size = u32 (size + 7) / 8 * 8 :=
  and_mask_width (k := 3) (w := 32) (Nat.mod_lt _ (by decide)) (by decide)

/-- The step that three of the loops take. -/
theorem sizeStep {ptr size : Nat} (hptr : ptr < 2 ^ 33) (hsize : size < 2 ^ 32) :
    (ptr < u64 (ptr + alignUpTag size) ↔ sizeForward ptr size)
      ∧ (ptr < u64 (ptr + alignUpTag size) → u64 (ptr + alignUpTag size) = sizeNext ptr size) := by
  rw [alignUpTag_eq]
  unfold sizeForward sizeNext u32 u64
  omega

theorem tagSize_lt (m : Mem) (ptr : Nat) : tagSize m ptr < 2 ^ 32 := readLE_lt m 4 _

/-- The entries of a memory map are read one by one. -/
theorem mmapEntries_fine {ptr : Nat} (hstop : stop = mbInfo + readLE m mbInfo 4)
    (hlow : mbInfo ≤ ptr) :
    ∀ (n i : Nat) (p : Pmm), Fine (WalkEvent.Good m mbInfo) (mmapEntries m (ptr + 16) n i p)
      ↔ ∀ j, i ≤ j → j < i + n → ptr + 36 + 24 * j ≤ stop := by
  intro n
  induction n with
  | zero => exact fun i p => ⟨fun _ j h1 h2 => absurd h1 (by omega), fun _ => fine_pure p⟩
  | succ n ih =>
      intro i p
      have hsplit : (∀ j, i ≤ j → j < i + (n + 1) → ptr + 36 + 24 * j ≤ stop)
          ↔ ptr + 36 + 24 * i ≤ stop ∧ ∀ j, i + 1 ≤ j → j < i + 1 + n
              → ptr + 36 + 24 * j ≤ stop := by
        constructor
        · intro h
          exact ⟨h i (Nat.le_refl i) (by omega), fun j h1 h2 => h j (by omega) (by omega)⟩
        · intro ⟨h, hrest⟩ j h1 h2
          by_cases hj : j = i
          · rw [hj]; exact h
          · exact hrest j (by omega) (by omega)
      rw [mmapEntries, fine_loadLE, hsplit, good_read hstop hlow (by omega)]
      by_cases htype : readLE m (ptr + 16 + 24 * i + 16) 4 ≠ 1
      · rw [if_pos htype, fine_loadLE, fine_loadLE, ih, good_read hstop hlow (by omega),
          good_read hstop hlow (by omega)]
        constructor
        · intro ⟨h1, _, _, h4⟩
          exact ⟨by omega, h4⟩
        · intro ⟨h1, h2⟩
          exact ⟨by omega, by omega, by omega, h2⟩
      · rw [if_neg htype, ih]
        constructor
        · intro ⟨h1, h2⟩
          exact ⟨by omega, h2⟩
        · intro ⟨h1, h2⟩
          exact ⟨by omega, h2⟩

/-- Something is done at tags of one type, and then the size is read at all of them. -/
theorem fine_tagged {E α β : Type} {P : E → Prop} {type C D : Prop} [Decidable type]
    {x : Logged E α} {a : α}
    {f : α → Logged E β} (hx : Fine P x ↔ C) (hf : ∀ a, Fine P (f a) ↔ D) :
    Fine P ((if type then x else pure a) >>= f) ↔ D ∧ (type → C) := by
  rw [fine_bind]
  by_cases ht : type
  · rw [if_pos ht, hx]
    constructor
    · intro h
      obtain ⟨_, a, ha⟩ := hx.mpr h.1
      exact ⟨(hf a).mp (h.2 a ha), fun _ => h.1⟩
    · intro h
      exact ⟨h.2 ht, fun a _ => (hf a).mpr h.1⟩
  · rw [if_neg ht]
    constructor
    · intro h
      exact ⟨(hf a).mp (h.2 a rfl), fun hc => absurd hc ht⟩
    · intro h
      exact ⟨fine_pure a, fun a _ => (hf a).mpr h.1⟩

theorem mmapTag_fine {ptr : Nat} (hstop : stop = mbInfo + readLE m mbInfo 4) (hlow : mbInfo ≤ ptr)
    (p : Pmm) :
    Fine (WalkEvent.Good m mbInfo) (mmapTag m p ptr) ↔ ptr + 12 ≤ stop ∧ readLE m (ptr + 8) 4 ≠ 0
      ∧ ∀ i, i < (numEntries (tagSize m ptr) (readLE m (ptr + 8) 4)).toNat
        → ptr + 36 + 24 * i ≤ stop := by
  unfold mmapTag
  rw [fine_loadLE, fine_loadLE, good_read hstop hlow (by omega), good_read hstop hlow (by omega)]
  by_cases h0 : readLE m (ptr + 8) 4 = 0
  · rw [if_pos h0]
    exact ⟨fun h => absurd h.2.2 (not_fine_panic _), fun h => absurd h0 h.2.1⟩
  · rw [if_neg h0, mmapEntries_fine hstop hlow]
    constructor
    · intro ⟨_, h2, h3⟩
      exact ⟨by omega, h0, fun i hi => h3 i (Nat.zero_le i) (by rw [Nat.zero_add]; exact hi)⟩
    · intro ⟨h1, _, h3⟩
      exact ⟨by omega, by omega, fun i _ hi => h3 i (by rw [Nat.zero_add] at hi; exact hi)⟩

variable (hstop : stop = mbInfo + readLE m mbInfo 4) (hbig : stop < 2 ^ 33)
include hstop hbig

theorem mmapBody_follows : TagsFollow m mbInfo stop mmapRule (mmapBody m) where
  fits p ptr hlow _ := by
    unfold mmapBody
    show _ ↔ ptr + 4 ≤ stop ∧ (tagType m ptr ≠ mb2TagEnd → ptr + 8 ≤ stop
      ∧ (tagType m ptr = mb2TagMmap → _))
    rw [fine_loadLE, good_read hstop hlow (by omega)]
    change _ ∧ Fine _ (if tagType m ptr = mb2TagEnd then _ else _) ↔ _
    by_cases hend : tagType m ptr = mb2TagEnd
    · rw [if_pos hend]
      exact ⟨fun h => ⟨h.1, fun hne => absurd hend hne⟩, fun h => ⟨h.1, fine_pure _⟩⟩
    · have hsize : ∀ p', Fine (WalkEvent.Good m mbInfo) (do
          let size ← loadLE m (ptr + 4) 4
          return (p', some (u64 (ptr + alignUpTag size))) : Logged WalkEvent (Pmm × Option Nat))
          ↔ ptr + 8 ≤ stop := fun p' => by
        rw [fine_loadLE, good_read hstop hlow (by omega)]
        exact ⟨fun h => by omega, fun h => ⟨by omega, fine_pure _⟩⟩
      rw [if_neg hend]
      exact and_congr_right fun _ => (fine_tagged (mmapTag_fine hstop hlow p) hsize).trans
        ⟨fun h _ => h, fun h => h hend⟩
  last p ptr x hx hlast := by
    have hend : readLE m ptr 4 = mb2TagEnd := hlast
    rw [mmapBody, loadLE_out, if_pos hend] at hx
    cases hx
    rfl
  next p ptr x hptr hx hlast := by
    have hend : ¬ readLE m ptr 4 = mb2TagEnd := hlast
    rw [mmapBody, loadLE_out, if_neg hend, bind_out] at hx
    obtain ⟨p', _, hx⟩ := Outcome.bind_eq_done hx
    rw [loadLE_out] at hx
    cases hx
    exact ⟨_, rfl, sizeStep (by omega) (tagSize_lt m ptr)⟩

theorem memoryBody_follows : TagsFollow m mbInfo stop memoryRule (memoryBody m) where
  fits kb ptr hlow _ := by
    unfold memoryBody
    show _ ↔ ptr + 4 ≤ stop ∧ (tagType m ptr ≠ mb2TagEnd → _)
    rw [fine_loadLE, good_read hstop hlow (by omega)]
    change _ ∧ Fine _ (if tagType m ptr = mb2TagEnd then _ else _) ↔ _
    by_cases hend : tagType m ptr = mb2TagEnd
    · rw [if_pos hend]
      exact ⟨fun h => ⟨h.1, fun hne => absurd hend hne⟩, fun h => ⟨h.1, fine_pure _⟩⟩
    · rw [if_neg hend]
      change _ ∧ Fine _ (if tagType m ptr = mb2TagMem then _ else _) ↔ _
      by_cases hmem : tagType m ptr = mb2TagMem
      · rw [if_pos hmem, fine_loadLE, good_read hstop hlow (by omega)]
        constructor
        · intro ⟨h1, h2, _⟩
          exact ⟨h1, fun _ => ⟨fun _ => by omega, fun h => absurd hmem h⟩⟩
        · intro ⟨h1, h2⟩
          have := (h2 hend).1 hmem
          exact ⟨h1, by omega, fine_pure _⟩
      · rw [if_neg hmem, fine_loadLE, good_read hstop hlow (by omega)]
        constructor
        · intro ⟨h1, h2, _⟩
          exact ⟨h1, fun _ => ⟨fun h => absurd h hmem, fun _ => by omega⟩⟩
        · intro ⟨h1, h2⟩
          have := (h2 hend).2 hmem
          exact ⟨h1, by omega, fine_pure _⟩
  last kb ptr x hx hlast := by
    have hlast : readLE m ptr 4 = mb2TagEnd ∨ readLE m ptr 4 = mb2TagMem := hlast
    rw [memoryBody, loadLE_out] at hx
    by_cases hend : readLE m ptr 4 = mb2TagEnd
    · rw [if_pos hend] at hx
      cases hx
      rfl
    · rw [if_neg hend, if_pos (hlast.resolve_left hend), loadLE_out] at hx
      cases hx
      rfl
  next kb ptr x hptr hx hlast := by
    have hlast : ¬ (readLE m ptr 4 = mb2TagEnd ∨ readLE m ptr 4 = mb2TagMem) := hlast
    rw [not_or] at hlast
    rw [memoryBody, loadLE_out, if_neg hlast.1, if_neg hlast.2, loadLE_out] at hx
    cases hx
    exact ⟨_, rfl, sizeStep (by omega) (tagSize_lt m ptr)⟩

theorem fbBody_follows : TagsFollow m mbInfo stop fbRule (fbBody m) where
  fits r ptr hlow _ := by
    unfold fbBody
    show _ ↔ ptr + 8 ≤ stop ∧ (_ → ptr + 30 ≤ stop)
    rw [fine_loadLE, fine_loadLE, good_read hstop hlow (by omega), good_read hstop hlow (by omega)]
    change _ ∧ _ ∧ Fine _ (if tagType m ptr = mb2TagEnd then _
      else if tagType m ptr = mb2TagFb ∧ mb2TagFbSize ≤ tagSize m ptr then _ else _) ↔ _
    -- the tag of the frame buffer is read as a whole
    by_cases hfb : tagType m ptr = mb2TagFb ∧ mb2TagFbSize ≤ tagSize m ptr
    · have hend : ¬ tagType m ptr = mb2TagEnd := by
        rw [hfb.1]
        decide
      rw [if_neg hend, if_pos hfb]
      simp only [fine_loadLE]
      rw [good_read hstop hlow (by omega), good_read hstop hlow (by omega),
        good_read hstop hlow (by omega),
        good_read hstop hlow (by omega), good_read hstop hlow (by omega),
          good_read hstop hlow (by omega)]
      constructor
      · intro ⟨h1, h2, h3, h4, h5, h6, h7, h8, _⟩
        exact ⟨by omega, fun _ => by omega⟩
      · intro ⟨h1, h2⟩
        have := h2 hfb
        exact ⟨by omega, by omega, by omega, by omega, by omega, by omega, by omega, by omega, fine_pure _⟩
    · -- of any other tag only the head is read
      have hrest : Fine (WalkEvent.Good m mbInfo) (if tagType m ptr = mb2TagEnd then pure (r, none)
          else if tagType m ptr = mb2TagFb ∧ mb2TagFbSize ≤ tagSize m ptr then
            (do
              let addr ← loadLE m (ptr + 8) 8
              let pitch ← loadLE m (ptr + 16) 4
              let width ← loadLE m (ptr + 20) 4
              let height ← loadLE m (ptr + 24) 4
              let bpp ← loadLE m (ptr + 28) 1
              let fbType ← loadLE m (ptr + 29) 1
              return ((width > 0 && height > 0 && pitch > 0 && addr ≠ 0,
                ⟨addr, pitch, width, height, bpp, fbType⟩), none))
          else pure (r, some (u64 (ptr + alignUpTag (tagSize m ptr)))) :
            Logged WalkEvent ((Bool × FBInfo) × Option Nat)) := by
        by_cases hend : tagType m ptr = mb2TagEnd
        · rw [if_pos hend]
          exact fine_pure _
        · rw [if_neg hend, if_neg hfb]
          exact fine_pure _
      exact ⟨fun h => ⟨by omega, fun h => absurd h hfb⟩, fun h => ⟨by omega, by omega, hrest⟩⟩
  last r ptr x hx hlast := by
    have hlast : readLE m ptr 4 = mb2TagEnd
        ∨ readLE m ptr 4 = mb2TagFb ∧ mb2TagFbSize ≤ readLE m (ptr + 4) 4 := hlast
    rw [fbBody, loadLE_out, loadLE_out] at hx
    by_cases hend : readLE m ptr 4 = mb2TagEnd
    · rw [if_pos hend] at hx
      cases hx
      rfl
    · rw [if_neg hend, if_pos (hlast.resolve_left hend)] at hx
      simp only [loadLE_out] at hx
      cases hx
      rfl
  next r ptr x hptr hx hlast := by
    have hlast : ¬ (readLE m ptr 4 = mb2TagEnd
        ∨ readLE m ptr 4 = mb2TagFb ∧ mb2TagFbSize ≤ readLE m (ptr + 4) 4) := hlast
    rw [not_or] at hlast
    rw [fbBody, loadLE_out, loadLE_out, if_neg hlast.1, if_neg hlast.2] at hx
    cases hx
    exact ⟨_, rfl, sizeStep (by omega) (tagSize_lt m ptr)⟩

omit hbig in
theorem kernelMainFb_fine {ptr : Nat} (hlow : mbInfo ≤ ptr) :
    Fine (WalkEvent.Good m mbInfo) (kernelMainFb m ptr) ↔ ptr + 29 ≤ stop := by
  unfold kernelMainFb
  simp only [fine_loadLE]
  rw [good_read hstop hlow (by omega), good_read hstop hlow (by omega),
    good_read hstop hlow (by omega),
    good_read hstop hlow (by omega), good_read hstop hlow (by omega)]
  constructor
  · intro ⟨_, _, _, _, h5, _⟩
    omega
  · intro h
    exact ⟨by omega, by omega, by omega, by omega, by omega, fine_pure _⟩

theorem kernelMainBody_follows : TagsFollow m mbInfo stop kernelMainRule (kernelMainBody m) where
  fits v ptr hlow _ := by
    unfold kernelMainBody
    show _ ↔ ptr + 4 ≤ stop ∧ (tagType m ptr ≠ mb2TagEnd → ptr + 8 ≤ stop
      ∧ (tagType m ptr = mb2TagFb → _))
    rw [fine_loadLE, good_read hstop hlow (by omega)]
    change _ ∧ Fine _ (if tagType m ptr = mb2TagEnd then _ else _) ↔ _
    by_cases hend : tagType m ptr = mb2TagEnd
    · rw [if_pos hend]
      exact ⟨fun h => ⟨h.1, fun hne => absurd hend hne⟩, fun h => ⟨h.1, fine_pure _⟩⟩
    · have hsize : ∀ v', Fine (WalkEvent.Good m mbInfo) (do
          let size ← loadLE m (ptr + 4) 4
          return (v', some (u64 (ptr + size + 7) &&& (2 ^ 64 - 8))) :
            Logged WalkEvent (FbVars × Option Nat))
          ↔ ptr + 8 ≤ stop := fun v' => by
        rw [fine_loadLE, good_read hstop hlow (by omega)]
        exact ⟨fun h => by omega, fun h => ⟨by omega, fine_pure _⟩⟩
      rw [if_neg hend]
      exact and_congr_right fun _ => (fine_tagged (kernelMainFb_fine hstop hlow) hsize).trans
        ⟨fun h _ => h, fun h => h hend⟩
  last v ptr x hx hlast := by
    have hend : readLE m ptr 4 = mb2TagEnd := hlast
    rw [kernelMainBody, loadLE_out, if_pos hend] at hx
    cases hx
    rfl
  next v ptr x hptr hx hlast := by
    have hend : ¬ readLE m ptr 4 = mb2TagEnd := hlast
    rw [kernelMainBody, loadLE_out, if_neg hend, bind_out] at hx
    obtain ⟨v', _, hx⟩ := Outcome.bind_eq_done hx
    rw [loadLE_out] at hx
    cases hx
    have hsize := tagSize_lt m ptr
    have hround : u64 (ptr + tagSize m ptr + 7) &&& (2 ^ 64 - 8)
        = (ptr + tagSize m ptr + 7) / 8 * 8 := by
      rw [u64_of_lt (by omega)]
      exact and_mask (k := 3) (by omega) (by decide)
    refine ⟨(ptr + tagSize m ptr + 7) / 8 * 8, congrArg some hround, ?_, fun _ => rfl⟩
    show _ ↔ 0 < tagSize m ptr ∨ ptr % 8 ≠ 0
    omega

end Bodies

/-- **The tag walks.** Each of the four loops ends, goes forward at every tag and stays inside the
block if and only if the block is as that loop needs it. The boot code passes a 32-bit address. -/
theorem tag_walks_iff {m : Mem} {mbInfo : Nat} (hmb : mbInfo < 2 ^ 32) (p : Pmm) (info : FBInfo) (v : FbVars) :
    (WalksBlock m mbInfo (fun fuel => parseMb2Mmap m fuel p mbInfo) ↔ BlockFits mmapRule m mbInfo)
      ∧ (WalksBlock m mbInfo (fun fuel => parseMb2Memory m fuel mbInfo) ↔ BlockFits memoryRule m mbInfo)
      ∧ (WalksBlock m mbInfo (fun fuel => parseFbTag m fuel mbInfo info) ↔ BlockFits fbRule m mbInfo)
      ∧ (WalksBlock m mbInfo (fun fuel => kernelMainTags m fuel mbInfo v) ↔ BlockFits kernelMainRule m mbInfo) := by
  have htotal : readLE m mbInfo 4 < 2 ^ 32 := readLE_lt m 4 mbInfo
  have hbig : mbInfo + readLE m mbInfo 4 < 2 ^ 33 := by omega
  exact ⟨(mmapBody_follows rfl hbig).walksBlock hmb p,
    (memoryBody_follows rfl hbig).walksBlock hmb _,
    (fbBody_follows rfl hbig).walksBlock hmb _, (kernelMainBody_follows rfl hbig).walksBlock hmb v⟩

/-- A block of 48 bytes: the name of the loader, in a tag of 13 bytes, then memory of 127 MiB above
the first one, and the end. -/
def memoryBlock : Mem :=
  let m := writeLE (writeLE (writeLE (fun _ => 0) 0x9000 4 48) 0x9008 4 2) 0x900c 4 13
  let m := writeLE (writeLE (writeLE m 0x9010 4 0x42555247) 0x9018 4 4) 0x901c 4 16
  writeLE (writeLE m 0x9024 4 0x1fc00) 0x902c 4 8

/-- The memory tag is found behind the other one. -/
theorem tag_walks_iff_memory : WalksBlock memoryBlock 0x9000 (fun fuel => parseMb2Memory memoryBlock fuel 0x9000) := by
  refine (tag_walks_iff (by decide) (pmmInit 0) ⟨0, 0, 0, 0, 0, 0⟩ ⟨0, 0, 0, 0, 0⟩).2.1.mpr
    ⟨by decide, ?_⟩
  have htype : tagType memoryBlock 0x9008 = 2 := by decide
  have htype' : tagType memoryBlock 0x9018 = 4 := by decide
  have htotal : readLE memoryBlock 0x9000 4 = 48 := by decide
  have hsize : tagSize memoryBlock 0x9008 = 13 := by decide
  rw [htotal]
  refine .tag (by decide) ⟨by decide, fun _ => ⟨fun h => ?_, fun _ => by decide⟩⟩ ?_ ?_ ?_
  · exact absurd (htype.symm.trans h) (by decide)
  · intro h
    rcases h with h | h
    · exact absurd (htype.symm.trans h) (by decide)
    · exact absurd (htype.symm.trans h) (by decide)
  · rw [hsize]
    show sizeForward 0x9008 13
    exact ⟨by decide, by decide⟩
  · rw [hsize]
    show TagsFit memoryRule memoryBlock _ 0x9018
    exact .last (by decide) ⟨by decide, fun _ => ⟨fun _ => by decide, fun hne => absurd htype' hne⟩⟩
      (Or.inr htype')

/-- A block of 24 bytes whose one tag has no size. -/
def stuckBlock : Mem := writeLE (writeLE (fun _ => 0) 0x9000 4 24) 0x9008 4 1

/-- **A tag of size zero**: the loops come back to it for ever. -/
theorem tag_walks_stuck : ¬ ∀ (m : Mem) (mbInfo : Nat), mbInfo < 2 ^ 32 →
    WalksBlock m mbInfo (fun fuel => parseMb2Memory m fuel mbInfo) := by
  intro hall
  have hbig : 0x9000 + readLE stuckBlock 0x9000 4 < 2 ^ 33 := by decide
  have hfits := ((memoryBody_follows rfl hbig).walksBlock (by decide) _).mp
    (hall stuckBlock 0x9000 (by decide))
  have htype : tagType stuckBlock 0x9008 = 1 := by decide
  have hsize : tagSize stuckBlock 0x9008 = 0 := by decide
  have hstop : 0x9000 + readLE stuckBlock 0x9000 4 = 0x9018 := by decide
  cases hfits.2 with
  | past h => omega
  | last _ _ h =>
      rcases h with h | h
      · exact absurd (htype.symm.trans h) (by decide)
      · exact absurd (htype.symm.trans h) (by decide)
  | tag _ _ _ h _ => exact absurd (hsize ▸ h.1) (by decide)

end VnlKernel
