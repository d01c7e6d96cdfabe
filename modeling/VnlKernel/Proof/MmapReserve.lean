import VnlKernel.Proof.MultibootWalk
import VnlKernel.Proof.PmmRun

/-!
# Which frames the memory map takes

`pmm_reserve` sets bits only, so what `parse_mb2_mmap` makes of the bitmap is the union of what
it makes of each record. But it counts the records by the size the tag gives for them, and looks
for them 24 bytes apart. Where the two agree a record is rounded outwards to whole frames, in 64
bits: the end of a record in the last page rounds up to zero, and nothing is reserved; an empty
record inside a frame still takes that frame.
-/

namespace VnlKernel

open ByteMem Bits Logged

/-- The tags from `ptr` on, up to the one that ends them. -/
inductive TagChain (m : Mem) (stop : Nat) : Nat → List Nat → Prop
  | last {ptr : Nat} : ptr + 8 ≤ stop → tagType m ptr = mb2TagEnd → TagChain m stop ptr []
  | tag {ptr : Nat} {tags : List Nat} : tagType m ptr ≠ mb2TagEnd → 8 ≤ tagSize m ptr → ptr + tagSize m ptr ≤ stop →
      TagChain m stop (sizeNext ptr (tagSize m ptr)) tags → TagChain m stop ptr (ptr :: tags)

/-- `mmap->entry_size`. -/
def entrySizeOf (m : Mem) (tag : Nat) : Nat := readLE m (tag + 8) 4

/-- How many entries the tag has. -/
def entryCount (m : Mem) (tag : Nat) : Nat := (tagSize m tag - 16) / entrySizeOf m tag

/-- A well-formed memory map. -/
structure MmapTagOk (m : Mem) (tag : Nat) : Prop where
  size : 16 ≤ tagSize m tag
  entry : 24 ≤ entrySizeOf m tag
  aligned : entrySizeOf m tag % 8 = 0
  noWrap : ∀ i, i < entryCount m tag → readLE m (tag + 16 + entrySizeOf m tag * i) 8
    + readLE m (tag + 16 + entrySizeOf m tag * i + 8) 8 < 2 ^ 64

/-- The frame `f` has a byte in common with the range. -/
def Meets (base len f : Nat) : Prop :=
  ∃ a, f * pageSize ≤ a ∧ a < f * pageSize + pageSize ∧ base ≤ a ∧ a < base + len

/-- What `pmm_reserve` makes of a range. -/
def RoundsTo (base len f : Nat) : Prop := base / pageSize ≤ f ∧ f < alignUpPage (u64 (base + len)) / pageSize

/-- There is a record at `a` of memory that is not usable, and it has to do with the frame `f`. -/
def RecordHas (reach : Nat → Nat → Nat → Prop) (m : Mem) (f a : Nat) : Prop :=
  readLE m (a + 16) 4 ≠ 1 ∧ reach (readLE m a 8) (readLE m (a + 8) 8) f

/-- One of the records of a memory map, taken to lie `stride` bytes apart. -/
def MapHas (reach : Nat → Nat → Nat → Prop) (stride : Nat) (m : Mem) (f tag : Nat) : Prop :=
  ∃ i, i < entryCount m tag ∧ RecordHas reach m f (tag + 16 + stride * i)

/-- The frame overlaps an entry that is not usable. -/
def UnusableFrame (m : Mem) (tags : List Nat) (f : Nat) : Prop :=
  ∃ tag ∈ tags, tagType m tag = mb2TagMmap ∧ MapHas Meets (entrySizeOf m tag) m f tag

/-- The frame is in what the loop reads and rounds. -/
def LoopFrame (m : Mem) (tags : List Nat) (f : Nat) : Prop :=
  ∃ tag ∈ tags, tagType m tag = mb2TagMmap ∧ MapHas RoundsTo 24 m f tag

/-- **All unusable memory is reserved**, and besides it only what lies below 1 MiB. -/
def ReservesUnusable (m : Mem) (mbInfo memUpperKb : Nat) (tags : List Nat) : Prop :=
  ∀ fuel, tags.length < fuel → ∃ p, (parseMb2Mmap m fuel (pmmInit memUpperKb) mbInfo).out = .done p
    ∧ ∀ f, f < p.totalFrames → (p.bmTest f = true ↔ f < 256 ∨ UnusableFrame m tags f)

/-! ## The bitmap -/

/-- `p'` is `p` with the frames of a set taken, as far as there are any. -/
structure TakesFrames (frames : Nat → Prop) (p p' : Pmm) : Prop where
  total : p'.totalFrames = p.totalFrames
  bits : ∀ f, p'.bmTest f = true ↔ p.bmTest f = true ∨ f < p.totalFrames ∧ frames f

theorem TakesFrames.none {frames : Nat → Prop} (p : Pmm) (h : ∀ f, ¬ frames f) :
    TakesFrames frames p p where
  total := rfl
  bits f := ⟨.inl, fun hf => hf.resolve_right fun hf => h f hf.2⟩

theorem TakesFrames.congr {s t : Nat → Prop} {p q : Pmm} (h : TakesFrames s p q)
    (hs : ∀ f, t f ↔ s f) : TakesFrames t p q where
  total := h.total
  bits f := by rw [h.bits, hs]

theorem TakesFrames.trans {s t u : Nat → Prop} {p q r : Pmm} (h₁ : TakesFrames s p q)
    (h₂ : TakesFrames t q r)
    (hu : ∀ f, u f ↔ s f ∨ t f) : TakesFrames u p r where
  total := h₂.total.trans h₁.total
  bits f := by
    rw [h₂.bits, h₁.bits, h₁.total, hu, or_assoc, ← and_or_left]

theorem bmTest_freeFrom {g : Nat} : ∀ {n f : Nat} {p : Pmm},
    (freeFrom p n f).bmTest g = true ↔ p.bmTest g = true ∧ ¬ (f ≤ g ∧ g < f + n)
  | 0, f, p => ⟨fun h => ⟨h, by omega⟩, fun h => h.1⟩
  | n + 1, f, p => by
      rw [freeFrom, bmTest_freeFrom, bmTest_markFree, Bool.and_eq_true, Bool.not_eq_true',
        decide_eq_false_iff_not]
      constructor
      · intro hall
        obtain ⟨⟨h, hne⟩, hno⟩ := hall
        exact ⟨h, by omega⟩
      · intro hall
        obtain ⟨h, hno⟩ := hall
        exact ⟨⟨h, by omega⟩, by omega⟩

/-- After `pmm_init` the frames below 1 MiB are in use. -/
theorem bmTest_pmmInit {kb f : Nat} (hf : f < (pmmInit kb).totalFrames) : (pmmInit kb).bmTest f
    = true ↔ f < 256 := by
  have hfirst : alignUpPage 0x100000 / pageSize = 256 := by decide
  have htotal : ∀ (n f : Nat) (p : Pmm), (freeFrom p n f).totalFrames = p.totalFrames := by
    intro n
    induction n with
    | zero => exact fun _ _ => rfl
    | succ n ih => exact fun f p => ih (f + 1) (p.markFree f)
  unfold pmmInit at hf ⊢
  dsimp only at hf ⊢
  rw [htotal] at hf
  dsimp only at hf
  have hset : Bitmap.test (fun _ => (0xFF : UInt8)) f = true := Bitmap.test_of_full rfl
  rw [bmTest_freeFrom, hfirst]
  constructor
  · intro ⟨_, hno⟩
    omega
  · intro hlow
    exact ⟨hset, by omega⟩

theorem reserveFrom_takes : ∀ {n f : Nat} {p : Pmm},
    TakesFrames (fun g => f ≤ g ∧ g < f + n) p (reserveFrom p n f)
  | 0, f, p => .none p fun g h => by omega
  | n + 1, f, p => by
      rw [reserveFrom]
      by_cases hf : f < p.totalFrames
      · rw [if_pos hf]
        have hone : TakesFrames (fun g => f = g) p (if !p.bmTest f then p.markUsed f else p) := by
          cases hb : p.bmTest f with
          | true =>
              refine ⟨rfl, fun g => ⟨.inl, fun h => ?_⟩⟩
              rcases h with h | ⟨_, rfl⟩
              · exact h
              · exact hb
          | false =>
              refine ⟨rfl, fun g => ?_⟩
              rw [Bool.not_false, if_pos rfl, bmTest_markUsed, Bool.or_eq_true, decide_eq_true_eq]
              refine or_congr_right ⟨fun h => ⟨h ▸ hf, h⟩, fun h => h.2⟩
        exact hone.trans reserveFrom_takes fun g => by omega
      · rw [if_neg hf]
        exact ⟨rfl, fun g => ⟨.inl, fun h => h.resolve_right fun h => by omega⟩⟩

theorem pmmReserve_takes (p : Pmm) {base len : Nat} (hbase : base < 2 ^ 64) :
    TakesFrames (RoundsTo base len) p (pmmReserve p base len) := by
  have hdown : alignDown base pageSize / pageSize = base / pageSize := by
    have h : alignDown base pageSize = base / 2 ^ 12 * 2 ^ 12 :=
      alignDown_pow (k := 12) hbase (by decide)
    rw [h]
    exact Nat.mul_div_cancel _ (by decide)
  have htakes := @reserveFrom_takes (alignUpPage (u64 (base + len)) / pageSize - base / pageSize)
    (base / pageSize) p
  unfold pmmReserve
  dsimp only
  rw [hdown]
  refine ⟨htakes.total, fun f => ?_⟩
  rw [htakes.bits, RoundsTo]
  refine or_congr_right (and_congr_right fun _ => ?_)
  omega

/-! ## The loops -/

section Loops

variable {m : Mem}

theorem mmapEntries_takes (m : Mem) (entries : Nat) : ∀ (n i : Nat) (p : Pmm), ∃ p',
    (mmapEntries m entries n i p).out = .done p'
      ∧ TakesFrames (fun f => ∃ j, i ≤ j ∧ j < i + n
        ∧ RecordHas RoundsTo m f (entries + 24 * j)) p p' := by
  intro n
  induction n with
  | zero => exact fun i p => ⟨p, rfl, .none p fun f ⟨j, h1, h2, _⟩ => by omega⟩
  | succ n ih =>
      intro i p
      -- the records from `i` on are the one at `i` and the others
      have hsplit : ∀ f, (∃ j, i ≤ j ∧ j < i + (n + 1) ∧ RecordHas RoundsTo m f (entries + 24 * j))
          ↔ RecordHas RoundsTo m f (entries + 24 * i)
            ∨ ∃ j, i + 1 ≤ j ∧ j < i + 1 + n ∧ RecordHas RoundsTo m f (entries + 24 * j) := by
        intro f
        constructor
        · intro ⟨j, h1, h2, hj⟩
          by_cases he : j = i
          · exact .inl (he ▸ hj)
          · exact .inr ⟨j, by omega, by omega, hj⟩
        · intro h
          rcases h with h | ⟨j, h1, h2, hj⟩
          · exact ⟨i, Nat.le_refl i, by omega, h⟩
          · exact ⟨j, by omega, by omega, hj⟩
      rw [mmapEntries, loadLE_out]
      by_cases htype : readLE m (entries + 24 * i + 16) 4 ≠ 1
      · obtain ⟨p', hout, htakes⟩ := ih (i + 1)
          (pmmReserve p (readLE m (entries + 24 * i) 8) (readLE m (entries + 24 * i + 8) 8))
        rw [if_pos htype, loadLE_out, loadLE_out]
        refine ⟨p', hout, ((pmmReserve_takes p (readLE_lt m 8 _)).trans htakes fun f => ?_)⟩
        rw [hsplit, RecordHas, and_iff_right htype]
      · obtain ⟨p', hout, htakes⟩ := ih (i + 1) p
        rw [if_neg htype]
        refine ⟨p', hout, htakes.congr fun f => ?_⟩
        rw [hsplit, RecordHas]
        exact ⟨fun h => h.resolve_left fun h => htype h.1, .inr⟩

theorem numEntries_eq {tag : Nat} (h : MmapTagOk m tag) :
    (numEntries (tagSize m tag) (entrySizeOf m tag)).toNat = entryCount m tag := by
  have hlt := tagSize_lt m tag
  have hsize := h.size
  have hentry := h.entry
  have hcount : (tagSize m tag - 16) / entrySizeOf m tag < 2 ^ 31 := by
    refine Nat.lt_of_le_of_lt (Nat.div_le_div_left (b := entrySizeOf m tag)
      (c := 24) hentry (by decide)) ?_
    omega
  have hsub : u32 (tagSize m tag + (2 ^ 32 - 16)) = tagSize m tag - 16 := by
    unfold u32
    omega
  rw [numEntries, hsub, toInt32_of_lt hcount]
  rfl

theorem mmapTag_takes {tag : Nat} (h : MmapTagOk m tag) (p : Pmm) :
    ∃ p', (mmapTag m p tag).out = .done p'
    ∧ TakesFrames (fun f => MapHas RoundsTo 24 m f tag) p p' := by
  have hentry := h.entry
  have hne : ¬ readLE m (tag + 8) 4 = 0 := fun h0 => by
    rw [entrySizeOf, h0] at hentry
    omega
  obtain ⟨p', hout, htakes⟩ := mmapEntries_takes m (tag + 16) (entryCount m tag) 0 p
  rw [mmapTag, loadLE_out, loadLE_out, if_neg hne]
  refine ⟨p', ?_, htakes.congr fun f => exists_congr fun i => ?_⟩
  · rw [← hout, ← numEntries_eq h]
    rfl
  · rw [Nat.zero_add, and_iff_right (Nat.zero_le i)]

/-- What a tag adds, of whatever type. -/
def TagHas (m : Mem) (f tag : Nat) : Prop := tagType m tag = mb2TagMmap ∧ MapHas RoundsTo 24 m f tag

theorem mmapBody_takes {tag : Nat} (hend : tagType m tag ≠ mb2TagEnd)
    (h : tagType m tag = mb2TagMmap → MmapTagOk m tag) (p : Pmm) : ∃ p',
    (mmapBody m p tag).out = .done (p', some (u64 (tag + alignUpTag (tagSize m tag))))
      ∧ TakesFrames (fun f => TagHas m f tag) p p' := by
  have hend' : ¬ readLE m tag 4 = mb2TagEnd := hend
  rw [mmapBody, loadLE_out, if_neg hend', bind_out]
  by_cases hmap : tagType m tag = mb2TagMmap
  · obtain ⟨p', hout, htakes⟩ := mmapTag_takes (h hmap) p
    have hif : (if readLE m tag 4 = mb2TagMmap then mmapTag m p tag else pure p).out
        = .done p' := by
      rw [if_pos (show readLE m tag 4 = mb2TagMmap from hmap), hout]
    rw [hif, Outcome.bind_done, loadLE_out]
    exact ⟨p', rfl, htakes.congr fun f => and_iff_right hmap⟩
  · have hif : (if readLE m tag 4 = mb2TagMmap then mmapTag m p tag else pure p).out = .done p := by
      rw [if_neg (show ¬ readLE m tag 4 = mb2TagMmap from hmap)]
      rfl
    rw [hif, Outcome.bind_done, loadLE_out]
    exact ⟨p, rfl, .none p fun f hf => hmap hf.1⟩

/-- **A run of the loop over the tags.** -/
theorem tagLoop_takes {mbInfo stop ptr : Nat} {tags : List Nat} (h : TagChain m stop ptr tags) :
    ∀ {fuel : Nat} (p : Pmm), stop = mbInfo + readLE m mbInfo 4 → mbInfo < 2 ^ 32
      → mbInfo + 8 ≤ ptr →
    tags.length < fuel → (∀ tag ∈ tags, tagType m tag = mb2TagMmap → MmapTagOk m tag) →
    ∃ p', (tagLoop stop (mmapBody m) fuel p ptr).out = .done p'
      ∧ TakesFrames (LoopFrame m tags) p p' := by
  have htotal : readLE m mbInfo 4 < 2 ^ 32 := readLE_lt m 4 mbInfo
  induction h with
  | @last ptr hptr hend =>
      intro fuel p _ _ _ hf _
      obtain ⟨fuel, rfl⟩ : ∃ k, fuel = k + 1 := ⟨fuel - 1, by omega⟩
      have hout : (mmapBody m p ptr).out = .done (p, none) := by
        rw [mmapBody, loadLE_out, if_pos (show readLE m ptr 4 = mb2TagEnd from hend)]
        rfl
      rw [tagLoop, if_pos (by omega), bind_out, hout, Outcome.bind_done]
      refine ⟨p, rfl, .none p fun f hf => ?_⟩
      obtain ⟨tag, hmem, _⟩ := hf
      exact absurd hmem List.not_mem_nil
  | @tag ptr tags hend hsize hfit _ ih =>
      intro fuel p hstop hmb hlow hf hok
      rw [List.length_cons] at hf
      obtain ⟨fuel, rfl⟩ : ∃ k, fuel = k + 1 := ⟨fuel - 1, by omega⟩
      obtain ⟨q, hout, hone⟩ := mmapBody_takes hend (hok ptr (List.mem_cons_self ..)) p
      have hforward := @sizeStep ptr _ (by omega) (tagSize_lt m ptr)
      have hlt : ptr < u64 (ptr + alignUpTag (tagSize m ptr)) := hforward.1.mpr ⟨by omega, by omega⟩
      rw [hforward.2 hlt] at hout
      have hnext : mbInfo + 8 ≤ sizeNext ptr (tagSize m ptr) := by
        rw [sizeNext]
        omega
      obtain ⟨p', hrun, hrest⟩ := ih q hstop hmb hnext
        (show tags.length < fuel by omega) fun tag ht => hok tag (List.mem_cons_of_mem _ ht)
      rw [tagLoop, if_pos (by omega), bind_out, hout, Outcome.bind_done]
      dsimp only
      rw [bind_out]
      refine ⟨p', hrun, hone.trans hrest fun f => ?_⟩
      constructor
      · intro hloop
        obtain ⟨tag, hmem, hhas⟩ := hloop
        rcases List.mem_cons.mp hmem with rfl | hmem
        · exact .inl hhas
        · exact .inr ⟨tag, hmem, hhas⟩
      · intro hhas
        rcases hhas with hhas | ⟨tag, hmem, hhas⟩
        · exact ⟨ptr, List.mem_cons_self .., hhas⟩
        · exact ⟨tag, List.mem_cons_of_mem _ hmem, hhas⟩

end Loops

/-! ## The whole map -/

/-- The bitmap afterwards. -/
theorem parseMb2Mmap_takes {m : Mem} {mbInfo fuel : Nat} {tags : List Nat} (p : Pmm)
    (hmb : mbInfo < 2 ^ 32)
    (hchain : TagChain m (mbInfo + readLE m mbInfo 4) (mbInfo + 8) tags)
    (hok : ∀ tag ∈ tags, tagType m tag = mb2TagMmap → MmapTagOk m tag) (hf : tags.length < fuel) :
    ∃ p', (parseMb2Mmap m fuel p mbInfo).out = .done p' ∧ TakesFrames (LoopFrame m tags) p p' := by
  have htotal : readLE m mbInfo 4 < 2 ^ 32 := readLE_lt m 4 mbInfo
  obtain ⟨p', hout, htakes⟩ := tagLoop_takes hchain p rfl hmb (Nat.le_refl _) hf hok
  rw [parseMb2Mmap, walkTags, loadLE_out, u64_of_lt (by omega), u64_of_lt (by omega)]
  exact ⟨p', hout, htakes⟩

theorem reservesUnusable_iff {m : Mem} {mbInfo : Nat} {tags : List Nat} (memUpperKb : Nat)
    (hmb : mbInfo < 2 ^ 32)
    (hchain : TagChain m (mbInfo + readLE m mbInfo 4) (mbInfo + 8) tags)
    (hok : ∀ tag ∈ tags, tagType m tag = mb2TagMmap → MmapTagOk m tag) :
    ReservesUnusable m mbInfo memUpperKb tags
      ↔ ∀ f, 256 ≤ f → f < (pmmInit memUpperKb).totalFrames
        → (LoopFrame m tags f ↔ UnusableFrame m tags f) := by
  constructor
  · intro h f hlow hf
    obtain ⟨p, hout, hbits⟩ := h (tags.length + 1) (Nat.lt_succ_self _)
    obtain ⟨p', hout', htakes⟩ := parseMb2Mmap_takes (pmmInit memUpperKb) hmb hchain hok
      (Nat.lt_succ_self _)
    cases hout.symm.trans hout'
    have hiff := hbits f (by rw [htakes.total]; exact hf)
    rw [htakes.bits, bmTest_pmmInit hf, and_iff_right hf, or_iff_right (by omega),
      or_iff_right (by omega)] at hiff
    exact hiff
  · intro h fuel hfuel
    obtain ⟨p, hout, htakes⟩ := parseMb2Mmap_takes (pmmInit memUpperKb) hmb hchain hok hfuel
    refine ⟨p, hout, fun f hf => ?_⟩
    rw [htakes.total] at hf
    rw [htakes.bits, bmTest_pmmInit hf, and_iff_right hf]
    by_cases hlow : f < 256
    · exact iff_of_true (.inl hlow) (.inl hlow)
    · exact or_congr_right (h f (by omega) hf)

/-- A range is rounded to the frames it meets, unless its end is in the last page or it is empty. -/
theorem roundsTo_iff_meets {base len f : Nat} (hend : base + len + 4095 < 2 ^ 64)
    (hlen : 0 < len ∨ base % pageSize = 0) :
    RoundsTo base len f ↔ Meets base len f := by
  have hps : pageSize = 4096 := rfl
  obtain ⟨hup, hlt, k, hk⟩ := alignUpPage_spec (v := base + len) hend
  rw [RoundsTo, Meets, u64_of_lt (by omega), hk, hps, Nat.mul_div_cancel_left k (by decide)]
  rw [hk] at hup hlt
  rw [hps] at hlen
  constructor
  · intro ⟨h1, h2⟩
    by_cases hb : base ≤ f * 4096
    · exact ⟨f * 4096, by omega, by omega, hb, by omega⟩
    · exact ⟨base, by omega, by omega, Nat.le_refl _, by omega⟩
  · intro ⟨a, h1, h2, h3, h4⟩
    omega

/-- A memory map whose entries have the size of the records, where none that is not usable ends in
the last page or is empty inside a frame. -/
structure MmapTagPlain (m : Mem) (tag : Nat) : Prop where
  entry : entrySizeOf m tag = 24
  rounds : ∀ i, i < entryCount m tag → readLE m (tag + 16 + 24 * i + 16) 4 ≠ 1 →
    readLE m (tag + 16 + 24 * i) 8 + readLE m (tag + 16 + 24 * i + 8) 8 + 4095 < 2 ^ 64
      ∧ (0 < readLE m (tag + 16 + 24 * i + 8) 8 ∨ readLE m (tag + 16 + 24 * i) 8 % pageSize = 0)

theorem loopFrame_iff {m : Mem} {tags : List Nat}
    (h : ∀ tag ∈ tags, tagType m tag = mb2TagMmap → MmapTagPlain m tag)
    (f : Nat) : LoopFrame m tags f ↔ UnusableFrame m tags f := by
  refine exists_congr fun tag => and_congr_right fun hmem => and_congr_right fun hmap => ?_
  have hplain := h tag hmem hmap
  rw [MapHas, MapHas, hplain.entry]
  refine exists_congr fun i => and_congr_right fun hi => and_congr_right fun htype => ?_
  obtain ⟨hend, hlen⟩ := hplain.rounds i hi htype
  exact roundsTo_iff_meets hend hlen

/-- **All unusable memory is reserved, and no other above 1 MiB, exactly if** what lies 24 bytes
apart in the memory maps rounds to the same frames as the entries meet; so it is where the entries
are 24 bytes apart and none of them ends in the last page or is empty. -/
theorem unusable_reserved_iff {m : Mem} {mbInfo : Nat} {tags : List Nat} (memUpperKb : Nat) (hmb : mbInfo < 2 ^ 32)
    (hchain : TagChain m (mbInfo + readLE m mbInfo 4) (mbInfo + 8) tags)
    (hok : ∀ tag ∈ tags, tagType m tag = mb2TagMmap → MmapTagOk m tag) :
    (ReservesUnusable m mbInfo memUpperKb tags
      ↔ ∀ f, 256 ≤ f → f < (pmmInit memUpperKb).totalFrames → (LoopFrame m tags f ↔ UnusableFrame m tags f))
    ∧ ((∀ tag ∈ tags, tagType m tag = mb2TagMmap → MmapTagPlain m tag) →
      ReservesUnusable m mbInfo memUpperKb tags) := by
  have hiff := reservesUnusable_iff memUpperKb hmb hchain hok
  exact ⟨hiff, fun hplain => hiff.mpr fun f _ _ => loopFrame_iff hplain f⟩

/-- A block with one memory map of two entries, the second one reserved at 1 MiB: `entrySize` bytes
apart. -/
def mmapBlock (entrySize : Nat) : Mem :=
  writeLE (writeLE (writeLE (writeLE (writeLE (writeLE (writeLE (writeLE (writeLE (writeLE (fun _ => 0)
    0x9000 4 (8 + (16 + 2 * entrySize) + 8)) 0x9008 4 6) 0x900c 4 (16 + 2 * entrySize)) 0x9010 4 entrySize)
    0x9020 8 0x200000) 0x9028 4 1)
    (0x9018 + entrySize) 8 0x100000) (0x9018 + entrySize + 8) 8 0x1000) (0x9018 + entrySize + 16) 4 2)
    (0x9018 + 2 * entrySize + 4) 4 8

theorem mmapBlock_chain {entrySize : Nat} (h : entrySize = 24 ∨ entrySize = 32) :
    TagChain (mmapBlock entrySize) (0x9000 + readLE (mmapBlock entrySize) 0x9000 4) (0x9000 + 8)
    [0x9008] := by
  rcases h with rfl | rfl
  · exact .tag (by decide) (by decide) (by decide) (.last (by decide) (by decide))
  · exact .tag (by decide) (by decide) (by decide) (.last (by decide) (by decide))

theorem mmapBlock_ok {entrySize : Nat} (h : entrySize = 24 ∨ entrySize = 32) :
    ∀ tag ∈ [0x9008], tagType (mmapBlock entrySize) tag = mb2TagMmap
      → MmapTagOk (mmapBlock entrySize) tag := by
  intro tag hmem _
  obtain rfl := List.mem_singleton.mp hmem
  rcases h with rfl | rfl
  · exact ⟨by decide, by decide, by decide, by decide⟩
  · exact ⟨by decide, by decide, by decide, by decide⟩

/-- Entries of 24 bytes. -/
theorem unusable_reserved_plain : ReservesUnusable (mmapBlock 24) 0x9000 2048 [0x9008] :=
  (unusable_reserved_iff 2048 (by decide) (mmapBlock_chain (.inl rfl)) (mmapBlock_ok (.inl rfl))).2
      fun tag hmem _ =>
    List.mem_singleton.mp hmem ▸ ⟨by decide, by decide⟩

/-- **Entries of 32 bytes**: the frame at 1 MiB stays free. -/
theorem unusable_not_reserved : ¬ ∀ (m : Mem) (mbInfo memUpperKb : Nat) (tags : List Nat), mbInfo < 2 ^ 32 →
    TagChain m (mbInfo + readLE m mbInfo 4) (mbInfo + 8) tags →
    (∀ tag ∈ tags, tagType m tag = mb2TagMmap → MmapTagOk m tag) → ReservesUnusable m mbInfo memUpperKb tags := by
  intro h
  have hreserved := h (mmapBlock 32) 0x9000 2048 [0x9008] (by decide) (mmapBlock_chain (.inr rfl))
    (mmapBlock_ok (.inr rfl))
  have hiff := (reservesUnusable_iff 2048 (by decide) (mmapBlock_chain (.inr rfl))
    (mmapBlock_ok (.inr rfl))).mp hreserved
    256 (Nat.le_refl _) (by decide +kernel)
  have hmeets : UnusableFrame (mmapBlock 32) [0x9008] 256 :=
    ⟨0x9008, List.mem_singleton_self _, by decide, 1, by decide, by decide, 0x100000, by decide, by decide, by decide, by decide⟩
  obtain ⟨tag, hmem, _, i, hi, hrecord⟩ := hiff.mpr hmeets
  obtain rfl := List.mem_singleton.mp hmem
  have hcount : entryCount (mmapBlock 32) 0x9008 = 2 := by decide
  have hno : ∀ i < 2, ¬ (readLE (mmapBlock 32) (0x9008 + 16 + 24 * i + 16) 4 ≠ 1
      ∧ readLE (mmapBlock 32) (0x9008 + 16 + 24 * i) 8 / pageSize ≤ 256
      ∧ 256 < alignUpPage (u64 (readLE (mmapBlock 32) (0x9008 + 16 + 24 * i) 8
        + readLE (mmapBlock 32) (0x9008 + 16 + 24 * i + 8) 8)) / pageSize) := by decide
  exact hno i (hcount ▸ hi) hrecord

end VnlKernel
