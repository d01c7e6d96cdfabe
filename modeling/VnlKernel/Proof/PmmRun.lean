import VnlKernel.Mm.Pmm

/-!
# The frame allocator over whole runs

`PmmInv` says that the counter counts the clear bits and that clear bits are
usable frames. It is all `pmm_alloc` needs: the scan stops at the first clear bit,
so the test against `total_frames` behind it can only fail when there is none.

Who holds which frame is the other half. `PmmReach` runs the allocator the way the
kernel does, reserving first and then allocating and freeing, and keeps the frames
handed out beside it.
-/

namespace VnlKernel

open Bits

/-- **The allocator's invariant.** -/
structure PmmInv (p : Pmm) : Prop where
  count : p.freeFrames = Bitmap.clearCount p.bitmap maxFrames
  /-- A clear bit is a frame of memory, above the first megabyte. -/
  range : ∀ f, f < maxFrames → p.bmTest f = false → 256 ≤ f ∧ f < p.totalFrames
  total : p.totalFrames ≤ maxFrames

section Bits

variable {p : Pmm} {f g : Nat}

theorem markFree_total : (p.markFree f).totalFrames = p.totalFrames := rfl

theorem bmTest_markUsed : (p.markUsed f).bmTest g = (p.bmTest g || decide (f = g)) := by
  unfold Pmm.markUsed Pmm.bmTest Pmm.bmSet
  exact Bitmap.test_set

theorem bmTest_markFree : (p.markFree f).bmTest g = (p.bmTest g && !decide (f = g)) := by
  unfold Pmm.markFree Pmm.bmTest Pmm.bmClear
  exact Bitmap.test_clear

theorem bmTest_markUsed_self : (p.markUsed f).bmTest f = true := by
  rw [bmTest_markUsed]; simp

theorem bmTest_markUsed_mono (h : p.bmTest g = true) : (p.markUsed f).bmTest g = true := by
  rw [bmTest_markUsed, h]; rfl

theorem bmTest_markFree_ne (hne : g ≠ f) (h : p.bmTest g = true) :
    (p.markFree f).bmTest g = true := by
  rw [bmTest_markFree, h]; simp [Ne.symm hne]

theorem PmmInv.free_le (h : PmmInv p) : p.freeFrames ≤ maxFrames :=
  h.count ▸ Bitmap.clearCount_le _ _

/-- A free frame becomes used. -/
theorem PmmInv.take (h : PmmInv p) (hf : f < maxFrames) (hclr : p.bmTest f = false) :
    PmmInv (p.markUsed f) := by
  have hc := Bitmap.clearCount_set hf hclr
  have hcount := h.count
  have hle := h.free_le
  have hmax : maxFrames < 2 ^ 64 := by decide
  refine ⟨?_, fun g hg ht => ?_, h.total⟩
  · show sub64 p.freeFrames 1 = Bitmap.clearCount (Bitmap.set p.bitmap f) maxFrames
    rw [sub64_of_le (by omega) (by omega)]
    omega
  · rw [bmTest_markUsed, Bool.or_eq_false_iff] at ht
    exact h.range g hg ht.1

/-- A used frame of memory becomes free. -/
theorem PmmInv.give (h : PmmInv p) (hlo : 256 ≤ f) (hhi : f < p.totalFrames)
    (hset : p.bmTest f = true) : PmmInv (p.markFree f) := by
  have hf : f < maxFrames := Nat.lt_of_lt_of_le hhi h.total
  have hc := Bitmap.clearCount_clear hf hset
  have hcount := h.count
  have hle := h.free_le
  have hmax : maxFrames + 1 < 2 ^ 64 := by decide
  refine ⟨?_, fun g hg ht => ?_, h.total⟩
  · show u64 (p.freeFrames + 1) = Bitmap.clearCount (Bitmap.clear p.bitmap f) maxFrames
    rw [u64_of_lt (by omega)]
    omega
  · rw [bmTest_markFree, Bool.and_eq_false_iff] at ht
    rcases ht with ht | ht
    · exact h.range g hg ht
    · have he : f = g := by simpa using ht
      exact he ▸ ⟨hlo, hhi⟩

end Bits

/-! ## Booting -/

theorem freeFrom_inv : ∀ {n f : Nat} {p : Pmm}, PmmInv p → 256 ≤ f → f + n ≤ p.totalFrames →
    (∀ g, f ≤ g → p.bmTest g = true) → PmmInv (freeFrom p n f)
  | 0, f, p, h, _, _, _ => h
  | n + 1, f, p, h, hlo, hhi, hset => by
      have hgive : PmmInv (p.markFree f) := h.give hlo (by omega) (hset f (Nat.le_refl _))
      rw [freeFrom]
      exact freeFrom_inv hgive (by omega) (by rw [markFree_total]; omega)
        fun g hg => bmTest_markFree_ne (by omega) (hset g (by omega))

theorem pmmInit_inv (kb : Nat) : PmmInv (pmmInit kb) := by
  have hfirst : alignUpPage 0x100000 / pageSize = 256 := by decide
  have hset : ∀ g, Bitmap.test (fun _ => (0xFF : UInt8)) g = true :=
    fun g => Bitmap.test_of_full rfl
  unfold pmmInit
  dsimp only
  rw [hfirst]
  generalize ht : (if u64 (kb * 1024) / pageSize > maxFrames then maxFrames
    else u64 (kb * 1024) / pageSize) = total
  have hle : total ≤ maxFrames := by
    rw [← ht]
    split
    · exact Nat.le_refl _
    · omega
  have h0 : PmmInv { bitmap := fun _ => 0xFF, totalFrames := total, freeFrames := 0 } :=
    ⟨(Bitmap.clearCount_eq_zero fun f _ => hset f).symm,
      fun f _ hf => absurd (hset f) (by rw [show Bitmap.test _ f = false from hf]; decide), hle⟩
  by_cases hbig : 256 ≤ total
  · exact freeFrom_inv h0 (Nat.le_refl _) (by show 256 + (total - 256) ≤ total; omega)
      fun g _ => hset g
  · -- less than a megabyte: the loop does not run
    rw [show total - 256 = 0 by omega]
    exact h0

theorem reserveFrom_spec : ∀ {n f : Nat} {p : Pmm}, PmmInv p →
    PmmInv (reserveFrom p n f) ∧ (reserveFrom p n f).totalFrames = p.totalFrames
      ∧ (∀ g, p.bmTest g = true → (reserveFrom p n f).bmTest g = true)
      ∧ ∀ g, f ≤ g → g < f + n → g < p.totalFrames → (reserveFrom p n f).bmTest g = true
  | 0, f, p, h => ⟨h, rfl, fun _ hg => hg, fun g h1 h2 => absurd h2 (by omega)⟩
  | n + 1, f, p, h => by
      rw [reserveFrom]
      split
      · next hf =>
        -- the state after frame `f` has been dealt with
        have hone : ∃ q, (if !p.bmTest f then p.markUsed f else p) = q ∧ PmmInv q
            ∧ q.totalFrames = p.totalFrames ∧ (∀ g, p.bmTest g = true → q.bmTest g = true)
                ∧ q.bmTest f = true := by
          cases hb : p.bmTest f with
          | true => exact ⟨p, rfl, h, rfl, fun _ hg => hg, hb⟩
          | false =>
              exact ⟨p.markUsed f, rfl, h.take (Nat.lt_of_lt_of_le hf h.total) hb, rfl,
                fun g => bmTest_markUsed_mono, bmTest_markUsed_self⟩
        obtain ⟨q, hq, hinv, htot, hmono, hset⟩ := hone
        obtain ⟨i1, i2, i3, i4⟩ := reserveFrom_spec (n := n) (f := f + 1) hinv
        rw [hq]
        refine ⟨i1, i2.trans htot, fun g hg => i3 g (hmono g hg), fun g h1 h2 h3 => ?_⟩
        by_cases hg : g = f
        · exact hg ▸ i3 f hset
        · exact i4 g (by omega) (by omega) (by omega)
      · next hf => exact ⟨h, rfl, fun _ hg => hg, fun g h1 _ h3 => absurd h3 (by omega)⟩

/-- The frame `[a, a + 4096)` meets the range `[base, base + len)`. -/
def Overlaps (a base len : Nat) : Prop := base < a + pageSize ∧ a < base + len

/-- **`pmm_reserve`** takes every frame that its range meets out of circulation. -/
theorem pmmReserve_spec {p : Pmm} {base len : Nat} (h : PmmInv p)
    (hw : base + len + 4095 < 2 ^ 64) :
    PmmInv (pmmReserve p base len) ∧ (pmmReserve p base len).totalFrames = p.totalFrames
      ∧ (∀ g, p.bmTest g = true → (pmmReserve p base len).bmTest g = true)
      ∧ ∀ g, g < p.totalFrames → Overlaps (g * pageSize) base len →
          (pmmReserve p base len).bmTest g = true := by
  unfold pmmReserve
  dsimp only
  rw [u64_of_lt (by omega)]
  obtain ⟨hup, _, k, hk⟩ := alignUpPage_spec (v := base + len) (by omega)
  have hdown : alignDown base pageSize / pageSize = base / 4096 := by
    have h : alignDown base pageSize = base / 2 ^ 12 * 2 ^ 12 :=
      alignDown_pow (k := 12) (by omega) (by decide)
    rw [h]
    exact Nat.mul_div_cancel _ (by decide)
  have hlast : alignUpPage (base + len) / pageSize = k := by
    rw [hk]; exact Nat.mul_div_cancel_left k (by decide)
  rw [hdown, hlast]
  obtain ⟨h1, h2, h3, h4⟩ := reserveFrom_spec (n := k - base / 4096) (f := base / 4096) h
  refine ⟨h1, h2, h3, fun g hg ho => ?_⟩
  have hps : pageSize = 4096 := rfl
  unfold Overlaps at ho
  rw [hps] at ho
  exact h4 g (by omega) (by omega) hg

/-! ## Allocating and freeing -/

/-- **What `pmm_alloc` does**: it takes a free frame, or there is none and it changes nothing. -/
theorem pmmAlloc_cases {p : Pmm} (h : PmmInv p) :
    (p.freeFrames = 0 ∧ pmmAlloc p = (p, 0)) ∨
    (∃ f, 0 < p.freeFrames ∧ 256 ≤ f ∧ f < p.totalFrames ∧ p.bmTest f = false
      ∧ pmmAlloc p = (p.markUsed f, f * pageSize)) := by
  have hmax : maxFrames = 8 * (0 + bitmapSize) := by decide
  unfold pmmAlloc
  cases hscan : Bitmap.scanBytes p.bitmap bitmapSize 0 with
  | none =>
      refine Or.inl ⟨?_, rfl⟩
      rw [h.count]
      exact Bitmap.clearCount_eq_zero fun f hf =>
        Bitmap.scanBytes_none hscan f (Nat.zero_le _) (hmax ▸ hf)
  | some f =>
      obtain ⟨hf, hclr⟩ := Bitmap.scanBytes_some hscan
      rw [← hmax] at hf
      obtain ⟨hlo, hhi⟩ := h.range f hf hclr
      have hpos : 0 < p.freeFrames := by
        rw [h.count]
        exact Bitmap.clearCount_pos.mpr ⟨f, hf, hclr⟩
      have haddr : f * pageSize < 2 ^ 64 := by
        have hm : maxFrames = 1048576 := rfl
        show f * 4096 < 2 ^ 64
        omega
      refine Or.inr ⟨f, hpos, hlo, hhi, hclr, ?_⟩
      dsimp only
      rw [if_neg (by omega), u64_of_lt haddr]

theorem pmmAlloc_inv {p : Pmm} (h : PmmInv p) : PmmInv (pmmAlloc p).1 := by
  rcases pmmAlloc_cases h with ⟨_, he⟩ | ⟨f, _, _, hhi, hclr, he⟩
  · rw [he]; exact h
  · rw [he]; exact h.take (Nat.lt_of_lt_of_le hhi h.total) hclr

theorem pmmFree_eq {p : Pmm} {f : Nat} (hset : p.bmTest f = true) :
    pmmFree p (f * pageSize) = p.markFree f := by
  unfold pmmFree
  dsimp only
  rw [Nat.mul_div_cancel _ (by decide), hset]
  rfl

/-! ## Runs -/

/-- After `pmm_init` and any reservations, with the ranges reserved. -/
inductive PmmBooted : Pmm → List (Nat × Nat) → Prop
  | init (memUpperKb : Nat) : PmmBooted (pmmInit memUpperKb) []
  | reserve {p : Pmm} {rs : List (Nat × Nat)} {base len : Nat} : PmmBooted p rs →
      base + len + 4095 < 2 ^ 64 → PmmBooted (pmmReserve p base len) ((base, len) :: rs)

/-- After that, any allocations and frees, with the frames handed out and not yet given back. -/
inductive PmmReach : Pmm → List (Nat × Nat) → List Nat → Prop
  | boot {p : Pmm} {rs : List (Nat × Nat)} : PmmBooted p rs → PmmReach p rs []
  | alloc {p p' : Pmm} {rs : List (Nat × Nat)} {out : List Nat} {a : Nat} : PmmReach p rs out →
      pmmAlloc p = (p', a) → PmmReach p' rs (if a = 0 then out else a :: out)
  | free {p : Pmm} {rs : List (Nat × Nat)} {out : List Nat} {a : Nat} : PmmReach p rs out →
      a ∈ out → PmmReach (pmmFree p a) rs (out.erase a)

/-- What holds of a run: the allocator's invariant, and no frame has two holders. -/
structure RunInv (p : Pmm) (rs : List (Nat × Nat)) (out : List Nat) : Prop where
  inv : PmmInv p
  nodup : out.Nodup
  out_used : ∀ a ∈ out, ∃ f, a = f * pageSize ∧ 256 ≤ f ∧ f < p.totalFrames ∧ p.bmTest f = true
  /-- Reserved frames are used, and are nobody's to free. -/
  reserved : ∀ r ∈ rs, ∀ f, f < p.totalFrames → Overlaps (f * pageSize) r.1 r.2 →
    p.bmTest f = true ∧ f * pageSize ∉ out

section Run

variable {p : Pmm} {rs : List (Nat × Nat)} {out : List Nat}

theorem PmmBooted.runInv (h : PmmBooted p rs) : RunInv p rs [] := by
  induction h with
  | init kb => exact ⟨pmmInit_inv kb, List.nodup_nil, by simp, by simp⟩
  | reserve _ hw ih =>
      obtain ⟨h1, h2, h3, h4⟩ := pmmReserve_spec ih.inv hw
      refine ⟨h1, List.nodup_nil, by simp, fun r hr f hf ho => ⟨?_, by simp⟩⟩
      rw [h2] at hf
      rcases List.mem_cons.mp hr with rfl | hr
      · exact h4 f hf ho
      · exact h3 f (ih.reserved r hr f hf ho).1

/-- A frame handed out is one nobody has. -/
theorem RunInv.alloc {p' : Pmm} {a : Nat} (h : RunInv p rs out) (ha : pmmAlloc p = (p', a)) :
    RunInv p' rs (if a = 0 then out else a :: out) := by
  rcases pmmAlloc_cases h.inv with ⟨_, he⟩ | ⟨f, hpos, hlo, hhi, hclr, he⟩
  · cases he.symm.trans ha
    exact h
  · cases he.symm.trans ha
    have hne : f * pageSize ≠ 0 := Nat.mul_ne_zero (by omega) (by decide)
    rw [if_neg hne]
    refine ⟨h.inv.take (Nat.lt_of_lt_of_le hhi h.inv.total) hclr, ?_, ?_, ?_⟩
    · refine List.nodup_cons.mpr ⟨fun hm => ?_, h.nodup⟩
      obtain ⟨g, hg, _, _, hset⟩ := h.out_used _ hm
      rw [← Nat.mul_right_cancel (by decide) hg, hclr] at hset
      exact Bool.noConfusion hset
    · intro a ha
      rcases List.mem_cons.mp ha with rfl | ha
      · exact ⟨f, rfl, hlo, hhi, bmTest_markUsed_self⟩
      · obtain ⟨g, h1, h2, h3, h4⟩ := h.out_used a ha
        exact ⟨g, h1, h2, h3, bmTest_markUsed_mono h4⟩
    · intro r hr g hg ho
      obtain ⟨h1, h2⟩ := h.reserved r hr g hg ho
      refine ⟨bmTest_markUsed_mono h1, fun hm => ?_⟩
      rcases List.mem_cons.mp hm with he | hm
      · rw [Nat.mul_right_cancel (by decide) he, hclr] at h1
        exact Bool.noConfusion h1
      · exact h2 hm

theorem RunInv.free {a : Nat} (h : RunInv p rs out) (ha : a ∈ out) :
    RunInv (pmmFree p a) rs (out.erase a) := by
  obtain ⟨f, rfl, hlo, hhi, hset⟩ := h.out_used a ha
  rw [pmmFree_eq hset]
  refine ⟨h.inv.give hlo hhi hset, h.nodup.erase _, ?_, ?_⟩
  · intro b hb
    obtain ⟨hne, hb⟩ := (List.Nodup.mem_erase_iff h.nodup).mp hb
    obtain ⟨g, rfl, h2, h3, h4⟩ := h.out_used b hb
    exact ⟨g, rfl, h2, h3, bmTest_markFree_ne (fun e => hne (by rw [e])) h4⟩
  · intro r hr g hg ho
    obtain ⟨h1, h2⟩ := h.reserved r hr g hg ho
    exact ⟨bmTest_markFree_ne (fun e => h2 (e ▸ ha)) h1, fun hm => h2 (List.mem_of_mem_erase hm)⟩

theorem PmmReach.runInv (h : PmmReach p rs out) : RunInv p rs out := by
  induction h with
  | boot hb => exact hb.runInv
  | alloc _ ha ih => exact ih.alloc ha
  | free _ ha ih => exact ih.free ha

/-- **The frame allocator is sound.** In every run the counter is right and clear bits are usable
frames; an allocation fails exactly when nothing is free, and otherwise gives a frame above 1 MiB
that nobody holds and that no reserved range touches. -/
theorem pmm_reachable_sound (h : PmmReach p rs out) :
    p.freeFrames = Bitmap.clearCount p.bitmap maxFrames
      ∧ (∀ f, f < maxFrames → p.bmTest f = false → 256 ≤ f ∧ f < p.totalFrames)
      ∧ out.Nodup
      ∧ ((pmmAlloc p).2 = 0 ↔ p.freeFrames = 0)
      ∧ ((pmmAlloc p).2 ≠ 0 → ∃ f, (pmmAlloc p).2 = f * pageSize ∧ f < p.totalFrames
          ∧ 0x100000 ≤ (pmmAlloc p).2 ∧ (pmmAlloc p).2 ∉ out
          ∧ ∀ r ∈ rs, ¬ Overlaps (pmmAlloc p).2 r.1 r.2) := by
  have hrun := h.runInv
  refine ⟨hrun.inv.count, hrun.inv.range, hrun.nodup, ?_⟩
  rcases pmmAlloc_cases hrun.inv with ⟨h0, he⟩ | ⟨f, hpos, hlo, hhi, hclr, he⟩
  · rw [he]
    exact ⟨⟨fun _ => h0, fun _ => rfl⟩, fun hne => absurd rfl hne⟩
  · have hne : f * pageSize ≠ 0 := Nat.mul_ne_zero (by omega) (by decide)
    rw [he]
    refine ⟨⟨fun hz => absurd hz hne, fun hz => absurd hz (by omega)⟩, fun _ => ?_⟩
    refine ⟨f, rfl, hhi, ?_, ?_, ?_⟩
    · show 0x100000 ≤ f * 4096
      omega
    · intro hm
      obtain ⟨g, hg, _, _, hset⟩ := hrun.out_used _ hm
      rw [← Nat.mul_right_cancel (by decide) hg, hclr] at hset
      exact Bool.noConfusion hset
    · intro r hr ho
      rw [(hrun.reserved r hr f hhi ho).1] at hclr
      exact Bool.noConfusion hclr

end Run

/-- Two megabytes with the kernel's image reserved: the first frame out is the one behind it. -/
theorem pmm_reachable_sound_boot :
    ∃ p, PmmReach p [(0x100000, 0x2800)] [0x103000] ∧ p.freeFrames = 252
      ∧ (pmmAlloc p).2 = 0x104000 ∧ (pmmAlloc p).2 ∉ [0x103000] := by
  have hboot : PmmReach (pmmReserve (pmmInit 2048) 0x100000 0x2800) [(0x100000, 0x2800)] [] :=
    .boot (.reserve (.init 2048) (by decide))
  have hout : (pmmAlloc (pmmReserve (pmmInit 2048) 0x100000 0x2800)).2 = 0x103000 := by
    decide +kernel
  have hfree : (pmmAlloc (pmmReserve (pmmInit 2048) 0x100000 0x2800)).1.freeFrames = 252 := by
    decide +kernel
  have hnext : (pmmAlloc (pmmAlloc (pmmReserve (pmmInit 2048) 0x100000 0x2800)).1).2
      = 0x104000 := by
    decide +kernel
  generalize pmmReserve (pmmInit 2048) 0x100000 0x2800 = p₀ at *
  have hr : PmmReach (pmmAlloc p₀).1 [(0x100000, 0x2800)] [0x103000] := by
    have h := PmmReach.alloc hboot (Prod.mk.eta (p := pmmAlloc p₀)).symm
    rwa [hout, if_neg (by decide)] at h
  obtain ⟨_, _, _, _, hfresh⟩ := pmm_reachable_sound hr
  obtain ⟨_, _, _, _, hnot, _⟩ := hfresh (by rw [hnext]; decide)
  exact ⟨_, hr, hfree, hnext, hnot⟩

end VnlKernel
