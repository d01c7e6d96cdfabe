import VnlKernel.Logged
import VnlKernel.Proof.HeapRun

/-!
# Sizes near the end of the address space

Tags, rounding and the extra page are added to a request in 64 bits, and nobody looks at
the carry. Up to 8224 bytes below `2 ^ 64` the sums are what they look like. Above, they
wrap, in one of two places: the block to look for comes out as the smallest there is, or
the region to grow by comes out as two pages, one or none. The first hands a small block
to a caller who asked for nearly everything; the second puts a block on the free list that
is no use for the request, and that may have no size at all.
-/

namespace VnlKernel

open ByteMem Bits

variable {σ : Type}

/-- `kmalloc`, noting down the size of each block that `heap_expand` makes for it. -/
def kmallocNoted (pg : Pager σ) : Nat → Heap σ → Nat → Logged Nat (Heap σ × Nat)
  | 0, _, _ => .lift .timeout
  | fuel + 1, s, size =>
      if size = 0 then pure (s, 0)
      else do
        let size := blockSizeFor size
        let h ← .lift (firstFit s.mem size (fuel + 1) s.freeList)
        if h ≠ 0 then pure (takeBlock s h size)
        else do
          let s' ← .lift (heapExpand pg s (u64 (size + pageSize)))
          .note (blkSize s'.mem s.heapEnd)
          kmallocNoted pg fuel s' size

/-- It is `kmalloc`. -/
theorem kmallocNoted_out (pg : Pager σ) : ∀ (fuel : Nat) (s : Heap σ) (size : Nat),
    (kmallocNoted pg fuel s size).out = kmalloc pg fuel s size := by
  intro fuel
  induction fuel with
  | zero => exact fun s size => rfl
  | succ fuel ih =>
      intro s size
      rw [kmallocNoted, kmalloc]
      by_cases h0 : size = 0
      · rw [if_pos h0, if_pos h0]
        rfl
      · rw [if_neg h0, if_neg h0]
        dsimp only
        rw [Logged.bind_out, Logged.lift_out]
        refine Outcome.bind_congr fun h _ => ?_
        by_cases hh : h ≠ 0
        · rw [if_pos hh, if_pos hh]
          rfl
        · rw [if_neg hh, if_neg hh, Logged.bind_out, Logged.lift_out]
          refine Outcome.bind_congr fun s' _ => ?_
          rw [Logged.bind_out, Logged.note_out, Outcome.bind_done]
          exact ih s' _

/-! ## The sums -/

section Sums

variable {t : Nat}

theorem alignUp_eight (v : Nat) : alignUp v 8 = u64 (v + 7) / 8 * 8 :=
  and_mask (k := 3) (u64_lt _) (by decide)

theorem alignUpPage_eq (v : Nat) : alignUpPage v = u64 (v + 4095) / 4096 * 4096 :=
  and_mask (k := 12) (u64_lt _) (by decide)

/-- A request that wraps asks for the smallest block, or for one larger than any heap. -/
theorem blockSizeFor_wrapped (ht : t < 2 ^ 64) (hw : 2 ^ 64 < t + 32 + 2 * 4096) :
    8 ∣ blockSizeFor t
      ∧ (blockSizeFor t = 48 ∨ 2 ^ 64 - 8192 < blockSizeFor t ∧ blockSizeFor t < 2 ^ 64) := by
  unfold blockSizeFor
  dsimp only
  rw [alignUp_eight, show minBlock = 48 from rfl,
    show t + headerSize + footerSize = t + 32 from rfl]
  have hmod : u64 (u64 (t + 32) + 7) / 8 * 8 < 48
      ∨ 2 ^ 64 - 8192 < u64 (u64 (t + 32) + 7) / 8 * 8
          ∧ u64 (u64 (t + 32) + 7) / 8 * 8 < 2 ^ 64 := by
    unfold u64
    omega
  by_cases hz : u64 (u64 (t + 32) + 7) / 8 * 8 < 48
  · rw [if_pos hz]
    exact ⟨by decide, Or.inl rfl⟩
  · rw [if_neg hz]
    exact ⟨Nat.dvd_mul_left _ _, hmod.imp (fun h => absurd h hz) id⟩

/-- The region that such a request makes the heap grow by. -/
theorem growth_wrapped (ht : t < 2 ^ 64) (hw : 2 ^ 64 < t + 32 + 2 * 4096) :
    alignUpPage (u64 (blockSizeFor t + pageSize)) ≤ 8192 := by
  rw [alignUpPage_eq, show pageSize = 4096 from rfl]
  obtain ⟨_, h | ⟨h1, h2⟩⟩ := blockSizeFor_wrapped ht hw
  · rw [h]
    decide
  · unfold u64
    omega

/-- Rounding up to pages wraps to nothing at all. -/
theorem alignUpPage_wrapped {v : Nat} (hv : v < 2 ^ 64) (hw : 2 ^ 64 ≤ v + 4095) :
    alignUpPage v = 0 := by
  rw [alignUpPage_eq]
  unfold u64
  omega

end Sums

/-! ## The blocks that `heap_expand` makes -/

section Expand

variable {pg : Pager σ} {base : Nat} {s s' : Heap σ} {bs : List Blk} {fl : List Nat}

/-- A growth by nothing makes a block of no size, whose footer is the footer of the block before. -/
theorem heapExpand_nothing (hinv : HeapInv base s bs fl) (hend : s.heapEnd < 2 ^ 64)
    (hlow : 8 ≤ s.heapEnd)
    {extra : Nat} (h0 : alignUpPage extra = 0) (h : heapExpand pg s extra = .done s') :
    blkSize s'.mem s.heapEnd = 0 := by
  have hnode : s.freeList ≠ 0 → s.freeList + 16 ≤ s.heapEnd := by
    intro hne
    have hhead := hinv.rep.list.head_eq
    cases fl with
    | nil => exact absurd hhead hne
    | cons x fl =>
        obtain ⟨b, hb, hx⟩ := hinv.rep.nodes x List.mem_cons_self
        have hgeo := tiles_mem hinv.rep.tiles hb
        have hlim : b.lim = b.addr + b.size := rfl
        rw [show s.freeList = x from hhead]
        omega
  -- the footer lands in front of the header
  have hset : setSize s.mem s.heapEnd 0 false = write64 (write64 s.mem s.heapEnd 0)
      (s.heapEnd - 8) 0 := by
    have hhead : read64 (write64 s.mem s.heapEnd 0) s.heapEnd = 0 := read64_write64_same (by decide)
    unfold setSize getFooter blkSize
    dsimp only
    rw [show (0 : Nat) ||| Bool.toNat false = 0 from rfl, hhead, Nat.zero_and, Nat.add_zero,
      u64_of_lt hend,
      show footerSize = 8 from rfl, sub64_of_le hlow hend]
  have hread : ∀ m : Mem, read64 m s.heapEnd = 0 → ∀ p,
      read64 (setPrevFree (setNextFree m s.heapEnd p) s.heapEnd 0) s.heapEnd = 0 := by
    intro m hm p
    unfold setPrevFree setNextFree
    rw [read64_write64_disj (by omega), read64_write64_disj (by omega)]
    exact hm
  unfold heapExpand at h
  dsimp only at h
  rw [h0, Nat.zero_div, mapPages, Outcome.bind_done, hset, Nat.add_zero] at h
  have hblock : read64 (setPrevFree (setNextFree
      (write64 (write64 s.mem s.heapEnd 0) (s.heapEnd - 8) 0) s.heapEnd 0) s.heapEnd 0) s.heapEnd
          = 0 := by
    refine hread _ ?_ 0
    rw [read64_write64_disj (by omega)]
    exact read64_write64_same (by decide)
  generalize setPrevFree (setNextFree (write64 (write64 s.mem s.heapEnd 0) (s.heapEnd - 8) 0)
    s.heapEnd 0) s.heapEnd 0 = m at h hblock
  have hs' : s' = freeListInsert { s with mem := m, heapEnd := u64 s.heapEnd } s.heapEnd := by
    simpa using h.symm
  have hfinal : read64 s'.mem s.heapEnd = 0 := by
    rw [hs']
    unfold freeListInsert
    dsimp only
    split
    · next hne =>
      have := hnode hne
      show read64 (write64 _ (s.freeList + 8) s.heapEnd) s.heapEnd = 0
      rw [read64_write64_disj (by omega)]
      exact hread m hblock _
    · exact hread m hblock _
  unfold blkSize
  rw [hfinal, Nat.zero_and]

/-- The block that `heap_expand` makes is of the size that the sums come to. -/
theorem heapExpand_made (hinv : HeapInv base s bs fl) (hbase : 8 ≤ base)
    (hroom : s.heapEnd + 4096 * pg.supply s.pages < 2 ^ 64) {extra : Nat} (hextra : extra < 2 ^ 64)
    (h : heapExpand pg s extra = .done s') : blkSize s'.mem s.heapEnd = alignUpPage extra := by
  have hlow : base ≤ s.heapEnd := tiles_le hinv.rep.tiles
  by_cases h0 : alignUpPage extra = 0
  · rw [h0]
    exact heapExpand_nothing hinv (by omega) (by omega) h0 h
  · have hpos : 0 < extra := by
      refine Nat.pos_of_ne_zero fun he => h0 ?_
      rw [he]
      decide
    have hfit : extra + 4095 < 2 ^ 64 := by
      refine Nat.lt_of_not_le fun hle => h0 ?_
      exact alignUpPage_wrapped hextra hle
    obtain ⟨E, hE, _, hinv', _, _⟩ := heapExpand_spec hinv (by omega) hroom hpos hfit h
    have hgeo := tiles_mem (b := ⟨s.heapEnd, E, false⟩) hinv'.rep.tiles (by simp)
    rw [← hE]
    exact blkSize_of_tagged (b := ⟨s.heapEnd, E, false⟩) hgeo.2.2.1 (hinv'.rep.tags _ (by simp))

/-- No block is nearly as large as the address space. -/
theorem HeapInv.block_small (hinv : HeapInv base s bs fl) (hbase : 2 * pageSize ≤ base)
    (hend : s.heapEnd < 2 ^ 64) {b : Blk} (hb : b ∈ bs) : b.size < 2 ^ 64 - 8192 := by
  have hgeo := tiles_mem hinv.rep.tiles hb
  have hlim : b.lim = b.addr + b.size := rfl
  rw [show pageSize = 4096 from rfl] at hbase
  omega

end Expand

/-! ## The requests -/

/-- A request for `size` bytes is kept: the block returned has room for them, and so has every block
made on the way. -/
def Honest (size : Nat) (r : Outcome (Heap σ × Nat)) (made : List Nat) : Prop :=
  (∀ s p, r = .done (s, p) → p ≠ 0 → size ≤ payloadLen s.mem p) ∧ ∀ z ∈ made, z ≠ 0 ∧ size ≤ z

/-- The request comes to something: a block returned, or one made. -/
def Grants (r : Outcome (Heap σ × Nat)) (made : List Nat) : Prop :=
  (∃ s p, r = .done (s, p) ∧ p ≠ 0) ∨ made ≠ []

section Requests

variable {pg : Pager σ} {base t : Nat} {s : Heap σ} {bs : List Blk} {fl : List Nat}

theorem kmallocNoted_hit (fuel : Nat) (ht : t ≠ 0) {h : Nat} (h0 : h ≠ 0)
    (hf : firstFit s.mem (blockSizeFor t) (fuel + 1) s.freeList = .done h) :
    kmallocNoted pg (fuel + 1) s t = ⟨[], .done (takeBlock s h (blockSizeFor t))⟩ := by
  rw [kmallocNoted, if_neg ht]
  dsimp only
  rw [hf, Logged.bind_of_done (Logged.lift_out _), if_pos h0]
  rfl

theorem kmallocNoted_miss (fuel : Nat) (ht : t ≠ 0)
    (hf : firstFit s.mem (blockSizeFor t) (fuel + 1) s.freeList = .done 0) :
    kmallocNoted pg (fuel + 1) s t = (do
      let s' ← .lift (heapExpand pg s (u64 (blockSizeFor t + pageSize)))
      .note (blkSize s'.mem s.heapEnd)
      kmallocNoted pg fuel s' (blockSizeFor t)) := by
  rw [kmallocNoted, if_neg ht]
  dsimp only
  rw [hf, Logged.bind_of_done (Logged.lift_out _), if_neg (by decide)]
  rfl

/-- The first thing that a request notes down, if anything: the block made first. -/
theorem kmallocNoted_first (hinv : HeapInv base s bs fl) (hbase : 8 ≤ base)
    (hroom : s.heapEnd + 4096 * pg.supply s.pages < 2 ^ 64) (fuel : Nat)
    (hne : (kmallocNoted pg fuel s t).log ≠ []) :
    alignUpPage (u64 (blockSizeFor t + pageSize)) ∈ (kmallocNoted pg fuel s t).log := by
  cases fuel with
  | zero => exact absurd rfl hne
  | succ fuel =>
      by_cases ht : t = 0
      · rw [kmallocNoted, if_pos ht] at hne
        exact absurd rfl hne
      · cases hf : firstFit s.mem (blockSizeFor t) (fuel + 1) s.freeList with
        | panic msg =>
            rw [kmallocNoted, if_neg ht] at hne
            dsimp only at hne
            rw [hf, Logged.bind_of_not_done (by simp)] at hne
            exact absurd rfl hne
        | timeout =>
            rw [kmallocNoted, if_neg ht] at hne
            dsimp only at hne
            rw [hf, Logged.bind_of_not_done (by simp)] at hne
            exact absurd rfl hne
        | done h =>
            by_cases h0 : h = 0
            · rw [h0] at hf
              rw [kmallocNoted_miss fuel ht hf] at hne ⊢
              cases he : heapExpand pg s (u64 (blockSizeFor t + pageSize)) with
              | panic msg =>
                  rw [he, Logged.bind_of_not_done (by simp)] at hne
                  exact absurd rfl hne
              | timeout =>
                  rw [he, Logged.bind_of_not_done (by simp)] at hne
                  exact absurd rfl hne
              | done s₁ =>
                  rw [← heapExpand_made hinv hbase hroom (u64_lt _) he]
                  refine Logged.mem_bind.mpr (Or.inr ⟨s₁, rfl, Logged.mem_bind.mpr (Or.inl ?_)⟩)
                  rw [Logged.note_log]
                  exact List.mem_singleton_self _
            · rw [kmallocNoted_hit fuel ht h0 hf] at hne
              exact absurd rfl hne

/-- Nothing is noted down if the first walk finds a block. -/
theorem kmalloc_unnoted (hinv : HeapInv base s bs fl) (hbase : 0 < base) (hend : s.heapEnd < 2 ^ 64)
    (h8 : 8 ∣ blockSizeFor t) (h48 : 48 ≤ blockSizeFor t) (fuel : Nat) {s' : Heap σ} {p : Nat}
    (hnil : (kmallocNoted pg fuel s t).log = []) (hd : kmalloc pg fuel s t = .done (s', p))
    (hp : p ≠ 0) :
    ∃ bs' fl' nb, HeapInv base s' bs' fl' ∧ nb ∈ bs' ∧ p = nb.addr + 24
      ∧ s'.heapEnd = s.heapEnd := by
  rw [← kmallocNoted_out] at hd
  cases fuel with
  | zero => exact absurd hd (by simp [kmallocNoted])
  | succ fuel =>
      by_cases ht : t = 0
      · rw [kmallocNoted, if_pos ht] at hd
        cases hd
        exact absurd rfl hp
      · cases hf : firstFit s.mem (blockSizeFor t) (fuel + 1) s.freeList with
        | panic msg =>
            rw [kmallocNoted, if_neg ht] at hd
            dsimp only at hd
            rw [hf, Logged.bind_out] at hd
            exact absurd hd (by simp)
        | timeout =>
            rw [kmallocNoted, if_neg ht] at hd
            dsimp only at hd
            rw [hf, Logged.bind_out] at hd
            exact absurd hd (by simp)
        | done h =>
            by_cases h0 : h = 0
            · -- the walk found nothing, and the heap grew or the call did not return
              rw [h0] at hf
              rw [kmallocNoted_miss fuel ht hf] at hnil hd
              rw [Logged.bind_out, Logged.lift_out] at hd
              obtain ⟨s₁, he, _⟩ := Outcome.bind_eq_done hd
              have hmem : blkSize s₁.mem s.heapEnd ∈ ([] : List Nat) := by
                rw [← hnil]
                refine Logged.mem_bind.mpr (Or.inr ⟨s₁, he, Logged.mem_bind.mpr (Or.inl ?_)⟩)
                rw [Logged.note_log]
                exact List.mem_singleton_self _
              exact absurd hmem (by simp)
            · rw [kmallocNoted_hit fuel ht h0 hf] at hd
              have hhead : s.freeList = fl.headD 0 := hinv.rep.list.head_eq
              rw [hhead] at hf
              obtain ⟨hm, hfit⟩ := firstFit_done hinv.rep.list.seg hf h0
              obtain ⟨b, hb, rfl⟩ := hinv.rep.nodes h hm
              have hgeo := tiles_mem hinv.rep.tiles hb
              rw [blkSize_of_tagged hgeo.2.2.1 (hinv.rep.tags b hb)] at hfit
              obtain ⟨s'', bs', fl', nb, h1, h2, h3, _, h5, _⟩ := takeBlock_spec hinv hbase hend hb
                ((hinv.free_iff b hb).mp hm) h8 h48 hfit
              rw [h1] at hd
              cases hd
              exact ⟨bs', fl', nb, h2, (h3.used_iff nb h3.used).mpr (Or.inl rfl), rfl, h5⟩

/-- A block of the heap has less room than a request that wraps asks for. -/
theorem payload_small (hinv : HeapInv base s bs fl) (hbase : 2 * pageSize ≤ base)
    (hend : s.heapEnd < 2 ^ 64)
    (hw : 2 ^ 64 < t + 32 + 2 * 4096) {b : Blk} (hb : b ∈ bs) :
    payloadLen s.mem (b.addr + 24) < t := by
  have hsmall := hinv.block_small hbase hend hb
  rw [payloadLen_of_inv hinv hb]
  omega

/-- A request that does not wrap makes one block at most, and that is large enough. -/
theorem kmallocNoted_fits (hinv : HeapInv base s bs fl) (hbase : 8 ≤ base)
    (hroom : s.heapEnd + 4096 * pg.supply s.pages < 2 ^ 64) (hsize : t + 32 + 2 * 4096 ≤ 2 ^ 64)
    (fuel : Nat) :
    ∀ z ∈ (kmallocNoted pg fuel s t).log, z ≠ 0 ∧ t ≤ z := by
  intro z hz
  obtain ⟨h8, h48, hsz, hwrap⟩ := blockSizeFor_spec hsize
  have hext : u64 (blockSizeFor t + pageSize) = blockSizeFor t + 4096 :=
    u64_of_lt (by unfold pageSize; omega)
  cases fuel with
  | zero => exact absurd hz (by simp [kmallocNoted])
  | succ fuel =>
      by_cases ht : t = 0
      · rw [kmallocNoted, if_pos ht] at hz
        exact absurd hz (by simp)
      · cases hf : firstFit s.mem (blockSizeFor t) (fuel + 1) s.freeList with
        | panic msg =>
            rw [kmallocNoted, if_neg ht] at hz
            dsimp only at hz
            rw [hf, Logged.bind_of_not_done (by simp)] at hz
            exact absurd hz (by simp)
        | timeout =>
            rw [kmallocNoted, if_neg ht] at hz
            dsimp only at hz
            rw [hf, Logged.bind_of_not_done (by simp)] at hz
            exact absurd hz (by simp)
        | done h =>
            by_cases h0 : h = 0
            · rw [h0] at hf
              -- nothing fits: the heap grows, and the walk begins again
              rw [kmallocNoted_miss fuel ht hf, hext] at hz
              rcases Logged.mem_bind.mp hz with hz | ⟨s₁, he, hz⟩
              · exact absurd hz (by simp)
              · rw [Logged.lift_out] at he
                obtain ⟨E, hE, hle, hinv₁, _, _⟩ :=
                  heapExpand_spec hinv (by omega) hroom (by omega) (by omega) he
                rcases Logged.mem_bind.mp hz with hz | ⟨_, _, hz⟩
                · rw [Logged.note_log, List.mem_singleton] at hz
                  have hmade := heapExpand_made hinv hbase hroom (by omega) he
                  rw [← hE] at hmade
                  omega
                · -- the second walk stops at the block just made
                  cases fuel with
                  | zero => exact absurd hz (by simp [kmallocNoted])
                  | succ fuel =>
                      have hagain := blockSizeFor_again h8 h48 hwrap
                      have ha : s.heapEnd ≠ 0 := hinv₁.rep.list.seg.1
                      have hsize' : blkSize s₁.mem s.heapEnd = E :=
                        blkSize_of_tagged (b := ⟨s.heapEnd, E, false⟩)
                          (tiles_mem hinv₁.rep.tiles (by simp)).2.2.1 (hinv₁.rep.tags _ (by simp))
                      have hhit : firstFit s₁.mem (blockSizeFor (blockSizeFor t))
                        (fuel + 1) s₁.freeList
                          = .done s.heapEnd := by
                        rw [show s₁.freeList = s.heapEnd from hinv₁.rep.list.head_eq, firstFit,
                          if_neg ha,
                          if_pos (by rw [hsize', hagain]; omega)]
                      rw [kmallocNoted_hit fuel (by omega) ha hhit] at hz
                      exact absurd hz (by simp)
            · rw [kmallocNoted_hit fuel ht h0 hf] at hz
              exact absurd hz (by simp)

/-- A request that wraps is not kept, if it comes to anything. -/
theorem kmalloc_wrapped (hinv : HeapInv base s bs fl) (hbase : 2 * pageSize ≤ base)
    (hroom : s.heapEnd + 4096 * pg.supply s.pages < 2 ^ 64) (ht : t < 2 ^ 64)
    (hw : 2 ^ 64 < t + 32 + 2 * 4096) (fuel : Nat) :
    (∃ z ∈ (kmallocNoted pg fuel s t).log, z < t) ∨ (kmallocNoted pg fuel s t).log = []
      ∧ ∀ s' p, kmalloc pg fuel s t = .done (s', p) → p ≠ 0 → 24 ≤ p ∧ payloadLen s'.mem p < t := by
  have h8192 : 2 * pageSize = 8192 := rfl
  by_cases hnil : (kmallocNoted pg fuel s t).log = []
  · refine Or.inr ⟨hnil, fun s' p hd hp => ?_⟩
    obtain ⟨h8, hsz⟩ := blockSizeFor_wrapped ht hw
    obtain ⟨bs', fl', nb, hinv', hnb, rfl, hend⟩ := kmalloc_unnoted hinv (by omega) (by omega) h8
      (by omega) fuel hnil hd hp
    exact ⟨by omega, payload_small hinv' hbase (by omega) hw hnb⟩
  · have hgrow := growth_wrapped ht hw
    exact Or.inl ⟨_, kmallocNoted_first hinv (by omega) hroom fuel hnil, by omega⟩

theorem payloadLen_lt (m : Mem) (p : Nat) : payloadLen m p < 2 ^ 64 := by
  have h1 : blkSize m (p - headerSize) ≤ read64 m (p - headerSize) := Nat.and_le_left
  have h2 := read64_lt m (p - headerSize)
  unfold payloadLen
  omega

/-- `kcalloc` clears what `kmalloc` returned, behind the header. -/
theorem kcalloc_cases {fuel n size : Nat} {s' : Heap σ} {p : Nat}
    (h : kcalloc pg fuel s n size = .done (s', p)) (hp : p ≠ 0) :
    ∃ s₁, kmalloc pg fuel s (u64 (n * size)) = .done (s₁, p)
      ∧ (24 ≤ p → payloadLen s'.mem p = payloadLen s₁.mem p) := by
  unfold kcalloc at h
  obtain ⟨⟨s₁, p₁⟩, hk, h⟩ := Outcome.bind_eq_done h
  dsimp only at h
  rw [Outcome.pure_eq] at h
  by_cases h0 : p₁ = 0
  · rw [if_neg (by simpa using h0)] at h
    cases h
    exact absurd h0 hp
  · rw [if_pos h0] at h
    cases h
    refine ⟨s₁, hk, fun hlow => ?_⟩
    unfold payloadLen blkSize
    rw [show headerSize = 24 from rfl]
    rw [read64_congr fun y _ hy => memset_out (Or.inl (by omega))]

end Requests

/-- **Allocation sizes.** A request that comes to anything is kept if and only if the bytes asked
for, the tags and two pages fit into the address space, where the bytes asked for are counted
without wrapping. -/
theorem alloc_sizes_iff {pg : Pager σ} {base n₀ : Nat} {c : Client σ} (h : Client.Reachable pg base n₀ c)
    (hbase : 2 * pageSize ≤ base) (fuel : Nat) :
    (∀ size, size < 2 ^ 64 →
        Grants (kmalloc pg fuel c.heap size) (kmallocNoted pg fuel c.heap size).log →
        (Honest size (kmalloc pg fuel c.heap size) (kmallocNoted pg fuel c.heap size).log
          ↔ size + 32 + 2 * pageSize ≤ 2 ^ 64))
      ∧ ∀ n size, n < 2 ^ 64 → size < 2 ^ 64 →
          Grants (kcalloc pg fuel c.heap n size) (kmallocNoted pg fuel c.heap (u64 (n * size))).log →
          (Honest (n * size) (kcalloc pg fuel c.heap n size)
              (kmallocNoted pg fuel c.heap (u64 (n * size))).log
            ↔ n * size + 32 + 2 * pageSize ≤ 2 ^ 64) := by
  obtain ⟨bs, fl, hinv, hroom, _⟩ := h.inv
  have h8192 : 2 * pageSize = 8192 := rfl
  have hpos : 0 < base := by omega
  refine ⟨fun size hsize hgrants => ⟨fun hkept => ?_, fun hfits => ⟨fun s p hd _ => ?_, ?_⟩⟩,
    fun n size _ _ hgrants => ⟨fun hkept => ?_, fun hfits => ⟨fun s p hd hp => ?_, ?_⟩⟩⟩
  · by_contra hw
    -- a sum that wraps makes the heap grow by too little, or hands out a small block
    rcases kmalloc_wrapped hinv hbase hroom hsize (by omega) fuel with ⟨z, hz, hlt⟩ | ⟨hnil, hsmall⟩
    · have := (hkept.2 z hz).2
      omega
    · obtain ⟨s, p, hd, hp⟩ := hgrants.resolve_right (fun hne => hne hnil)
      have h1 := hkept.1 s p hd hp
      have h2 := (hsmall s p hd hp).2
      omega
  · -- a sum that fits is what the block is cut to
    by_cases h0 : size = 0
    · rw [h0]
      exact Nat.zero_le _
    · obtain ⟨bs', fl', nb, ha⟩ := (kmalloc_spec fuel hinv hpos hroom (by omega)
        (by omega)).1 s p hd
      rw [ha.ptr, payloadLen_of_inv ha.inv ((ha.takes.used_iff nb ha.takes.used).mpr (Or.inl rfl))]
      have := ha.fits
      omega
  · -- and the heap grows by at least as much
    exact kmallocNoted_fits hinv (by omega) hroom (by omega) fuel
  · by_contra hw
    by_cases hbig : n * size < 2 ^ 64
    · -- the product fits, so `kcalloc` goes wrong where `kmalloc` does
      rw [u64_of_lt hbig] at hkept hgrants
      rcases kmalloc_wrapped hinv hbase hroom hbig (by omega) fuel
        with ⟨z, hz, hlt⟩ | ⟨hnil, hsmall⟩
      · have := (hkept.2 z hz).2
        omega
      · obtain ⟨s, p, hd, hp⟩ := hgrants.resolve_right (fun hne => hne hnil)
        obtain ⟨s₁, hk, hsame⟩ := kcalloc_cases hd hp
        rw [u64_of_lt hbig] at hk
        have h1 := hkept.1 s p hd hp
        obtain ⟨h2, h3⟩ := hsmall s₁ p hk hp
        rw [hsame h2] at h1
        omega
    · -- the product itself does not fit, and nothing of 64 bits is as large
      rcases hgrants with ⟨s, p, hd, hp⟩ | hne
      · have h1 := hkept.1 s p hd hp
        have h2 := payloadLen_lt s.mem p
        omega
      · have h1 := (hkept.2 _ (kmallocNoted_first hinv (by omega) hroom fuel hne)).2
        rw [alignUpPage_eq] at h1
        have h2 := u64_lt (u64 (blockSizeFor (u64 (n * size)) + pageSize) + 4095)
        omega
  · by_cases h0 : n * size = 0
    · rw [h0]
      exact Nat.zero_le _
    · obtain ⟨bs', fl', nb, ha, _⟩ := (kcalloc_spec fuel hinv hpos hroom (by omega)
        (by omega)).1 s p hd
      rw [ha.ptr, payloadLen_of_inv ha.inv ((ha.takes.used_iff nb ha.takes.used).mpr (Or.inl rfl))]
      have := ha.fits
      omega
  · rw [u64_of_lt (by omega)]
    exact kmallocNoted_fits hinv (by omega) hroom (by omega) fuel

/-- The heap as the kernel makes it, with sixteen frames. -/
def bootHeap : Outcome (Heap Nat) := heapInit Client.zeroedFrames ⟨fun _ => 0xAA, 7, 0, 16⟩ 0xFFFFC00000000000 (4 * 4096)

theorem bootHeap_good : Client.GoodInit Client.zeroedFrames ⟨fun _ => 0xAA, 7, 0,
    16⟩ 0xFFFFC00000000000 (4 * 4096) :=
  ⟨by decide, by decide, by decide, by decide, by decide⟩

/-- More than the four pages are asked for: the heap grows, and the block behind its old end is
granted. -/
theorem alloc_sizes_iff_boot : ∃ s : Heap Nat, bootHeap = .done s
    ∧ (kmallocNoted Client.zeroedFrames 9 s 20000).log.length = 1
    ∧ Honest 20000 (kmalloc Client.zeroedFrames 9 s 20000) (kmallocNoted Client.zeroedFrames 9 s 20000).log := by
  obtain ⟨s, hinit, hp⟩ := Outcome.of_get? (x := bootHeap)
    (f := fun s => (kmalloc Client.zeroedFrames 9 s 20000).get?.map fun x =>
      (x.2, (kmallocNoted Client.zeroedFrames 9 s 20000).log.length))
    (b := some (0xFFFFC00000004018, 1)) (by decide +kernel)
  obtain ⟨⟨s', p⟩, hd, heq⟩ := Outcome.of_get? hp
  obtain ⟨hptr, hlog⟩ : p = 0xFFFFC00000004018
      ∧ (kmallocNoted Client.zeroedFrames 9 s 20000).log.length = 1 := by
    simpa using heq
  have hgrants : Grants (kmalloc Client.zeroedFrames 9 s 20000)
      (kmallocNoted Client.zeroedFrames 9 s 20000).log :=
    Or.inl ⟨s', p, hd, by rw [hptr]; decide⟩
  exact ⟨s, hinit, hlog, ((alloc_sizes_iff (.init bootHeap_good hinit) (by decide) 9).1 20000
    (by decide) hgrants).mpr (by decide)⟩

/-- **All the bytes there are**, less one: the block returned has room for sixteen. -/
theorem alloc_sizes_all : ¬ ∀ (c : Client Nat) (fuel size : Nat),
    Client.Reachable Client.zeroedFrames 0xFFFFC00000000000 (4 * 4096) c → size < 2 ^ 64 →
    Honest size (kmalloc Client.zeroedFrames fuel c.heap size)
      (kmallocNoted Client.zeroedFrames fuel c.heap size).log := by
  intro hall
  obtain ⟨s, hinit, hp⟩ := Outcome.of_get? (x := bootHeap)
    (f := fun s => (kmalloc Client.zeroedFrames 3 s (2 ^ 64 - 1)).get?.map fun x =>
      (x.2, payloadLen x.1.mem x.2))
    (b := some (0xFFFFC00000000018, 16)) (by decide +kernel)
  obtain ⟨⟨s', p⟩, hd, heq⟩ := Outcome.of_get? hp
  obtain ⟨hptr, hlen⟩ : p = 0xFFFFC00000000018 ∧ payloadLen s'.mem p = 16 := by simpa using heq
  have hle := (hall ⟨s, []⟩ 3 (2 ^ 64 - 1) (.init bootHeap_good hinit) (by decide)).1 s' p hd
    (by omega)
  omega

end VnlKernel
