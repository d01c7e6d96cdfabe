import VnlKernel.Proof.HeapOps

/-!
# What each entry point of the allocator does

One specification for each of `heap_expand`, `heap_init`, `kmalloc`, `kcalloc` and
`krealloc`. Nothing above this module looks at a tag or a link again.

The one delicate point is the retry in `kmalloc`. When nothing fits, the heap is
grown and `kmalloc` calls itself with a size that already includes the tags, so
the second attempt asks for 32 bytes more than the first. Growing by a whole page
on top of the request is what makes that attempt succeed, at the first block it
looks at.
-/

namespace VnlKernel

open ByteMem Bits

variable {σ : Type} {base : Nat} {m m' : Mem} {bs : List Blk} {fl : List Nat}

/-! ## Growing -/

section Grow

variable {pg : Pager σ} {msg : String}

/-- The page loop touches the pages it maps, and uses up one unit of supply for each. -/
theorem mapPages_spec : ∀ {n va : Nat} {s s' : Heap σ}, mapPages pg msg n va s = .done s' →
    va + 4096 * pg.supply s.pages < 2 ^ 64 →
    pg.supply s'.pages + n ≤ pg.supply s.pages ∧ s'.freeList = s.freeList
      ∧ s'.heapEnd = s.heapEnd ∧ ∀ y, y < va → s'.mem y = s.mem y
  | 0, va, s, s', h, _ => by
      cases h
      exact ⟨Nat.le_refl _, rfl, rfl, fun _ _ => rfl⟩
  | n + 1, va, s, s', h, hroom => by
      rw [mapPages] at h
      split at h
      · exact absurd h (by simp)
      · next pages frame hmap =>
        have hsup := pg.supply_lt hmap
        rw [u64_of_lt (by unfold pageSize; omega)] at h
        obtain ⟨h1, h2, h3, h4⟩ := mapPages_spec h (by
          show va + pageSize + 4096 * pg.supply pages < 2 ^ 64
          unfold pageSize; omega)
        refine ⟨by show pg.supply s'.pages + (n + 1) ≤ _; dsimp only at h1; omega, h2, h3, ?_⟩
        intro y hy
        rw [h4 y (by omega)]
        exact if_neg (by omega)

theorem mapPages_ends (pg : Pager σ) (msg : String) : ∀ (n va : Nat) (s : Heap σ),
    (mapPages pg msg n va s).Ends
  | 0, _, _ => by simp [mapPages, Outcome.Ends]
  | n + 1, va, s => by
      rw [mapPages]
      split
      · simp [Outcome.Ends]
      · exact mapPages_ends pg msg n _ _

/-- A fresh region at the end of the heap, tagged as one free block. -/
theorem Off.grow {s : Heap σ} (hinv : HeapInv base s bs fl) {c : Blk} (hc : c.addr = s.heapEnd)
    (h8 : 8 ∣ c.size) (h48 : 48 ≤ c.size) (htag : Tagged m' c)
    (hout : ∀ y, y < s.heapEnd → m' y = s.mem y) :
    Off base c.lim m' s.freeList bs c [] fl where
  rep := hinv.rep.grow hc h8 h48 htag hout
  off := by
    intro hm
    obtain ⟨b, hb, he⟩ := hinv.rep.nodes _ hm
    have := tiles_mem hinv.rep.tiles hb
    unfold Blk.lim at this
    omega
  free_iff := fun b hb => hinv.free_iff b (by simpa using hb)

/-- The block a fresh region is turned into. -/
theorem freshBlock_mem {a E : Nat} (h8 : 8 ∣ E) (h48 : 48 ≤ E) (hlim : a + E < 2 ^ 64) :
    Tagged (setPrevFree (setNextFree (setSize m a E false) a 0) a 0) ⟨a, E, false⟩
      ∧ ∀ y, y < a → setPrevFree (setNextFree (setSize m a E false) a 0) a 0 y = m y := by
  constructor
  · exact clearLinks_tagged (b := ⟨a, E, false⟩) h48
      (setSize_tagged (b := ⟨a, E, false⟩) h8 (by show 16 ≤ E; omega) hlim)
  · intro y hy
    rw [clearLinks_out (by omega), setSize_out h8 (by omega) hlim (by omega)]

/-- **`heap_expand`** puts one free block at the end of the heap and at the head of the list. -/
theorem heapExpand_spec {s s' : Heap σ} {extra : Nat} (hinv : HeapInv base s bs fl)
    (hbase : 0 < base) (hroom : s.heapEnd + 4096 * pg.supply s.pages < 2 ^ 64) (hpos : 0 < extra)
    (hextra : extra + 4095 < 2 ^ 64) (h : heapExpand pg s extra = .done s') :
    ∃ E, E = alignUpPage extra ∧ extra ≤ E
      ∧ HeapInv base s' (bs ++ [⟨s.heapEnd, E, false⟩]) (s.heapEnd :: fl)
      ∧ KeepsUsed bs s.mem s'.mem
      ∧ s'.heapEnd + 4096 * pg.supply s'.pages ≤ s.heapEnd + 4096 * pg.supply s.pages := by
  obtain ⟨hle, _, k, hk⟩ := alignUpPage_spec hextra
  unfold heapExpand at h
  dsimp only at h
  generalize alignUpPage extra = E at *
  obtain ⟨s₁, hmap, h⟩ := Outcome.bind_eq_done h
  obtain ⟨hsup, hfl, hhe, hmem⟩ := mapPages_spec hmap hroom
  have hdiv : E / pageSize = k := by
    rw [hk]; exact Nat.mul_div_cancel_left k (by decide)
  rw [hdiv] at hsup
  have h8 : 8 ∣ E := ⟨512 * k, by omega⟩
  have hlim : s.heapEnd + E < 2 ^ 64 := by omega
  rw [hhe, u64_of_lt hlim] at h
  obtain ⟨htag, hout⟩ := freshBlock_mem (m := s₁.mem) (a := s.heapEnd) h8 (by omega) hlim
  generalize setPrevFree (setNextFree (setSize s₁.mem s.heapEnd E false) s.heapEnd 0) s.heapEnd 0
    = m₂ at *
  have hoff := Off.grow hinv (c := ⟨s.heapEnd, E, false⟩) rfl h8
    (by show 48 ≤ E; omega) htag (fun y hy => (hout y hy).trans (hmem y hy))
  rw [← hfl] at hoff
  obtain ⟨hinv', hkeep⟩ := Off.insert
    (s := { s₁ with mem := m₂, heapEnd := s.heapEnd + E }) hoff rfl hbase hlim
  have hs' : s' = freeListInsert { s₁ with mem := m₂, heapEnd := s.heapEnd + E } s.heapEnd := by
    simpa using h.symm
  subst hs'
  refine ⟨E, rfl, hle, hinv', ?_, ?_⟩
  · intro c hc hu y h1 h2
    have hgeo := tiles_mem hinv.rep.tiles hc
    have hy : y < s.heapEnd := by omega
    calc _ = m₂ y := hkeep c (by simpa using hc) hu y h1 h2
      _ = s.mem y := (hout y hy).trans (hmem y hy)
  · rw [freeListInsert_eq]
    show s.heapEnd + E + 4096 * pg.supply s₁.pages ≤ _
    omega

theorem heapExpand_ends (s : Heap σ) (extra : Nat) : (heapExpand pg s extra).Ends := by
  unfold heapExpand
  dsimp only
  have h := mapPages_ends pg "heap: OOM expanding heap" (alignUpPage extra / pageSize) s.heapEnd s
  cases hm : mapPages pg "heap: OOM expanding heap" (alignUpPage extra / pageSize) s.heapEnd s with
  | done s₁ => simp [Outcome.Ends]
  | panic msg => simp [Outcome.Ends]
  | timeout => exact absurd hm h

/-- **`heap_init`** makes the whole initial region one free block. -/
theorem heapInit_spec {s s' : Heap σ} {n : Nat} (hbase : 0 < base)
    (hroom : base + 4096 * pg.supply s.pages < 2 ^ 64) (hpos : 0 < n) (hn : n + 4095 < 2 ^ 64)
    (h : heapInit pg s base n = .done s') :
    ∃ E, HeapInv base s' [⟨base, E, false⟩] [base]
      ∧ s'.heapEnd + 4096 * pg.supply s'.pages < 2 ^ 64 := by
  obtain ⟨hle, _, k, hk⟩ := alignUpPage_spec hn
  unfold heapInit at h
  dsimp only at h
  generalize alignUpPage n = E at *
  obtain ⟨s₁, hmap, h⟩ := Outcome.bind_eq_done h
  obtain ⟨hsup, -, -, -⟩ := mapPages_spec hmap hroom
  have hdiv : E / pageSize = k := by
    rw [hk]; exact Nat.mul_div_cancel_left k (by decide)
  rw [hdiv] at hsup
  dsimp only at hsup
  have h8 : 8 ∣ E := ⟨512 * k, by omega⟩
  have hlim : base + E < 2 ^ 64 := by omega
  rw [u64_of_lt hlim] at h
  obtain ⟨htag, -⟩ := freshBlock_mem (m := s₁.mem) (a := base) h8 (by omega) hlim
  -- the block is alone on its list
  have hnext : read64 (setPrevFree (setNextFree (setSize s₁.mem base E false) base 0) base 0)
      (base + 16) = 0 := by
    unfold setPrevFree setNextFree
    rw [read64_write64_disj (by omega), read64_write64_same (by decide)]
  have hprev : read64 (setPrevFree (setNextFree (setSize s₁.mem base E false) base 0) base 0)
      (base + 8) = 0 := by
    unfold setPrevFree
    rw [read64_write64_same (by decide)]
  generalize setPrevFree (setNextFree (setSize s₁.mem base E false) base 0) base 0 = m₂ at *
  have hs' : s' = { s₁ with mem := m₂, freeList := base, heapEnd := base + E } := by
    simpa using h.symm
  subst hs'
  refine ⟨E, ⟨⟨tiles_single (b := ⟨base, E, false⟩) h8 (by show 48 ≤ E; omega) rfl, ?_, ?_, ?_⟩,
    ?_⟩,
    ?_⟩
  · intro b hb
    rw [List.mem_singleton.mp hb]; exact htag
  · exact Dlist.singleton (x := base) (by omega) (by omega) hprev hnext
  · intro a ha
    exact ⟨_, List.mem_singleton_self _, (List.mem_singleton.mp ha).symm⟩
  · intro b hb
    rw [List.mem_singleton.mp hb]; simp
  · show base + E + 4096 * pg.supply s₁.pages < 2 ^ 64
    omega

end Grow

/-! ## `kmalloc` -/

section Alloc

variable {pg : Pager σ}

/-- What the rounding in `kmalloc` gives, as long as nothing wraps. -/
theorem blockSizeFor_spec {size : Nat} (h : size + 32 + 2 * 4096 ≤ 2 ^ 64) :
    8 ∣ blockSizeFor size ∧ 48 ≤ blockSizeFor size ∧ size + 32 ≤ blockSizeFor size
      ∧ blockSizeFor size + 8191 < 2 ^ 64 := by
  have hu : u64 (size + headerSize + footerSize) = size + 32 := u64_of_lt (by
    unfold headerSize footerSize; omega)
  obtain ⟨h1, h2, k, hk⟩ := alignUp_spec (v := size + 32) (k := 3) (by omega) (by decide)
  unfold blockSizeFor
  rw [hu, show minBlock = 48 from rfl]
  change size + 32 ≤ alignUp (size + 32) 8 at h1
  change alignUp (size + 32) 8 < size + 32 + 8 at h2
  change alignUp (size + 32) 8 = 8 * k at hk
  dsimp only
  generalize alignUp (size + 32) 8 = z at *
  split
  · exact ⟨by decide, by omega, by omega, by omega⟩
  · exact ⟨⟨k, hk⟩, by omega, by omega, by omega⟩

/-- The retry asks for the tags a second time. -/
theorem blockSizeFor_again {z : Nat} (h8 : 8 ∣ z) (hz : 48 ≤ z) (h : z + 8191 < 2 ^ 64) :
    blockSizeFor z = z + 32 := by
  have hu : u64 (z + headerSize + footerSize) = z + 32 := u64_of_lt (by
    unfold headerSize footerSize; omega)
  obtain ⟨h1, h2, k, hk⟩ := alignUp_spec (v := z + 32) (k := 3) (by omega) (by decide)
  unfold blockSizeFor
  rw [hu, show minBlock = 48 from rfl]
  change z + 32 ≤ alignUp (z + 32) 8 at h1
  change alignUp (z + 32) 8 < z + 32 + 8 at h2
  change alignUp (z + 32) 8 = 8 * k at hk
  dsimp only
  generalize alignUp (z + 32) 8 = y at *
  obtain ⟨j, hj⟩ := h8
  rw [if_neg (by omega)]
  omega

/-- What the walk returns is a node of the list that is large enough. -/
theorem firstFit_done {m : Mem} {size h : Nat} : ∀ {fuel p : Nat} {xs : List Nat},
    Seg freeNode m p xs 0 → firstFit m size fuel (xs.headD 0) = .done h → h ≠ 0 →
    h ∈ xs ∧ size ≤ blkSize m h
  | 0, _, _, _, hf, _ => absurd hf (by simp [firstFit])
  | fuel + 1, p, [], _, hf, h0 => by
      simp [firstFit] at hf
      omega
  | fuel + 1, p, x :: xs, ⟨hx, _, hn, hseg⟩, hf, h0 => by
      rw [firstFit, List.headD_cons, if_neg hx] at hf
      split at hf
      · next hfit =>
        cases hf
        exact ⟨List.mem_cons_self, hfit⟩
      · rw [show nextFree m x = xs.headD 0 from hn] at hf
        obtain ⟨h1, h2⟩ := firstFit_done hseg hf h0
        exact ⟨List.mem_cons_of_mem _ h1, h2⟩

/-- The walk ends: the list does. -/
theorem firstFit_ends {m : Mem} {size : Nat} : ∀ {fuel p : Nat} {xs : List Nat},
    Seg freeNode m p xs 0 → xs.length < fuel → ∃ h, firstFit m size fuel (xs.headD 0) = .done h
  | fuel + 1, p, [], _, _ => ⟨0, by simp [firstFit]⟩
  | fuel + 1, p, x :: xs, ⟨hx, _, hn, hseg⟩, hlen => by
      rw [firstFit, List.headD_cons, if_neg hx]
      split
      · exact ⟨x, rfl⟩
      · rw [show nextFree m x = xs.headD 0 from hn]
        exact firstFit_ends hseg (by simpa using hlen)

/-- What a successful `kmalloc` of `size > 0` bytes achieves. -/
structure Allocates (pg : Pager σ) (base : Nat) (s : Heap σ) (bs : List Blk) (size : Nat)
    (s' : Heap σ) (p : Nat) (bs' : List Blk) (fl' : List Nat) (nb : Blk) : Prop where
  inv : HeapInv base s' bs' fl'
  takes : Takes s.mem bs s'.mem bs' nb
  ptr : p = nb.addr + 24
  fits : size + 32 ≤ nb.size
  room : s'.heapEnd + 4096 * pg.supply s'.pages ≤ s.heapEnd + 4096 * pg.supply s.pages

/-- A hit: the walk found a block. -/
theorem kmalloc_hit (pg : Pager σ) {s : Heap σ} {h : Nat} (size : Nat) (hinv : HeapInv base s bs fl)
    (hbase : 0 < base)
    (hend : s.heapEnd < 2 ^ 64) (hh : h ∈ fl) (hfit : blockSizeFor size ≤ blkSize s.mem h)
    (h8 : 8 ∣ blockSizeFor size) (h48 : 48 ≤ blockSizeFor size)
    (hsz : size + 32 ≤ blockSizeFor size) :
    ∃ s' p bs' fl' nb, takeBlock s h (blockSizeFor size) = (s', p)
      ∧ Allocates pg base s bs size s' p bs' fl' nb := by
  obtain ⟨b, hb, rfl⟩ := hinv.rep.nodes h hh
  have hgeo := tiles_mem hinv.rep.tiles hb
  rw [blkSize_of_tagged hgeo.2.2.1 (hinv.rep.tags b hb)] at hfit
  obtain ⟨s', bs', fl', nb, h1, h2, h3, h4, h5, h6⟩ := takeBlock_spec hinv hbase hend hb
    ((hinv.free_iff b hb).mp hh) h8 h48 hfit
  exact ⟨s', _, bs', fl', nb, h1, h2, h3, rfl, by omega, by rw [h5, h6]⟩

/-- **The retry succeeds at once**: growing put a block at the head of the list that is a page
larger than the request, and the tags counted twice take 32 bytes of it. -/
theorem kmalloc_retry {s : Heap σ} {a E z fuel : Nat} (hinv : HeapInv base s bs (a :: fl))
    (hE : (⟨a, E, false⟩ : Blk) ∈ bs) (h8 : 8 ∣ z) (h48 : 48 ≤ z) (hz : z + 8191 < 2 ^ 64)
    (hfit : z + 32 ≤ E) : kmalloc pg (fuel + 1) s z = .done (takeBlock s a (blockSizeFor z)) := by
  have ha : a ≠ 0 := hinv.rep.list.seg.1
  have hhead : s.freeList = a := hinv.rep.list.head_eq
  have hsize : blkSize s.mem a = E :=
    blkSize_of_tagged (b := ⟨a, E, false⟩) (tiles_mem hinv.rep.tiles hE).2.2.1 (hinv.rep.tags _ hE)
  rw [kmalloc, if_neg (by omega)]
  dsimp only
  rw [hhead, firstFit, if_neg ha, if_pos (by rw [hsize, blockSizeFor_again h8 h48 hz]; exact hfit)]
  simp [ha]

/-- An allocation after the heap has grown. -/
theorem Allocates.after_expand {s s₁ s' : Heap σ} {size z p E : Nat} {bs' : List Blk}
    {fl' : List Nat} {nb : Blk} (h : Allocates pg base s₁
      (bs ++ [⟨s.heapEnd, E, false⟩]) z s' p bs' fl' nb)
    (hkeep : KeepsUsed bs s.mem s₁.mem) (hz : size ≤ z)
    (hroom : s₁.heapEnd + 4096 * pg.supply s₁.pages ≤ s.heapEnd + 4096 * pg.supply s.pages) :
    Allocates pg base s bs size s' p bs' fl' nb where
  inv := h.inv
  takes := {
    used := h.takes.used
    fresh := fun hm => h.takes.fresh (List.mem_append_left _ hm)
    used_iff := fun b hb => by
      rw [h.takes.used_iff b hb, @used_mem_iff bs [] _ rfl b hb, List.append_nil]
    keeps := hkeep.trans fun c hc => h.takes.keeps c (List.mem_append_left _ hc) }
  ptr := h.ptr
  fits := by have := h.fits; omega
  room := Nat.le_trans h.room hroom

/-- **`kmalloc` is correct**: with a size that does not wrap and fuel for the walk it returns a
new block or halts the machine for want of memory, and it never runs on. -/
theorem kmalloc_spec (fuel : Nat) {s : Heap σ} {size : Nat} (hinv : HeapInv base s bs fl)
    (hbase : 0 < base)
    (hroom : s.heapEnd + 4096 * pg.supply s.pages < 2 ^ 64) (hpos : 0 < size)
    (hsize : size + 32 + 2 * 4096 ≤ 2 ^ 64) :
    (∀ s' p, kmalloc pg fuel s size = .done (s', p) →
      ∃ bs' fl' nb, Allocates pg base s bs size s' p bs' fl' nb)
    ∧ (fl.length + 2 ≤ fuel → (kmalloc pg fuel s size).Ends) := by
  obtain ⟨h8, h48, hsz, hwrap⟩ := blockSizeFor_spec hsize
  cases fuel with
  | zero => exact ⟨fun s' p h => absurd h (by simp [kmalloc]), fun h => absurd h (by omega)⟩
  | succ fuel =>
    have hseg := hinv.rep.list.seg
    have hhead := hinv.rep.list.head_eq
    have hext : u64 (blockSizeFor size + pageSize) = blockSizeFor size + 4096 :=
      u64_of_lt (by unfold pageSize; omega)
    rw [kmalloc, if_neg (by omega)]
    dsimp only
    rw [hext, hhead]
    cases hff : firstFit s.mem (blockSizeFor size) (fuel + 1) (fl.headD 0) with
    | panic msg => exact ⟨fun s' p h => absurd h (by simp), fun _ => by simp [Outcome.Ends]⟩
    | timeout =>
        refine ⟨fun s' p h => absurd h (by simp), fun hfuel => ?_⟩
        -- the fuel is enough for the walk over the list
        obtain ⟨h, hd⟩ : ∃ h, firstFit s.mem (blockSizeFor size) (fuel + 1) (fl.headD 0)
            = .done h :=
          firstFit_ends hseg (by omega)
        rw [hff] at hd
        exact absurd hd (by simp)
    | done h =>
        rw [Outcome.bind_done]
        by_cases h0 : h = 0
        · -- nothing fits: grow, and try again
          rw [if_neg (by simpa using h0)]
          cases hex : heapExpand pg s (blockSizeFor size + 4096) with
          | panic msg => exact ⟨fun s' p h => absurd h (by simp), fun _ => by simp [Outcome.Ends]⟩
          | timeout => exact absurd hex (heapExpand_ends s _)
          | done s₁ =>
              -- the new block is free and large enough
              obtain ⟨E, _, hE, hinv₁, hkeep, hroom₁⟩ := heapExpand_spec hinv hbase hroom (by omega)
                (by omega) hex
              rw [Outcome.bind_done]
              cases fuel with
              | zero => exact ⟨fun s' p h => absurd h (by simp [kmalloc]), fun h => absurd h (by omega)⟩
              | succ fuel =>
                rw [kmalloc_retry (E := E) hinv₁ (by simp) h8 h48 hwrap (by omega)]
                refine ⟨fun s' p hd => ?_, fun _ => by simp [Outcome.Ends]⟩
                have h2 := blockSizeFor_again h8 h48 hwrap
                obtain ⟨s'', p', bs', fl', nb, he, ha⟩ := kmalloc_hit pg
                  (blockSizeFor size) hinv₁ hbase (by omega) List.mem_cons_self
                  (by
                    rw [blkSize_of_tagged (b := ⟨s.heapEnd, E, false⟩)
                      (tiles_mem hinv₁.rep.tiles (by simp)).2.2.1 (hinv₁.rep.tags _ (by simp)), h2]
                    show blockSizeFor size + 32 ≤ E
                    omega)
                  (by omega) (by omega) (by omega)
                rw [he] at hd
                cases hd
                exact ⟨bs', fl', nb, ha.after_expand hkeep (by omega) hroom₁⟩
        · -- a block of the list is large enough
          rw [if_pos h0]
          refine ⟨fun s' p hd => ?_, fun _ => by simp [Outcome.Ends]⟩
          obtain ⟨hm, hfit⟩ := firstFit_done hseg hff h0
          obtain ⟨s'', p', bs', fl', nb, he, ha⟩ := kmalloc_hit pg size hinv hbase (by omega) hm
            hfit h8 h48 hsz
          rw [he] at hd
          cases hd
          exact ⟨bs', fl', nb, ha⟩

end Alloc

/-! ## The callers of `kmalloc`

`kcalloc` and `krealloc` also store into the payload of the block they were given.
Neither tags nor links live there, so the invariant does not notice.
-/

section Payload

variable {pg : Pager σ} {s : Heap σ} {b : Blk}

/-- A store into the payload of a used block. -/
theorem HeapInv.store (m' : Mem) (hinv : HeapInv base s bs fl) (hb : b ∈ bs) (hu : b.used = true)
    (hout : ∀ y, y < b.addr + 24 ∨ b.lim - 8 ≤ y → m' y = s.mem y) :
    HeapInv base { s with mem := m' } bs fl
      ∧ ∀ c ∈ bs, c ≠ b → ∀ y, c.addr ≤ y → y < c.lim → m' y = s.mem y := by
  have hgeo := tiles_mem hinv.rep.tiles hb
  have hlim : b.lim = b.addr + b.size := rfl
  constructor
  · obtain ⟨pre, post, rfl⟩ := List.append_of_mem hb
    have ht : Tagged m' b := by
      obtain ⟨h1, h2⟩ := hinv.rep.tags b hb
      constructor
      · rw [read64_congr fun y _ _ => hout y (by omega)]
        exact h1
      · rw [read64_congr fun y _ _ => hout y (by omega)]
        exact h2
    exact Off.close (s := { s with mem := m' })
      ((Off.of_used hinv hu).retag rfl rfl ht fun y _ => hout y (by omega)) hu
  · intro c hc hne y h1 h2
    have := tiles_outside hinv.rep.tiles hc hb hne h1 h2
    exact hout y (by omega)

/-- **`kcalloc` is correct**: as `kmalloc`, with every byte asked for cleared. -/
theorem kcalloc_spec (fuel : Nat) {n size : Nat} (hinv : HeapInv base s bs fl) (hbase : 0 < base)
    (hroom : s.heapEnd + 4096 * pg.supply s.pages < 2 ^ 64) (hpos : 0 < n * size)
    (hsize : n * size + 32 + 2 * 4096 ≤ 2 ^ 64) :
    (∀ s' p, kcalloc pg fuel s n size = .done (s', p) →
      ∃ bs' fl' nb, Allocates pg base s bs (n * size) s' p bs' fl' nb
        ∧ ∀ i, i < n * size → s'.mem (p + i) = 0)
    ∧ (fl.length + 2 ≤ fuel → (kcalloc pg fuel s n size).Ends) := by
  obtain ⟨hd, he⟩ := kmalloc_spec fuel hinv hbase hroom hpos hsize
  unfold kcalloc
  dsimp only
  rw [u64_of_lt (by omega)]
  cases hk : kmalloc pg fuel s (n * size) with
  | panic msg => exact ⟨fun s' p h => absurd h (by simp), fun _ => by simp [Outcome.Ends]⟩
  | timeout => exact ⟨fun s' p h => absurd h (by simp), fun hf => absurd hk (he hf)⟩
  | done r =>
      obtain ⟨s₁, p₁⟩ := r
      obtain ⟨bs', fl', nb, ha⟩ := hd s₁ p₁ hk
      refine ⟨fun s' p h => ?_, fun _ => by simp [Outcome.Ends]⟩
      have hp : p₁ ≠ 0 := by have := ha.ptr; omega
      rw [Outcome.bind_done] at h
      simp only [Outcome.pure_eq, Outcome.done.injEq] at h
      rw [if_pos hp] at h
      cases h
      have hnb : nb ∈ bs' := (ha.takes.used_iff nb ha.takes.used).mpr (Or.inl rfl)
      have hptr := ha.ptr
      have hfits := ha.fits
      have hnl : nb.lim = nb.addr + nb.size := rfl
      obtain ⟨hinv', hkeep⟩ := ha.inv.store (memset s₁.mem p₁ 0 (n * size)) hnb ha.takes.used
        (fun y hy => memset_out (by omega))
      refine ⟨bs', fl', nb, ⟨hinv', ⟨ha.takes.used, ha.takes.fresh, ha.takes.used_iff, ?_⟩, hptr,
        hfits, ha.room⟩, fun i hi => memset_in (by omega) (by omega)⟩
      refine ha.takes.keeps.trans fun c hc hu => ?_
      exact hkeep c ((ha.takes.used_iff c hu).mpr (Or.inr hc)) fun h => ha.takes.fresh (h ▸ hc)

/-- What a successful `krealloc` of block `b` to `size > 0` bytes achieves. -/
structure Resizes (pg : Pager σ) (base : Nat) (s : Heap σ) (bs : List Blk) (b : Blk) (size : Nat)
    (s' : Heap σ) (p : Nat) (bs' : List Blk) (fl' : List Nat) (nb : Blk) : Prop where
  inv : HeapInv base s' bs' fl'
  used : nb.used = true
  fresh : nb ∉ bs
  used_iff : ∀ x : Blk, x.used = true → (x ∈ bs' ↔ x = nb ∨ (x ∈ bs ∧ x ≠ b))
  keeps : ∀ c ∈ bs, c.used = true → c ≠ b → ∀ y, c.addr ≤ y → y < c.lim → s'.mem y = s.mem y
  ptr : p = nb.addr + 24
  fits : size + 32 ≤ nb.size
  /-- The old contents, as far as both blocks reach. -/
  copied : ∀ i, i < b.size - 32 → i < size → s'.mem (p + i) = s.mem (b.addr + 24 + i)
  room : s'.heapEnd + 4096 * pg.supply s'.pages ≤ s.heapEnd + 4096 * pg.supply s.pages

/-- What `krealloc` leaves in the block: behind what it copies lies what `kmalloc` left there. -/
def Found (pg : Pager σ) (fuel : Nat) (s : Heap σ) (b : Blk) (size : Nat) (s' : Heap σ) (p : Nat) : Prop :=
  ∃ s₁, kmalloc pg fuel s size = .done (s₁, p)
    ∧ ∀ i, i < size → s'.mem (p + i) = if i < b.size - 32 then s.mem (b.addr + 24 + i) else s₁.mem (p + i)

/-- `krealloc` on a block in use, with every byte of the new one. -/
theorem krealloc_found (fuel : Nat) {size : Nat} (hinv : HeapInv base s bs fl) (hbase : 0 < base)
    (hroom : s.heapEnd + 4096 * pg.supply s.pages < 2 ^ 64) (hb : b ∈ bs) (hu : b.used = true)
    (hpos : 0 < size) (hsize : size + 32 + 2 * 4096 < 2 ^ 64) :
    (∀ s' p, krealloc pg fuel s (b.addr + 24) size = .done (s', p) →
      (∃ bs' fl' nb, Resizes pg base s bs b size s' p bs' fl' nb) ∧ Found pg fuel s b size s' p)
    ∧ (fl.length + 2 ≤ fuel → (krealloc pg fuel s (b.addr + 24) size).Ends) := by
  obtain ⟨hd, he⟩ := kmalloc_spec fuel hinv hbase hroom hpos (Nat.le_of_lt hsize)
  have hgeo := tiles_mem hinv.rep.tiles hb
  have hlim : b.lim = b.addr + b.size := rfl
  have hh : sub64 (b.addr + 24) headerSize = b.addr := by
    rw [sub64_of_le (by unfold headerSize; omega) (by omega)]
    exact Nat.add_sub_cancel _ _
  have hold : sub64 (sub64 b.size headerSize) footerSize = b.size - 32 := by
    have hz : b.size < 2 ^ 64 := by omega
    rw [sub64_of_le (a := b.size) (by unfold headerSize; omega) hz,
      sub64_of_le (by unfold headerSize footerSize; omega) (by omega)]
    unfold headerSize footerSize
    omega
  unfold krealloc Found
  rw [if_neg (by omega)]
  dsimp only
  rw [hh, blkSize_of_tagged hgeo.2.2.1 (hinv.rep.tags b hb), hold]
  cases hk : kmalloc pg fuel s size with
  | panic msg => exact ⟨fun s' p h => absurd h (by simp), fun _ => by simp [Outcome.Ends]⟩
  | timeout => exact ⟨fun s' p h => absurd h (by simp), fun hf => absurd hk (he hf)⟩
  | done r =>
      obtain ⟨s₁, p₁⟩ := r
      obtain ⟨bs₁, fl₁, nb, ha⟩ := hd s₁ p₁ hk
      have hptr := ha.ptr
      have hfits := ha.fits
      have hnl : nb.lim = nb.addr + nb.size := rfl
      have hnb : nb ∈ bs₁ := (ha.takes.used_iff nb ha.takes.used).mpr (Or.inl rfl)
      have hb₁ : b ∈ bs₁ := (ha.takes.used_iff b hu).mpr (Or.inr hb)
      have hne : nb ≠ b := fun h => ha.takes.fresh (h ▸ hb)
      rw [Outcome.bind_done]
      dsimp only
      rw [if_neg (by omega)]
      -- the copy stays inside the payload of the new block, and the old one is still intact
      have hmin : (if b.size - 32 < size then b.size - 32 else size) = min (b.size - 32) size := by
        split <;> omega
      rw [hmin]
      obtain ⟨hinv₂, hkeep₂⟩ := ha.inv.store (memcpy s₁.mem p₁ (b.addr + 24)
        (min (b.size - 32) size)) hnb ha.takes.used (fun y hy => memcpy_out _ _ _ (by omega))
      have hcopy : ∀ i, i < b.size - 32 → i < size →
          memcpy s₁.mem p₁ (b.addr + 24) (min (b.size - 32) size) (p₁ + i)
            = s.mem (b.addr + 24 + i) := by
        intro i h1 h2
        have hap := tiles_apart ha.inv.rep.tiles hnb hb₁
        rw [memcpy_in _ _ _ (by omega) (by
          rcases hap with h | h | h
          · exact absurd h hne
          · left; omega
          · right; omega)]
        exact ha.takes.keeps b hb hu _ (by omega) (by omega)
      have hbehind : ∀ i, b.size - 32 ≤ i → memcpy s₁.mem p₁ (b.addr + 24) (min (b.size - 32) size)
        (p₁ + i)
          = s₁.mem (p₁ + i) := fun i hi => memcpy_out _ _ _ (by omega)
      generalize memcpy s₁.mem p₁ (b.addr + 24) (min (b.size - 32) size) = m₂ at *
      obtain ⟨s₃, bs₃, fl₃, hf, hinv₃, hdrop, hend₃, hpages₃⟩ := kfree_spec hinv₂ hbase
        (by have := ha.room; show s₁.heapEnd < _; omega) hb₁ hu
      rw [hf, Outcome.bind_done]
      refine ⟨fun s' p h => ?_, fun _ => by simp [Outcome.Ends]⟩
      simp only [Outcome.pure_eq, Outcome.done.injEq] at h
      cases h
      -- giving the old block back leaves the new one alone
      have hkept : ∀ i, i < size → s₃.mem (p₁ + i) = m₂ (p₁ + i) := fun i hi =>
        hdrop.keeps nb hnb ha.takes.used hne _ (by omega) (by omega)
      refine ⟨⟨bs₃, fl₃, nb, hinv₃, ha.takes.used, ha.takes.fresh, ?_, ?_, hptr, hfits, ?_, ?_⟩,
        s₁, rfl, ?_⟩
      · intro x hx
        rw [hdrop.used_iff x hx, ha.takes.used_iff x hx, or_and_right]
        constructor
        · rintro (⟨h, _⟩ | h)
          · exact Or.inl h
          · exact Or.inr h
        · rintro (h | h)
          · exact Or.inl ⟨h, h ▸ hne⟩
          · exact Or.inr h
      · intro c hc hcu hcb y h1 h2
        have hc₁ : c ∈ bs₁ := (ha.takes.used_iff c hcu).mpr (Or.inr hc)
        rw [hdrop.keeps c hc₁ hcu hcb y h1 h2]
        calc m₂ y = s₁.mem y := hkeep₂ c hc₁ (fun h => ha.takes.fresh (h ▸ hc)) y h1 h2
          _ = s.mem y := ha.takes.keeps c hc hcu y h1 h2
      · intro i h1 h2
        rw [hkept i h2]
        exact hcopy i h1 h2
      · rw [hend₃, hpages₃]
        exact ha.room
      · intro i hi
        rw [hkept i hi]
        split
        · next h1 => exact hcopy i h1 hi
        · next h1 => exact hbehind i (by omega)

/-- **`krealloc` is correct** on a block in use. -/
theorem krealloc_spec (fuel : Nat) {size : Nat} (hinv : HeapInv base s bs fl) (hbase : 0 < base)
    (hroom : s.heapEnd + 4096 * pg.supply s.pages < 2 ^ 64) (hb : b ∈ bs) (hu : b.used = true)
    (hpos : 0 < size) (hsize : size + 32 + 2 * 4096 < 2 ^ 64) :
    (∀ s' p, krealloc pg fuel s (b.addr + 24) size = .done (s', p) →
      ∃ bs' fl' nb, Resizes pg base s bs b size s' p bs' fl' nb)
    ∧ (fl.length + 2 ≤ fuel → (krealloc pg fuel s (b.addr + 24) size).Ends) := by
  obtain ⟨hdone, hends⟩ := krealloc_found fuel hinv hbase hroom hb hu hpos hsize
  exact ⟨fun s' p h => (hdone s' p h).1, hends⟩

end Payload

end VnlKernel
