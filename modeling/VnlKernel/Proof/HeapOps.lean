import VnlKernel.Proof.HeapEdits

/-!
# Taking a block and giving one back

The two halves of the allocator that work on blocks it already has, in terms of
the block list: taking makes one more block used (`Takes`), `kfree` makes one
fewer (`Drops`), and neither moves a byte of any other block in use.
-/

namespace VnlKernel

open ByteMem Bits

variable {σ : Type} {base e : Nat} {m m' : Mem} {head : Nat} {bs bs' : List Blk} {fl : List Nat}

/-- Every used block of `cs` holds in `m'` what it held in `m`. -/
def KeepsUsed (cs : List Blk) (m m' : Mem) : Prop :=
  ∀ c ∈ cs, c.used = true → ∀ y, c.addr ≤ y → y < c.lim → m' y = m y

theorem KeepsUsed.trans {cs : List Blk} {m₁ m₂ m₃ : Mem} (h : KeepsUsed cs m₁ m₂)
    (h' : KeepsUsed cs m₂ m₃) : KeepsUsed cs m₁ m₃ := fun c hc hu y h1 h2 =>
  (h' c hc hu y h1 h2).trans (h c hc hu y h1 h2)

/-- `nb` is newly in use, and nothing that was in use before is disturbed. -/
structure Takes (m : Mem) (bs : List Blk) (m' : Mem) (bs' : List Blk) (nb : Blk) : Prop where
  used : nb.used = true
  fresh : nb ∉ bs
  used_iff : ∀ b : Blk, b.used = true → (b ∈ bs' ↔ b = nb ∨ b ∈ bs)
  keeps : KeepsUsed bs m m'

/-- `ob` is no longer in use, and nothing else that was in use is disturbed. -/
structure Drops (m : Mem) (bs : List Blk) (m' : Mem) (bs' : List Blk) (ob : Blk) : Prop where
  used_iff : ∀ b : Blk, b.used = true → (b ∈ bs' ↔ b ∈ bs ∧ b ≠ ob)
  keeps : ∀ b ∈ bs, b.used = true → b ≠ ob → ∀ y, b.addr ≤ y → y < b.lim → m' y = m y

/-! ## One block off the list

Inside a call the invariant is short of exactly one block: the one in hand, which
is not on the free list whatever its flag says.
-/

/-- The heap invariant, except that `b` is not on the free list. -/
structure Off (base e : Nat) (m : Mem) (head : Nat) (pre : List Blk) (b : Blk) (post : List Blk)
    (fl : List Nat) : Prop where
  rep : Rep base e m head (pre ++ b :: post) fl
  off : b.addr ∉ fl
  free_iff : ∀ c ∈ pre ++ post, c.addr ∈ fl ↔ c.used = false

section Hand

variable {pre post : List Blk} {b : Blk}

theorem mem_of_mem_rest {c : Blk} (h : c ∈ pre ++ post) : c ∈ pre ++ b :: post := by
  rcases List.mem_append.mp h with h | h
  · exact List.mem_append_left _ h
  · exact List.mem_append_right _ (List.mem_cons_of_mem _ h)

/-- The other blocks lie on one side or the other. -/
theorem Tiles.side (hT : Tiles base (pre ++ b :: post) e) {c : Blk} (hc : c ∈ pre ++ post) :
    c.lim ≤ b.addr ∨ b.lim ≤ c.addr := by
  obtain ⟨hpre, _, _, hpost⟩ := tiles_split hT
  rcases List.mem_append.mp hc with hc | hc
  · exact Or.inl (tiles_mem hpre hc).2.1
  · exact Or.inr (tiles_mem hpost hc).1

theorem Tiles.rest_addr_ne (hT : Tiles base (pre ++ b :: post) e) {c : Blk}
    (hc : c ∈ pre ++ post) : c.addr ≠ b.addr := by
  have h1 := hT.side hc
  have h2 := tiles_mem hT (mem_of_mem_rest (b := b) hc)
  have h3 := tiles_split hT
  unfold Blk.lim at h1
  omega

/-- Stores inside the block in hand keep the others. -/
theorem Off.keeps_of_out (h : Off base e m head pre b post fl)
    (hout : ∀ y, y < b.addr ∨ b.lim ≤ y → m' y = m y) : KeepsUsed (pre ++ post) m m' := by
  intro c hc _ y h1 h2
  have := h.rep.tiles.side hc
  exact hout y (by omega)

/-- A free block is taken off the list. -/
theorem Off.of_free {l r : List Nat} {s : Heap σ}
    (hinv : HeapInv base s (pre ++ b :: post) (l ++ b.addr :: r)) :
    Off base s.heapEnd (unlink freeNode s.mem s.freeList b.addr).1
        (unlink freeNode s.mem s.freeList b.addr).2 pre b post (l ++ r)
      ∧ KeepsUsed (pre ++ post) s.mem (unlink freeNode s.mem s.freeList b.addr).1 := by
  have hnd := List.nodup_cons.mp (hinv.rep.list.nodup.perm List.perm_middle)
  refine ⟨⟨hinv.rep.remove, hnd.1, fun c hc => ?_⟩, fun c hc hu => ?_⟩
  · rw [← hinv.free_iff c (mem_of_mem_rest hc)]
    simp [hinv.rep.tiles.rest_addr_ne hc]
  · refine hinv.rep.remove_keeps (mem_of_mem_rest hc) ?_
    rw [hinv.free_iff c (mem_of_mem_rest hc), hu]
    decide

/-- A used block is not on the list to begin with. -/
theorem Off.of_used {s : Heap σ} (hinv : HeapInv base s (pre ++ b :: post) fl)
    (hu : b.used = true) : Off base s.heapEnd s.mem s.freeList pre b post fl where
  rep := hinv.rep
  off := by rw [hinv.free_iff b (by simp), hu]; decide
  free_iff := fun c hc => hinv.free_iff c (mem_of_mem_rest hc)

/-- The block in hand is cut into a used one and another to hold. -/
theorem Off.split (h : Off base e m head pre b post fl) {n c : Blk} (hn : n.addr = b.addr)
    (hnu : n.used = true) (hc : c.addr = n.lim) (hcl : c.lim = b.lim) (hn8 : 8 ∣ n.size)
    (hn48 : 48 ≤ n.size) (hc8 : 8 ∣ c.size) (hc48 : 48 ≤ c.size) (hnt : Tagged m' n)
    (hct : Tagged m' c) (hout : ∀ y, y < b.addr ∨ b.lim ≤ y → m' y = m y) :
    Off base e m' head (pre ++ [n]) c post fl := by
  obtain ⟨hpre, _, _, hpost⟩ := tiles_split h.rep.tiles
  have hcs : Tiles b.addr [n, c] b.lim :=
    ⟨hn, hn8, hn48, by unfold Blk.lim at hc; omega, hc8, hc48, by
      show b.addr + n.size + c.size = b.lim
      unfold Blk.lim at *; omega⟩
  have hrep : Rep base e m' head (pre ++ ([n, c] ++ post)) fl := by
    refine Rep.replace [b] [n, c] h.rep hpre hcs hpost ?_ ?_ hout
    · intro x hx
      rcases List.mem_cons.mp hx with rfl | hx
      · exact hnt
      · rw [List.mem_singleton.mp hx]; exact hct
    · intro x hx
      rw [List.mem_singleton.mp hx]; exact h.off
  refine ⟨by simpa using hrep, ?_, ?_⟩
  · -- the second part starts inside `b`, where no listed block does
    intro hcf
    obtain ⟨d, hd, he⟩ := h.rep.nodes _ hcf
    have hd48 := (tiles_mem h.rep.tiles hd).2.2.2
    rcases tiles_apart h.rep.tiles hd (by simp : b ∈ pre ++ b :: post) with rfl | h1 | h1
    · unfold Blk.lim at *; omega
    · unfold Blk.lim at *; omega
    · unfold Blk.lim at *; omega
  · intro x hx
    rcases List.mem_append.mp hx with hx | hx
    · rcases List.mem_append.mp hx with hx | hx
      · exact h.free_iff x (List.mem_append_left _ hx)
      · rw [List.mem_singleton.mp hx, hn, hnu]
        exact ⟨fun hf => absurd hf h.off, fun hf => absurd hf (by decide)⟩
    · exact h.free_iff x (List.mem_append_right _ hx)

/-- The block in hand changes its tag. -/
theorem Off.retag (h : Off base e m head pre b post fl) {n : Blk} (ha : n.addr = b.addr)
    (hs : n.size = b.size) (ht : Tagged m' n) (hout : ∀ y, y < b.addr ∨ b.lim ≤ y → m' y = m y) :
    Off base e m' head pre n post fl := by
  obtain ⟨hpre, h8, h48, hpost⟩ := tiles_split h.rep.tiles
  refine ⟨?_, ha ▸ h.off, h.free_iff⟩
  refine Rep.replace [b] [n] h.rep hpre ?_ hpost ?_ ?_ hout
  · exact ⟨ha, hs ▸ h8, hs ▸ h48, by rw [hs]; rfl⟩
  · intro x hx
    rw [List.mem_singleton.mp hx]; exact ht
  · intro x hx
    rw [List.mem_singleton.mp hx]; exact h.off

/-- A used block in hand needs nothing more. -/
theorem Off.close {s : Heap σ} (h : Off base s.heapEnd s.mem s.freeList pre b post fl)
    (hu : b.used = true) : HeapInv base s (pre ++ b :: post) fl where
  rep := h.rep
  free_iff := by
    intro c hc
    rcases List.mem_append.mp hc with hc | hc
    · exact h.free_iff c (List.mem_append_left _ hc)
    · rcases List.mem_cons.mp hc with rfl | hc
      · rw [hu]; exact ⟨fun hf => absurd hf h.off, fun hf => absurd hf (by decide)⟩
      · exact h.free_iff c (List.mem_append_right _ hc)

/-- **A free block in hand goes on the list**, which restores the invariant. -/
theorem Off.insert {s : Heap σ} (h : Off base s.heapEnd s.mem s.freeList pre b post fl)
    (hf : b.used = false) (hbase : 0 < base) (hend : s.heapEnd < 2 ^ 64) :
    HeapInv base (freeListInsert s b.addr) (pre ++ b :: post) (b.addr :: fl)
      ∧ KeepsUsed (pre ++ post) s.mem (freeListInsert s b.addr).mem := by
  have hb : b ∈ pre ++ b :: post := by simp
  rw [freeListInsert_eq]
  refine ⟨⟨h.rep.push hb h.off hbase hend, fun c hc => ?_⟩, fun c hc hu => ?_⟩
  · by_cases hcb : c = b
    · subst hcb; simp [hf]
    · have hcr : c ∈ pre ++ post := by simpa [hcb] using hc
      rw [List.mem_cons, or_iff_right (h.rep.tiles.rest_addr_ne hcr)]
      exact h.free_iff c hcr
  · refine h.rep.push_keeps hb (mem_of_mem_rest hc) ?_
    rw [List.mem_cons, or_iff_right (h.rep.tiles.rest_addr_ne hc), h.free_iff c hc, hu]
    decide

/-- **The block in hand swallows the free block after it.** -/
theorem Off.absorb {n c : Blk} {l r : List Nat}
    (h : Off base e m head pre b (n :: post) (l ++ n.addr :: r)) (ha : c.addr = b.addr)
    (hs : c.size = b.size + n.size) (ht : Tagged m' c)
    (hout : ∀ y, y < c.addr ∨ c.lim ≤ y → m' y = (unlink freeNode m head n.addr).1 y) :
    Off base e m' (unlink freeNode m head n.addr).2 pre c post (l ++ r)
      ∧ KeepsUsed (pre ++ post) m m' := by
  obtain ⟨hpre, hb8, hb48, hn, hn8, hn48, hpost⟩ := tiles_split h.rep.tiles
  have hlim : c.lim = b.lim + n.size := by unfold Blk.lim; omega
  have hnd := List.nodup_cons.mp (h.rep.list.nodup.perm List.perm_middle)
  have hboff : b.addr ∉ l ++ r := fun hb => h.off (by
    rcases List.mem_append.mp hb with hb | hb
    · exact List.mem_append_left _ hb
    · exact List.mem_append_right _ (List.mem_cons_of_mem _ hb))
  have hcs : Tiles b.addr [c] c.lim :=
    ⟨ha, hs ▸ Nat.dvd_add hb8 hn8, by omega, by rw [← ha]; rfl⟩
  -- the blocks that stay are on neither side of the cut
  have hrest : ∀ x ∈ pre ++ post, x ∈ pre ++ b :: n :: post ∧ x.addr ≠ n.addr
      ∧ (x.lim ≤ c.addr ∨ c.lim ≤ x.addr) := by
    intro x hx
    rcases List.mem_append.mp hx with hx | hx
    · have hx' := tiles_mem hpre hx
      exact ⟨by simp [hx], by unfold Blk.lim at *; omega, Or.inl (ha ▸ hx'.2.1)⟩
    · have hx' := tiles_mem hpost hx
      exact ⟨by simp [hx], by unfold Blk.lim at *; omega, Or.inr (hlim ▸ hx'.1)⟩
  refine ⟨⟨?_, ha ▸ hboff, ?_⟩, ?_⟩
  · refine Rep.replace [b, n] [c] h.rep.remove hpre hcs (hlim ▸ hpost) ?_ ?_
      (ha ▸ hout)
    · intro x hx
      rw [List.mem_singleton.mp hx]; exact ht
    · intro x hx
      rcases List.mem_cons.mp hx with rfl | hx
      · exact hboff
      · rw [List.mem_singleton.mp hx]; exact hnd.1
  · intro x hx
    have hxn := (hrest x hx).2.1
    have hx' : x ∈ pre ++ (n :: post) := mem_of_mem_rest hx
    rw [← h.free_iff x hx']
    simp [hxn]
  · intro x hx hu y h1 h2
    have hxs := (hrest x hx).2.2
    rw [hout y (by omega)]
    refine h.rep.remove_keeps (hrest x hx).1 ?_ y h1 h2
    rw [h.free_iff x (mem_of_mem_rest hx), hu]
    decide

/-- The used blocks of a list with a free block in the middle. -/
theorem used_mem_iff (hf : b.used = false) {c : Blk} (hu : c.used = true) :
    c ∈ pre ++ b :: post ↔ c ∈ pre ++ post := by
  have hcb : c ≠ b := fun h => by rw [h, hf] at hu; exact absurd hu (by decide)
  simp [hcb]

/-- Keeping the other used blocks is keeping all of them when the block in hand is free. -/
theorem KeepsUsed.of_rest (hf : b.used = false) (h : KeepsUsed (pre ++ post) m m') :
    KeepsUsed (pre ++ b :: post) m m' :=
  fun c hc hu => h c ((used_mem_iff hf hu).mp hc) hu

end Hand

/-! ## Taking a block -/

/-- The memory after `kmalloc` has cut a block in two. -/
theorem split_mem {b : Blk} {size : Nat} (hb8 : 8 ∣ b.size) (h8 : 8 ∣ size) (h48 : 48 ≤ size)
    (hle : size + 48 ≤ b.size) (hlim : b.lim < 2 ^ 64) :
    let m₁ := setSize m b.addr size true
    let m₂ := setSize m₁ (b.addr + size) (b.size - size) false
    let m₃ := setPrevFree (setNextFree m₂ (b.addr + size) 0) (b.addr + size) 0
    nextBlock m₁ b.addr = b.addr + size ∧ Tagged m₃ ⟨b.addr, size, true⟩
      ∧ Tagged m₃ ⟨b.addr + size, b.size - size, false⟩
      ∧ ∀ y, y < b.addr ∨ b.lim ≤ y → m₃ y = m y := by
  intro m₁ m₂ m₃
  have hl : b.lim = b.addr + b.size := rfl
  have hr8 : 8 ∣ b.size - size := Nat.dvd_sub hb8 h8
  have t₁ : Tagged m₁ ⟨b.addr, size, true⟩ :=
    setSize_tagged (b := ⟨b.addr, size, true⟩) h8 (by show 16 ≤ size; omega)
      (by show b.addr + size < _; omega)
  have t₂ : Tagged m₂ ⟨b.addr + size, b.size - size, false⟩ :=
    setSize_tagged (b := ⟨b.addr + size, b.size - size, false⟩) hr8
      (by show 16 ≤ b.size - size; omega) (by show b.addr + size + (b.size - size) < _; omega)
  have o₁ : ∀ y, y < b.addr ∨ b.lim ≤ y → m₁ y = m y := fun y hy =>
    setSize_out h8 (by omega) (by omega) (by omega)
  have o₂ : ∀ y, y < b.addr + size ∨ b.lim ≤ y → m₂ y = m₁ y := fun y hy =>
    setSize_out hr8 (by omega) (by omega) (by omega)
  have o₃ : ∀ y, y < b.addr + size ∨ b.lim ≤ y → m₃ y = m₂ y := fun y hy =>
    clearLinks_out (by omega)
  refine ⟨?_, ?_, ?_, ?_⟩
  · unfold nextBlock
    rw [blkSize_of_tagged (b := ⟨b.addr, size, true⟩) h8 t₁]
    exact u64_of_lt (by show b.addr + size < _; omega)
  · refine tagged_congr h48 t₁ (fun y _ h2 _ => ?_)
    have h2' : y < b.addr + size := h2
    rw [o₃ y (Or.inl h2'), o₂ y (Or.inl h2')]
  · exact clearLinks_tagged (b := ⟨b.addr + size, b.size - size, false⟩)
      (by show 48 ≤ b.size - size; omega) t₂
  · intro y hy
    rw [o₃ y (by omega), o₂ y (by omega), o₁ y hy]

section Take

variable {s : Heap σ} {b : Blk} {size : Nat}

/-- **`kmalloc` with a block in hand.** -/
theorem takeBlock_spec (hinv : HeapInv base s bs fl) (hbase : 0 < base) (hend : s.heapEnd < 2 ^ 64)
    (hb : b ∈ bs) (hfree : b.used = false) (h8 : 8 ∣ size) (h48 : 48 ≤ size)
    (hfit : size ≤ b.size) :
    ∃ s' bs' fl' nb, takeBlock s b.addr size = (s', nb.addr + 24) ∧ HeapInv base s' bs' fl'
      ∧ Takes s.mem bs s'.mem bs' nb ∧ size ≤ nb.size
      ∧ s'.heapEnd = s.heapEnd ∧ s'.pages = s.pages := by
  obtain ⟨l, r, rfl⟩ := List.append_of_mem ((hinv.free_iff b hb).mpr hfree)
  obtain ⟨pre, post, rfl⟩ := List.append_of_mem hb
  have hgeo := tiles_mem hinv.rep.tiles hb
  have hlim : b.lim = b.addr + b.size := rfl
  -- the block is off the list before its header is rewritten
  obtain ⟨hoff, hkeep⟩ := Off.of_free hinv
  -- no block in use has its address
  have hfresh : ∀ sz, (⟨b.addr, sz, true⟩ : Blk) ∉ pre ++ b :: post := by
    intro sz hm
    rw [← tiles_addr_inj hinv.rep.tiles hm hb rfl] at hfree
    exact Bool.noConfusion hfree
  have hsize : blkSize (unlink freeNode s.mem s.freeList b.addr).1 b.addr = b.size :=
    blkSize_of_tagged hgeo.2.2.1 (hoff.rep.tags b hb)
  have hptr : u64 (b.addr + headerSize) = b.addr + 24 := u64_of_lt (by unfold headerSize; omega)
  unfold takeBlock
  simp only [freeListRemove_eq, hsize, hptr]
  generalize hm : (unlink freeNode s.mem s.freeList b.addr).1 = m₀ at *
  generalize hh : (unlink freeNode s.mem s.freeList b.addr).2 = head₀ at *
  rw [sub64_of_le hfit (by omega), show minBlock = 48 from rfl]
  by_cases hleft : 48 ≤ b.size - size
  · -- the block is split, and the rest goes back on the list
    obtain ⟨hnext, hnt, hct, hout⟩ := split_mem (m := m₀) hgeo.2.2.1 h8 h48 (by omega)
      (Nat.lt_of_le_of_lt hgeo.2.1 hend)
    rw [if_pos hleft, hnext]
    have hoff' := hoff.split (n := ⟨b.addr, size, true⟩)
      (c := ⟨b.addr + size, b.size - size, false⟩)
      rfl rfl rfl (by show b.addr + size + (b.size - size) = b.addr + b.size; omega) h8 h48
      (Nat.dvd_sub hgeo.2.2.1 h8) hleft hnt hct hout
    generalize setPrevFree (setNextFree (setSize (setSize m₀ b.addr size true) (b.addr + size)
      (b.size - size) false) (b.addr + size) 0) (b.addr + size) 0 = m₁ at *
    obtain ⟨hinv', hkeep'⟩ := Off.insert
      (s := { s with mem := m₁, freeList := head₀ }) hoff' rfl hbase hend
    refine ⟨freeListInsert { s with mem := m₁, freeList := head₀ } (b.addr + size), _, _,
      ⟨b.addr, size, true⟩, rfl, hinv', ⟨rfl, hfresh size, ?_, ?_⟩, Nat.le_refl _, ?_, ?_⟩
    · intro c hu
      rw [used_mem_iff rfl hu, used_mem_iff hfree hu]
      simp only [List.mem_append, List.mem_singleton]
      rw [or_assoc, or_left_comm]
    · refine KeepsUsed.of_rest hfree (hkeep.trans ((hoff.keeps_of_out hout).trans ?_))
      intro c hc hu
      refine hkeep' c ?_ hu
      rcases List.mem_append.mp hc with hc | hc
      · exact List.mem_append_left _ (List.mem_append_left _ hc)
      · exact List.mem_append_right _ hc
    · rw [freeListInsert_eq]
    · rw [freeListInsert_eq]
  · -- the whole block is used
    rw [if_neg hleft]
    have hout : ∀ y, y < b.addr ∨ b.lim ≤ y → setSize m₀ b.addr b.size true y = m₀ y := fun y hy =>
      setSize_out hgeo.2.2.1 (by omega) (by omega) (by omega)
    have ht : Tagged (setSize m₀ b.addr b.size true) ⟨b.addr, b.size, true⟩ :=
      setSize_tagged (b := ⟨b.addr, b.size, true⟩) hgeo.2.2.1 (by show 16 ≤ b.size; omega)
        (by show b.addr + b.size < 2 ^ 64; omega)
    generalize setSize m₀ b.addr b.size true = m₁ at *
    have hinv' := Off.close (s := { s with mem := m₁, freeList := head₀ })
      (hoff.retag (n := ⟨b.addr, b.size, true⟩) rfl rfl ht hout) rfl
    refine ⟨{ s with mem := m₁, freeList := head₀ }, _, _, ⟨b.addr, b.size, true⟩, rfl, hinv',
      ⟨rfl, hfresh b.size, ?_, ?_⟩, hfit, rfl, rfl⟩
    · intro c hu
      rw [used_mem_iff hfree hu]
      simp only [List.mem_append, List.mem_cons]
      rw [or_left_comm]
    · exact KeepsUsed.of_rest hfree (hkeep.trans (hoff.keeps_of_out hout))

end Take

/-! ## Giving a block back -/

section Free

variable {s : Heap σ} {b : Blk}

/-- **The forward merge** keeps the block in hand off the list, only larger. -/
theorem coalesceNext_spec {pre post : List Blk}
    (hoff : Off base s.heapEnd s.mem s.freeList pre b post fl) (hf : b.used = false)
    (hend : s.heapEnd < 2 ^ 64) :
    ∃ s' c post' fl', coalesceNext s b.addr = s' ∧ c.addr = b.addr ∧ c.used = false
      ∧ Off base s'.heapEnd s'.mem s'.freeList pre c post' fl'
      ∧ KeepsUsed (pre ++ post') s.mem s'.mem
      ∧ (∀ x : Blk, x.used = true → (x ∈ pre ++ post' ↔ x ∈ pre ++ post))
      ∧ s'.heapEnd = s.heapEnd ∧ s'.pages = s.pages := by
  obtain ⟨addr, size, used⟩ := b
  subst hf
  have hb : (⟨addr, size, false⟩ : Blk) ∈ pre ++ ⟨addr, size, false⟩ :: post := by simp
  have hgeo := tiles_mem hoff.rep.tiles hb
  have hlim : Blk.lim ⟨addr, size, false⟩ = addr + size := rfl
  have hbsize : ∀ m, Tagged m ⟨addr, size, false⟩ → blkSize m addr = size :=
    fun m => blkSize_of_tagged (b := ⟨addr, size, false⟩) hgeo.2.2.1
  -- the next block begins where this one ends
  have hnext : nextBlock s.mem addr = addr + size := by
    unfold nextBlock
    rw [hbsize _ (hoff.rep.tags _ hb)]
    exact u64_of_lt (by omega)
  unfold coalesceNext
  dsimp only
  rw [hnext]
  by_cases hco : addr + size < s.heapEnd ∧ !blkUsed s.mem (addr + size)
  · -- the next block is free: merge
    obtain ⟨_, _, _, hpost⟩ := tiles_split hoff.rep.tiles
    cases post with
    | nil =>
        -- behind the last block there is none to merge
        have hbe : Blk.lim ⟨addr, size, false⟩ = s.heapEnd := hpost
        omega
    | cons n post =>
        obtain ⟨hna, hn8, hn48, hnpost⟩ := hpost
        have hnm : n ∈ pre ++ ⟨addr, size, false⟩ :: n :: post := by simp
        have hnfree : n.used = false := by
          have h2 := hco.2
          rw [← hlim, ← hna, blkUsed_of_tagged hn8 (hoff.rep.tags n hnm)] at h2
          simpa using h2
        have hnlim := (tiles_mem hoff.rep.tiles hnm).2.1
        have hnl : n.lim = n.addr + n.size := rfl
        -- it is taken off the list, which writes to no tag
        obtain ⟨l, r, rfl⟩ := List.append_of_mem ((hoff.free_iff n (by simp)).mpr hnfree)
        have htag := hoff.rep.remove.tags
        have hsize : blkSize (unlink freeNode s.mem s.freeList n.addr).1 addr = size :=
          hbsize _ (htag _ (by simp))
        have hnsize : blkSize (unlink freeNode s.mem s.freeList n.addr).1 n.addr = n.size :=
          blkSize_of_tagged hn8 (htag n hnm)
        have h8 : 8 ∣ size + n.size := Nat.dvd_add hgeo.2.2.1 hn8
        have hmlim : addr + (size + n.size) < 2 ^ 64 := by omega
        have ht : Tagged (setSize (unlink freeNode s.mem s.freeList n.addr).1 addr (size + n.size)
            false) ⟨addr, size + n.size, false⟩ :=
          setSize_tagged (b := ⟨addr, size + n.size, false⟩) h8
            (by show 16 ≤ size + n.size; omega) hmlim
        have hout : ∀ y, y < addr ∨ addr + (size + n.size) ≤ y →
            setSize (unlink freeNode s.mem s.freeList n.addr).1 addr (size + n.size) false y
              = (unlink freeNode s.mem s.freeList n.addr).1 y :=
          fun y hy => setSize_out h8 (by omega) hmlim (by omega)
        rw [if_pos hco, ← hlim, ← hna, freeListRemove_eq]
        dsimp only
        rw [hsize, hnsize, u64_of_lt (Nat.lt_of_le_of_lt (by omega) hmlim)]
        generalize setSize (unlink freeNode s.mem s.freeList n.addr).1 addr (size + n.size) false
          = m₃ at *
        obtain ⟨hoff', hkeep⟩ :=
          hoff.absorb (c := ⟨addr, size + n.size, false⟩) rfl rfl ht hout
        generalize (unlink freeNode s.mem s.freeList n.addr).2 = head₃ at *
        exact ⟨_, ⟨addr, size + n.size, false⟩, post, l ++ r, rfl, rfl, rfl, hoff', hkeep,
          fun x hx => (used_mem_iff hnfree hx).symm, rfl, rfl⟩
  · rw [if_neg hco]
    exact ⟨s, _, post, fl, rfl, rfl, rfl, hoff, fun _ _ _ _ _ _ => rfl, fun _ _ => Iff.rfl, rfl,
      rfl⟩

/-- **`kfree` of a used block** always returns, and frees that block only. -/
theorem kfree_spec (hinv : HeapInv base s bs fl) (hbase : 0 < base) (hend : s.heapEnd < 2 ^ 64)
    (hb : b ∈ bs) (hu : b.used = true) :
    ∃ s' bs' fl', kfree s (b.addr + 24) = .done s' ∧ HeapInv base s' bs' fl'
      ∧ Drops s.mem bs s'.mem bs' b ∧ s'.heapEnd = s.heapEnd ∧ s'.pages = s.pages := by
  obtain ⟨pre, post, rfl⟩ := List.append_of_mem hb
  have hgeo := tiles_mem hinv.rep.tiles hb
  have hlim : b.lim = b.addr + b.size := rfl
  have hoff := Off.of_used hinv hu
  have hh : sub64 (b.addr + 24) headerSize = b.addr := by
    rw [sub64_of_le (by unfold headerSize; omega) (by omega)]
    exact Nat.add_sub_cancel _ _
  have hused : blkUsed s.mem b.addr = true :=
    (blkUsed_of_tagged hgeo.2.2.1 (hinv.rep.tags b hb)).trans hu
  have hsize : blkSize s.mem b.addr = b.size := blkSize_of_tagged hgeo.2.2.1 (hinv.rep.tags b hb)
  -- the first store: the block is marked free
  have ht : Tagged (setSize s.mem b.addr b.size false) ⟨b.addr, b.size, false⟩ :=
    setSize_tagged (b := ⟨b.addr, b.size, false⟩) hgeo.2.2.1 (by show 16 ≤ b.size; omega)
      (by show b.addr + b.size < 2 ^ 64; omega)
  have hout : ∀ y, y < b.addr ∨ b.lim ≤ y → setSize s.mem b.addr b.size false y = s.mem y :=
    fun y hy => setSize_out hgeo.2.2.1 (by omega) (by omega) (by omega)
  unfold kfree
  simp only [hh, hused, hsize]
  rw [if_neg (by omega), if_neg (by decide)]
  generalize setSize s.mem b.addr b.size false = m₁ at *
  have hoff₁ := hoff.retag (n := ⟨b.addr, b.size, false⟩) rfl rfl ht hout
  have hkeep₁ := hoff.keeps_of_out hout
  -- the merge, then the insertion
  obtain ⟨s₂, c, post', fl', he, hca, hcf, hoff₂, hkeep₂, hmem, hend₂, hpages₂⟩ :=
    coalesceNext_spec (s := { s with mem := m₁ }) hoff₁ rfl hend
  have he' : coalesceNext { s with mem := m₁ } b.addr = s₂ := he
  have hca' : c.addr = b.addr := hca
  obtain ⟨hinv', hkeep₃⟩ := hoff₂.insert hcf hbase (hend₂ ▸ hend)
  rw [he', ← hca']
  have hrest : ∀ x ∈ pre ++ b :: post, x.used = true → x ≠ b → x ∈ pre ++ post := by
    intro x hx _ hne
    simpa [hne] using hx
  refine ⟨_, _, _, rfl, hinv', ⟨?_, ?_⟩, ?_, ?_⟩
  · intro x hx
    rw [used_mem_iff hcf hx, hmem x hx]
    constructor
    · intro hm
      refine ⟨mem_of_mem_rest hm, ?_⟩
      rintro rfl
      exact hinv.rep.tiles.rest_addr_ne hm rfl
    · rintro ⟨hm, hne⟩
      exact hrest x hm hx hne
  · intro x hx hxu hne y h1 h2
    have hxr := hrest x hx hxu hne
    have hxr' := (hmem x hxu).mpr hxr
    calc _ = s₂.mem y := hkeep₃ x hxr' hxu y h1 h2
      _ = m₁ y := hkeep₂ x hxr' hxu y h1 h2
      _ = s.mem y := hkeep₁ x hxr hxu y h1 h2
  · rw [freeListInsert_eq]; exact hend₂
  · rw [freeListInsert_eq]; exact hpages₂

end Free

end VnlKernel
