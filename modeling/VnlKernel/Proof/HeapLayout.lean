import VnlKernel.Lib.Dlist
import VnlKernel.Mm.Heap

/-!
# What the heap looks like

The picture behind `heap.c`: a list of blocks laid end to end, each carrying its
tag at both ends, and a list of addresses that the free-list links spell out. The
picture comes in three parts, because the code never changes them all at once.

* `Tiles` is geometry only. Blocks follow one another without gap or overlap.
* `Tagged` ties one block to memory: header and footer hold its size and flag.
* `Dlist freeNode` is the free list, as the library sees it.

`Rep` holds the three together and is kept by every single edit the code makes.
`HeapInv` adds what holds only *between* calls: the list has every free block on
it and nothing else.
-/

namespace VnlKernel

open ByteMem Bits

/-- One block of the heap, tags included. -/
structure Blk where
  addr : Nat
  size : Nat
  used : Bool
deriving DecidableEq

/-- The address just past the block. -/
def Blk.lim (b : Blk) : Nat := b.addr + b.size

/-- The word at both ends of the block. -/
def Blk.tag (b : Blk) : Nat := b.size + b.used.toNat

/-- The blocks `bs` cover `[a, e)` exactly, in address order. -/
def Tiles : Nat → List Blk → Nat → Prop
  | a, [], e => a = e
  | a, b :: bs, e => b.addr = a ∧ 8 ∣ b.size ∧ 48 ≤ b.size ∧ Tiles (a + b.size) bs e

/-- Header and footer of `b` hold its tag. -/
structure Tagged (m : Mem) (b : Blk) : Prop where
  head : read64 m b.addr = b.tag
  foot : read64 m (b.lim - 8) = b.tag

/-- `prev_free` and `next_free` inside a `BlockHeader`. -/
def freeNode : NodeLayout where
  prevOff := 8
  nextOff := 16
  width := 24
  prev_lt := by decide
  next_lt := by decide

/-- Blocks, tags and a free list, consistent with one another. -/
structure Rep (base e : Nat) (m : Mem) (head : Nat) (bs : List Blk) (fl : List Nat) : Prop where
  tiles : Tiles base bs e
  tags : ∀ b ∈ bs, Tagged m b
  list : Dlist freeNode m head fl
  /-- Nodes of the list are blocks. -/
  nodes : ∀ a ∈ fl, ∃ b ∈ bs, b.addr = a

/-- **The representation invariant of the heap.** -/
structure HeapInv {σ : Type} (base : Nat) (s : Heap σ) (bs : List Blk) (fl : List Nat) : Prop where
  rep : Rep base s.heapEnd s.mem s.freeList bs fl
  /-- The list holds the free blocks and no used one. -/
  free_iff : ∀ b ∈ bs, b.addr ∈ fl ↔ b.used = false

/-! ## Geometry -/

theorem tiles_append : ∀ {xs ys : List Blk} {a e : Nat},
    Tiles a (xs ++ ys) e ↔ ∃ c, Tiles a xs c ∧ Tiles c ys e
  | [], ys, a, e => by simp [Tiles]
  | x :: xs, ys, a, e => by
      simp only [List.cons_append, Tiles, @tiles_append xs]
      constructor
      · rintro ⟨h1, h2, h3, c, h4, h5⟩; exact ⟨c, ⟨h1, h2, h3, h4⟩, h5⟩
      · rintro ⟨c, ⟨h1, h2, h3, h4⟩, h5⟩; exact ⟨h1, h2, h3, c, h4, h5⟩

theorem tiles_single {b : Blk} {e : Nat} (h8 : 8 ∣ b.size) (h48 : 48 ≤ b.size)
    (he : b.lim = e) : Tiles b.addr [b] e := ⟨rfl, h8, h48, he⟩

theorem tiles_mem : ∀ {bs : List Blk} {a e : Nat} {b : Blk}, Tiles a bs e → b ∈ bs →
    a ≤ b.addr ∧ b.lim ≤ e ∧ 8 ∣ b.size ∧ 48 ≤ b.size
  | c :: bs, a, e, b, ⟨h1, h2, h3, h4⟩, hb => by
      have hce : a + c.size ≤ e := tiles_le h4
      rcases List.mem_cons.mp hb with rfl | hb
      · exact ⟨by omega, by unfold Blk.lim; omega, h2, h3⟩
      · obtain ⟨g1, g2, g3, g4⟩ := tiles_mem h4 hb
        exact ⟨by omega, g2, g3, g4⟩
where
  tiles_le : ∀ {bs : List Blk} {a e : Nat}, Tiles a bs e → a ≤ e
    | [], _, _, h => Nat.le_of_eq h
    | _ :: _, _, _, ⟨_, _, _, h⟩ => Nat.le_trans (Nat.le_add_right _ _) (tiles_le h)

theorem tiles_le {bs : List Blk} {a e : Nat} (h : Tiles a bs e) : a ≤ e := tiles_mem.tiles_le h

/-- Two blocks of a tiling are the same or do not meet. -/
theorem tiles_apart : ∀ {bs : List Blk} {a e : Nat} {b c : Blk}, Tiles a bs e → b ∈ bs → c ∈ bs →
    b = c ∨ b.lim ≤ c.addr ∨ c.lim ≤ b.addr
  | d :: bs, a, e, b, c, ⟨h1, h2, h3, h4⟩, hb, hc => by
      have hd : d.lim = a + d.size := by unfold Blk.lim; omega
      rcases List.mem_cons.mp hb with rfl | hb' <;> rcases List.mem_cons.mp hc with rfl | hc'
      · exact Or.inl rfl
      · exact Or.inr (Or.inl (by rw [hd]; exact (tiles_mem h4 hc').1))
      · exact Or.inr (Or.inr (by rw [hd]; exact (tiles_mem h4 hb').1))
      · exact tiles_apart h4 hb' hc'

theorem tiles_addr_inj {bs : List Blk} {a e : Nat} {b c : Blk} (h : Tiles a bs e) (hb : b ∈ bs)
    (hc : c ∈ bs) (he : b.addr = c.addr) : b = c := by
  have hb' := tiles_mem h hb
  have hc' := tiles_mem h hc
  rcases tiles_apart h hb hc with h1 | h1 | h1
  · exact h1
  · unfold Blk.lim at h1; omega
  · unfold Blk.lim at h1; omega

/-! ## Tags -/

theorem tagged_congr {m m' : Mem} {b : Blk} (h48 : 48 ≤ b.size) (h : Tagged m b)
    (hag : ∀ y, b.addr ≤ y → y < b.lim → ¬(b.addr + 8 ≤ y ∧ y < b.addr + 24) → m' y = m y) :
    Tagged m' b where
  head := by
    rw [read64_congr fun y h1 h2 => hag y h1 (by unfold Blk.lim; omega) (by omega)]
    exact h.head
  foot := by
    have hl : b.lim = b.addr + b.size := rfl
    rw [read64_congr fun y h1 h2 => hag y (by omega) (by omega) (by omega)]
    exact h.foot

/-- A tag word splits back into size and flag. -/
theorem tag_and {sz : Nat} {used : Bool} (h8 : 8 ∣ sz) (hlt : sz + used.toNat < 2 ^ 64) :
    (sz + used.toNat) &&& (2 ^ 64 - 2) = sz ∧ (sz + used.toNat) &&& 1 = used.toNat := by
  obtain ⟨k, hk⟩ := h8
  have hu : used.toNat < 2 := by cases used <;> decide
  constructor
  · rw [show (2 : Nat) ^ 64 - 2 = 2 ^ 64 - 2 ^ 1 by rfl, and_mask hlt (by decide)]
    omega
  · rw [show (1 : Nat) = 2 ^ 1 - 1 by rfl, and_low]
    omega

theorem tag_lt {sz h : Nat} {used : Bool} (h8 : 8 ∣ sz) (hlim : h + sz < 2 ^ 64) :
    sz + used.toNat < 2 ^ 64 := by
  obtain ⟨k, hk⟩ := h8
  have hu : used.toNat < 2 := by cases used <;> decide
  omega

/-- The size a header gives back. -/
theorem blkSize_of_tagged {m : Mem} {b : Blk} (h8 : 8 ∣ b.size) (h : Tagged m b) :
    blkSize m b.addr = b.size := by
  have hlt : b.tag < 2 ^ 64 := by rw [← h.head]; exact read64_lt m b.addr
  unfold blkSize
  rw [h.head]
  exact (tag_and h8 hlt).1

/-- The flag a header gives back. -/
theorem blkUsed_of_tagged {m : Mem} {b : Blk} (h8 : 8 ∣ b.size) (h : Tagged m b) :
    blkUsed m b.addr = b.used := by
  have hlt : b.tag < 2 ^ 64 := by rw [← h.head]; exact read64_lt m b.addr
  unfold blkUsed
  rw [h.head, Blk.tag, (tag_and h8 hlt).2]
  cases b.used <;> rfl

/-- The two stores of `set_size`, with the footer address worked out. -/
theorem setSize_eq {m : Mem} {h sz : Nat} {used : Bool} (h8 : 8 ∣ sz) (h16 : 16 ≤ sz)
    (hlim : h + sz < 2 ^ 64) :
    setSize m h sz used =
      write64 (write64 m h (sz + used.toNat)) (h + sz - 8) (sz + used.toNat) := by
  have hor : sz ||| used.toNat = sz + used.toNat := by
    obtain ⟨k, hk⟩ := h8
    have := or_low (a := 4 * k) (b := used.toNat) (k := 1) (by cases used <;> decide)
    rwa [show 4 * k * 2 ^ 1 = sz by omega] at this
  have hlt : sz + used.toNat < 2 ^ 64 := tag_lt h8 hlim
  have hfoot : getFooter (write64 m h (sz + used.toNat)) h = h + sz - 8 := by
    unfold getFooter blkSize
    rw [read64_write64_same hlt, (tag_and h8 hlt).1, u64_of_lt hlim,
      sub64_of_le (by unfold footerSize; omega) hlim]
    rfl
  unfold setSize
  dsimp only
  rw [hor, hfoot]

/-- **`set_size` tags a block.** -/
theorem setSize_tagged {m : Mem} {b : Blk} (h8 : 8 ∣ b.size) (h16 : 16 ≤ b.size)
    (hlim : b.lim < 2 ^ 64) : Tagged (setSize m b.addr b.size b.used) b := by
  have hl : b.lim = b.addr + b.size := rfl
  have hlt : b.size + b.used.toNat < 2 ^ 64 := tag_lt h8 hlim
  rw [setSize_eq h8 h16 hlim]
  constructor
  · rw [read64_write64_disj (by omega), read64_write64_same hlt]
    rfl
  · rw [hl, read64_write64_same hlt]
    rfl

/-- It stores nowhere but in the two tags. -/
theorem setSize_out {m : Mem} {h sz : Nat} {used : Bool} (h8 : 8 ∣ sz) (h16 : 16 ≤ sz)
    (hlim : h + sz < 2 ^ 64) {y : Nat} (hy : y < h ∨ h + sz ≤ y ∨ (h + 8 ≤ y ∧ y < h + sz - 8)) :
    setSize m h sz used y = m y := by
  rw [setSize_eq h8 h16 hlim, write64_out (by omega), write64_out (by omega)]

end VnlKernel
