import VnlKernel.Proof.HeapLayout

/-!
# The edits the allocator makes

Every routine of `heap.c` is a short sequence of four edits, and `Rep` survives
each of them on its own:

* a block leaves the free list, or joins it (`Rep.remove`, `Rep.push`);
* a stretch of blocks off the list is cut up differently (`Rep.replace`), which
  covers both splitting and coalescing;
* a block is added at the end of the heap (`Rep.grow`).

Each edit comes with its footprint, the only addresses it can have changed. The
footprints are always inside blocks that are free or being handled, so what the
clients of the heap hold is never touched.
-/

namespace VnlKernel

open ByteMem Bits

variable {σ : Type} {base e : Nat} {m m' : Mem} {head : Nat} {bs : List Blk} {fl : List Nat}

theorem tiles_split {pre post : List Blk} {b : Blk} (h : Tiles base (pre ++ b :: post) e) :
    Tiles base pre b.addr ∧ 8 ∣ b.size ∧ 48 ≤ b.size ∧ Tiles b.lim post e := by
  obtain ⟨c, h1, h2, h3, h4, h5⟩ := tiles_append.mp h
  subst h2
  exact ⟨h1, h3, h4, h5⟩

/-- Stores confined to free-list links leave every tag alone. -/
theorem tags_of_links (hT : Tiles base bs e) (htag : ∀ b ∈ bs, Tagged m b) {xs : List Nat}
    (hxs : ∀ a ∈ xs, ∃ b ∈ bs, b.addr = a)
    (hout : ∀ y, (∀ a ∈ xs, y < a + 8 ∨ a + 24 ≤ y) → m' y = m y) :
    ∀ b ∈ bs, Tagged m' b := by
  intro b hb
  have hb48 := (tiles_mem hT hb).2.2.2
  refine tagged_congr hb48 (htag b hb) (fun y h1 h2 h3 => hout y (fun a ha => ?_))
  obtain ⟨c, hc, rfl⟩ := hxs a ha
  have hc48 := (tiles_mem hT hc).2.2.2
  rcases tiles_apart hT hb hc with rfl | h | h
  · omega
  · omega
  · unfold Blk.lim at h; omega

/-- A link word of a listed block lies inside that block. -/
theorem Rep.link_outside (h : Rep base e m head bs fl) {y : Nat}
    (hy : ∀ b ∈ bs, b.addr ∈ fl → y < b.addr ∨ b.lim ≤ y) :
    ∀ a ∈ fl, y < a + 8 ∨ a + 24 ≤ y := by
  intro a ha
  obtain ⟨b, hb, rfl⟩ := h.nodes a ha
  have h48 := (tiles_mem h.tiles hb).2.2.2
  have := hy b hb ha
  unfold Blk.lim at this
  omega

/-! ## The free list -/

theorem freeListRemove_eq (s : Heap σ) (h : Nat) :
    freeListRemove s h = { s with mem := (unlink freeNode s.mem s.freeList h).1,
                                  freeList := (unlink freeNode s.mem s.freeList h).2 } := by
  have hp : ∀ m, freeNode.prev m h = prevFree m h := fun _ => rfl
  have hn : ∀ m, freeNode.next m h = nextFree m h := fun _ => rfl
  have hsp : ∀ m x v, freeNode.setPrev m x v = setPrevFree m x v := fun _ _ _ => rfl
  have hsn : ∀ m x v, freeNode.setNext m x v = setNextFree m x v := fun _ _ _ => rfl
  unfold freeListRemove unlink
  simp only [hp, hn, hsp, hsn]
  by_cases h1 : prevFree s.mem h ≠ 0
  · simp only [if_pos h1]
    by_cases h2 : nextFree (setNextFree s.mem (prevFree s.mem h) (nextFree s.mem h)) h ≠ 0
    · simp only [if_pos h2]
    · simp only [if_neg h2]
  · simp only [if_neg h1]
    by_cases h2 : nextFree s.mem h ≠ 0
    · simp only [if_pos h2]
    · simp only [if_neg h2]

theorem freeListInsert_eq (s : Heap σ) (h : Nat) :
    freeListInsert s h = { s with mem := (pushFront freeNode s.mem s.freeList h).1,
                                  freeList := (pushFront freeNode s.mem s.freeList h).2 } := by
  unfold freeListInsert pushFront
  simp only [setPrevFree, setNextFree, freeNode, NodeLayout.setPrev, NodeLayout.setNext]
  split <;> rfl

/-- A block leaves the list. -/
theorem Rep.remove {l r : List Nat} {x : Nat} (h : Rep base e m head bs (l ++ x :: r)) :
    Rep base e (unlink freeNode m head x).1 (unlink freeNode m head x).2 bs (l ++ r) := by
  refine ⟨h.tiles, ?_, unlink_dlist h.list, fun a ha => h.nodes a ?_⟩
  · refine tags_of_links h.tiles h.tags h.nodes ?_
    intro y hy
    exact unlink_out h.list hy
  · rcases List.mem_append.mp ha with ha | ha
    · exact List.mem_append_left _ ha
    · exact List.mem_append_right _ (List.mem_cons_of_mem _ ha)

theorem Rep.remove_out {l r : List Nat} {x y : Nat} (h : Rep base e m head bs (l ++ x :: r))
    (hy : ∀ b ∈ bs, b.addr ∈ l ++ x :: r → y < b.addr ∨ b.lim ≤ y) :
    (unlink freeNode m head x).1 y = m y :=
  unlink_out h.list (h.link_outside hy)

/-- A block joins the list. -/
theorem Rep.push (h : Rep base e m head bs fl) {b : Blk} (hb : b ∈ bs) (hnew : b.addr ∉ fl)
    (h0 : 0 < base) (hlim : e < 2 ^ 64) :
    Rep base e (pushFront freeNode m head b.addr).1 (pushFront freeNode m head b.addr).2 bs
      (b.addr :: fl) := by
  have hgeo := tiles_mem h.tiles hb
  have hnodes : ∀ a ∈ b.addr :: fl, ∃ c ∈ bs, c.addr = a := by
    intro a ha
    rcases List.mem_cons.mp ha with rfl | ha
    · exact ⟨b, hb, rfl⟩
    · exact h.nodes a ha
  refine ⟨h.tiles, ?_, ?_, hnodes⟩
  · exact tags_of_links h.tiles h.tags hnodes (fun _ hy => pushFront_out h.list hy)
  · refine pushFront_dlist h.list (by omega) (by unfold Blk.lim at hgeo; omega) hnew ?_
    intro a ha
    obtain ⟨c, hc, rfl⟩ := h.nodes a ha
    have hc48 := (tiles_mem h.tiles hc).2.2.2
    show b.addr + 24 ≤ c.addr ∨ c.addr + 24 ≤ b.addr
    rcases tiles_apart h.tiles hb hc with rfl | h1 | h1
    · exact absurd ha hnew
    · exact Or.inl (by unfold Blk.lim at h1; omega)
    · exact Or.inr (by unfold Blk.lim at h1; omega)

theorem Rep.push_out (h : Rep base e m head bs fl) {b : Blk} (hb : b ∈ bs) {y : Nat}
    (hy : ∀ c ∈ bs, c.addr ∈ b.addr :: fl → y < c.addr ∨ c.lim ≤ y) :
    (pushFront freeNode m head b.addr).1 y = m y := by
  refine pushFront_out h.list (fun a ha => ?_)
  have hc : ∃ c ∈ bs, c.addr = a := by
    rcases List.mem_cons.mp ha with rfl | ha
    · exact ⟨b, hb, rfl⟩
    · exact h.nodes a ha
  obtain ⟨c, hc, rfl⟩ := hc
  have h48 := (tiles_mem h.tiles hc).2.2.2
  have := hy c hc ha
  show y < c.addr + 8 ∨ c.addr + 24 ≤ y
  unfold Blk.lim at this
  omega

/-- An address inside one block is outside every other. -/
theorem tiles_outside (hT : Tiles base bs e) {b c : Blk} (hb : b ∈ bs) (hc : c ∈ bs) (hne : b ≠ c)
    {y : Nat} (h1 : b.addr ≤ y) (h2 : y < b.lim) : y < c.addr ∨ c.lim ≤ y := by
  rcases tiles_apart hT hb hc with h | h | h
  · exact absurd h hne
  · exact Or.inl (by omega)
  · exact Or.inr (by omega)

/-- Unlinking leaves every unlisted block alone. -/
theorem Rep.remove_keeps {l r : List Nat} {x : Nat} (h : Rep base e m head bs (l ++ x :: r))
    {b : Blk} (hb : b ∈ bs) (hn : b.addr ∉ l ++ x :: r) :
    ∀ y, b.addr ≤ y → y < b.lim → (unlink freeNode m head x).1 y = m y := by
  intro y h1 h2
  refine h.remove_out (fun c hc hcl => tiles_outside h.tiles hb hc ?_ h1 h2)
  rintro rfl
  exact hn hcl

/-- Pushing leaves every unlisted block alone. -/
theorem Rep.push_keeps (h : Rep base e m head bs fl) {b c : Blk} (hc : c ∈ bs) (hb : b ∈ bs)
    (hn : b.addr ∉ c.addr :: fl) :
    ∀ y, b.addr ≤ y → y < b.lim → (pushFront freeNode m head c.addr).1 y = m y := by
  intro y h1 h2
  refine h.push_out hc (fun d hd hdl => tiles_outside h.tiles hb hd ?_ h1 h2)
  rintro rfl
  exact hn hdl

/-! ## Recutting and growing -/

/-- **A stretch of unlisted blocks is cut up differently.** -/
theorem Rep.replace {pre post : List Blk} (mid cs : List Blk) {a z : Nat}
    (h : Rep base e m head (pre ++ (mid ++ post)) fl) (hpre : Tiles base pre a)
    (hcs : Tiles a cs z) (hpost : Tiles z post e) (htag : ∀ c ∈ cs, Tagged m' c)
    (hfl : ∀ x ∈ mid, x.addr ∉ fl) (hout : ∀ y, y < a ∨ z ≤ y → m' y = m y) :
    Rep base e m' head (pre ++ (cs ++ post)) fl := by
  -- every block outside the stretch lies on one side of it
  have hside : ∀ b ∈ pre ++ (mid ++ post), b ∉ mid → b.lim ≤ a ∨ z ≤ b.addr := by
    intro b hb hbm
    rcases List.mem_append.mp hb with hb | hb
    · exact Or.inl (tiles_mem hpre hb).2.1
    · rcases List.mem_append.mp hb with hb | hb
      · exact absurd hb hbm
      · exact Or.inr (tiles_mem hpost hb).1
  have hkeep : ∀ b ∈ pre ++ (mid ++ post), b ∉ mid → ∀ y, b.addr ≤ y → y < b.lim → m' y = m y := by
    intro b hb hbm y h1 h2
    have := hside b hb hbm
    exact hout y (by omega)
  refine ⟨?_, ?_, ?_, ?_⟩
  · exact tiles_append.mpr ⟨a, hpre, tiles_append.mpr ⟨z, hcs, hpost⟩⟩
  · intro b hb
    have hold : b ∈ pre ∨ b ∈ post → Tagged m' b := by
      intro hbp
      have hbm : b ∈ pre ++ (mid ++ post) := by
        rcases hbp with hbp | hbp
        · exact List.mem_append_left _ hbp
        · exact List.mem_append_right _ (List.mem_append_right _ hbp)
      refine tagged_congr (tiles_mem h.tiles hbm).2.2.2 (h.tags b hbm) (fun y h1 h2 _ => ?_)
      rcases hbp with hbp | hbp
      · have := (tiles_mem hpre hbp).2.1; exact hout y (by omega)
      · have := (tiles_mem hpost hbp).1; exact hout y (by omega)
    rcases List.mem_append.mp hb with hb | hb
    · exact hold (Or.inl hb)
    · rcases List.mem_append.mp hb with hb | hb
      · exact htag b hb
      · exact hold (Or.inr hb)
  · refine h.list.congr (fun x hx y h1 h2 => ?_)
    obtain ⟨b, hb, rfl⟩ := h.nodes x hx
    have hbm : b ∉ mid := fun hbm => hfl b hbm hx
    have h48 := (tiles_mem h.tiles hb).2.2.2
    have hw : y < b.addr + 24 := h2
    exact hkeep b hb hbm y (by omega) (by unfold Blk.lim; omega)
  · intro x hx
    obtain ⟨b, hb, rfl⟩ := h.nodes x hx
    have hbm : b ∉ mid := fun hbm => hfl b hbm hx
    refine ⟨b, ?_, rfl⟩
    rcases List.mem_append.mp hb with hb | hb
    · exact List.mem_append_left _ hb
    · rcases List.mem_append.mp hb with hb | hb
      · exact absurd hb hbm
      · exact List.mem_append_right _ (List.mem_append_right _ hb)

/-- **A block is added at the end.** -/
theorem Rep.grow (h : Rep base e m head bs fl) {c : Blk} (hc : c.addr = e) (h8 : 8 ∣ c.size)
    (h48 : 48 ≤ c.size) (htag : Tagged m' c) (hout : ∀ y, y < e → m' y = m y) :
    Rep base c.lim m' head (bs ++ [c]) fl where
  tiles := tiles_append.mpr ⟨e, h.tiles, hc ▸ tiles_single h8 h48 rfl⟩
  tags := by
    intro b hb
    rcases List.mem_append.mp hb with hb | hb
    · have hgeo := tiles_mem h.tiles hb
      exact tagged_congr hgeo.2.2.2 (h.tags b hb) (fun y _ h2 _ => hout y (by omega))
    · rw [List.mem_singleton.mp hb]; exact htag
  list := h.list.congr (fun x hx y _ h2 => by
    obtain ⟨b, hb, rfl⟩ := h.nodes x hx
    have hgeo := tiles_mem h.tiles hb
    have hw : y < b.addr + 24 := h2
    exact hout y (by unfold Blk.lim at hgeo; omega))
  nodes := fun x hx => by
    obtain ⟨b, hb, he⟩ := h.nodes x hx
    exact ⟨b, List.mem_append_left _ hb, he⟩

/-- Storing the two null links of a block, as every new free block gets. -/
theorem clearLinks_out {h y : Nat} (hy : y < h + 8 ∨ h + 24 ≤ y) :
    setPrevFree (setNextFree m h 0) h 0 y = m y := by
  unfold setPrevFree setNextFree
  rw [write64_out (by omega), write64_out (by omega)]

theorem clearLinks_tagged {b : Blk} (h48 : 48 ≤ b.size) (h : Tagged m b) :
    Tagged (setPrevFree (setNextFree m b.addr 0) b.addr 0) b :=
  tagged_congr h48 h (fun _ _ _ h3 => clearLinks_out (by omega))

end VnlKernel
