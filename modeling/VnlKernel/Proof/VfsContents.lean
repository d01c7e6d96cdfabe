import VnlKernel.Proof.VfsFile

/-!
# What a file holds

A file's bytes live in a heap block of its own. Here the two halves meet: what is known
of the heap, block by block, and what is known of the file system, call by call. Each
call works on the block of one file at most and leaves the blocks of all others alone,
so a file that nobody else writes, moves about in, truncates or removes holds exactly
what was written to it, in order, whatever happens to the others.

All of this rests on writes that do not wrap. One that does passes the check against the
capacity and runs over everything behind its block.
-/

namespace VnlKernel

open ByteMem Bits

variable {σ : Type}

/-! ## Files and blocks -/

/-- The heap below the file system: in shape, with a live block behind every file that has one, and
never the same block behind two. -/
structure Backed (fs : FrameService σ) (base : Nat) (v : Vfs σ) (live : List (Nat × Nat))
    (bs : List Blk) (fl : List Nat) : Prop where
  pos : 0 < base
  inv : Client.Inv fs.toPager base ⟨v.heap, live⟩ bs fl
  owned : ∀ i, ((v.nodes i).data = 0 ∧ (v.nodes i).capacity = 0)
    ∨ ((v.nodes i).data, (v.nodes i).capacity) ∈ live
  apart : ∀ i j, i ≠ j → (v.nodes i).data ≠ 0 → (v.nodes i).data ≠ (v.nodes j).data

/-- Slot `j` and the bytes of its block are as they were. -/
def SameFile (v v' : Vfs σ) (j : Nat) : Prop :=
  v'.nodes j = v.nodes j
    ∧ ∀ k, k < (v.nodes j).capacity →
        v'.heap.mem ((v.nodes j).data + k) = v.heap.mem ((v.nodes j).data + k)

theorem SameFile.refl (v : Vfs σ) (j : Nat) : SameFile v v j := ⟨rfl, fun _ _ => rfl⟩

theorem SameFile.trans {v v' v'' : Vfs σ} {j : Nat} (h : SameFile v v' j) (h' : SameFile v' v'' j) :
    SameFile v v'' j := by
  obtain ⟨hn, hb⟩ := h
  obtain ⟨hn', hb'⟩ := h'
  rw [hn] at hn' hb'
  exact ⟨hn', fun k hk => (hb' k hk).trans (hb k hk)⟩

/-- Nothing has changed but what files do not live in. -/
theorem SameFile.of_eq {v v' : Vfs σ} (j : Nat) (hn : v'.nodes = v.nodes)
    (hm : v'.heap.mem = v.heap.mem) : SameFile v v' j :=
  ⟨by rw [hn], fun k _ => by rw [hm]⟩

section Backed

variable {fs : FrameService σ} {base : Nat} {v v' : Vfs σ} {live : List (Nat × Nat)} {bs : List Blk}
  {fl : List Nat}

/-- The block behind a file that has room for a byte. -/
theorem Backed.block (h : Backed fs base v live bs fl) {i : Nat} (hi : (v.nodes i).capacity ≠ 0) :
    ∃ b ∈ bs, b.used = true ∧ (v.nodes i).data = b.addr + 24
      ∧ (v.nodes i).capacity + 32 ≤ b.size := by
  rcases h.owned i with ⟨_, h0⟩ | hm
  · exact absurd h0 hi
  · exact h.inv.owns.owned _ hm

/-- Another file's block is another block. -/
theorem Backed.block_ne (h : Backed fs base v live bs fl) {i j : Nat} (hij : j ≠ i)
    (hj : (v.nodes j).capacity ≠ 0) : (v.nodes j).data ≠ 0
      ∧ (v.nodes j).data ≠ (v.nodes i).data := by
  obtain ⟨b, _, _, he, _⟩ := h.block hj
  have h0 : (v.nodes j).data ≠ 0 := by omega
  exact ⟨h0, h.apart j i hij h0⟩

/-- A block that a call left alone still holds the file's bytes. -/
theorem Backed.keeps (h : Backed fs base v live bs fl) {ptr j : Nat} {m : Mem}
    (hkeep : ∀ b ∈ bs, b.used = true → b.addr + 24 ≠ ptr →
      ∀ y, b.addr ≤ y → y < b.lim → m y = v.heap.mem y)
    (hj : (v.nodes j).data ≠ ptr) :
    ∀ k, k < (v.nodes j).capacity → m ((v.nodes j).data + k)
      = v.heap.mem ((v.nodes j).data + k) := by
  intro k hk
  obtain ⟨b, hb, hu, he, hsz⟩ := h.block (i := j) (by omega)
  have hlim : b.lim = b.addr + b.size := rfl
  exact hkeep b hb hu (he ▸ hj) _ (by omega) (by omega)

/-- Nodes and heap unchanged, frames below perhaps fewer. -/
theorem Backed.frames (h : Backed fs base v live bs fl)
    (hn : ∀ i, (v'.nodes i).data = (v.nodes i).data
      ∧ (v'.nodes i).capacity = (v.nodes i).capacity)
    (hm : v'.heap.mem = v.heap.mem) (hfl : v'.heap.freeList = v.heap.freeList)
    (he : v'.heap.heapEnd = v.heap.heapEnd)
    (hs : fs.supply v'.heap.pages ≤ fs.supply v.heap.pages) : Backed fs base v' live bs fl where
  pos := h.pos
  inv := by
    have hroom := h.inv.room
    dsimp only at hroom
    refine ⟨⟨?_, h.inv.heap.free_iff⟩, ?_, h.inv.owns⟩
    · dsimp only
      rw [hm, hfl, he]
      exact h.inv.heap.rep
    · dsimp only
      rw [he]
      omega
  owned := by
    intro i
    rw [(hn i).1, (hn i).2]
    exact h.owned i
  apart := by
    intro i j hij
    rw [(hn i).1, (hn j).1]
    exact h.apart i j hij

/-- Slot `i` gives up its block, if it has one. -/
theorem Backed.release (h : Backed fs base v live bs fl) (v' : Vfs σ) {i : Nat} {heap : Heap σ}
    (hk : kfree v.heap (v.nodes i).data = .done heap) {n : VFSNode} (hd : n.data = 0)
    (hc : n.capacity = 0) (hv : v'.nodes = (v.setNode i n).nodes) (hh : v'.heap = heap) :
    (∃ live' bs' fl', Backed fs base v' live' bs' fl') ∧ ∀ j, j ≠ i → SameFile v v' j := by
  have hal : (⟨v.heap, live⟩ : Client σ).Allowed (.kfree (v.nodes i).data) := by
    rcases h.owned i with ⟨h0, _⟩ | hm
    · exact Or.inl h0
    · exact Or.inr (List.mem_map_of_mem (f := (·.1)) hm)
  have hstep : (⟨v.heap, live⟩ : Client σ).step fs.toPager 0 (.kfree (v.nodes i).data)
      = .done ⟨heap, live.filter (·.1 ≠ (v.nodes i).data)⟩ := by
    simp only [Client.step, hk, Outcome.bind_done]
    rfl
  obtain ⟨bs', fl', hinv, hkeep⟩ := (h.inv.step h.pos hal).done _ hstep
  have hnode : ∀ j, j ≠ i → v'.nodes j = v.nodes j := fun j hj => by rw [hv, Vfs.setNode_ne _ hj]
  have hself : v'.nodes i = n := by rw [hv, Vfs.setNode_self]
  refine ⟨⟨_, bs', fl', h.pos, hh ▸ hinv, fun j => ?_, fun j k hjk hj => ?_⟩, fun j hj => ?_⟩
  · by_cases hj : j = i
    · rw [hj, hself]; exact Or.inl ⟨hd, hc⟩
    · rw [hnode j hj]
      rcases h.owned j with h0 | hm
      · exact Or.inl h0
      · obtain ⟨b, _, _, he, _⟩ := h.inv.owns.owned _ hm
        have h0 : (v.nodes j).data ≠ 0 := by dsimp only at he; omega
        exact Or.inr (List.mem_filter.mpr ⟨hm, by simpa using h.apart j i hj h0⟩)
  · by_cases hji : j = i
    · rw [hji, hself] at hj; exact absurd hd hj
    · rw [hnode j hji] at hj ⊢
      by_cases hki : k = i
      · rw [hki, hself, hd]; exact hj
      · rw [hnode k hki]; exact h.apart j k hjk hj
  · refine ⟨hnode j hj, fun k hk => ?_⟩
    rw [hh]
    exact h.keeps (fun b hb hu hne => hkeep trivial b hb hu hne)
      (h.block_ne hj (by omega)).2 k hk

/-- Slot `i` moves to a block of capacity `cap`, with its bytes. -/
theorem Backed.resize (h : Backed fs base v live bs fl) {i cap data fuel : Nat} {heap : Heap σ}
    (hk : krealloc fs.toPager fuel v.heap (v.nodes i).data cap = .done (heap, data))
    (hpos : 0 < cap)
    (hcap : cap + 32 + 2 * 4096 < 2 ^ 64) (size : Nat) :
    data ≠ 0 ∧ (∃ live' bs' fl', Backed fs base (refill v i heap data cap size) live' bs' fl')
      ∧ (∀ j, j ≠ i → SameFile v (refill v i heap data cap size) j)
      ∧ ∀ k, k < (v.nodes i).capacity → k < cap →
          heap.mem (data + k) = v.heap.mem ((v.nodes i).data + k) := by
  have hal : (⟨v.heap, live⟩ : Client σ).Allowed (.krealloc (v.nodes i).data cap) := by
    refine ⟨?_, hcap⟩
    rcases h.owned i with ⟨h0, _⟩ | hm
    · exact Or.inl h0
    · exact Or.inr (List.mem_map_of_mem (f := (·.1)) hm)
  -- the result is a block with the old bytes in it
  have hnew : data ≠ 0 ∧ ∀ k, k < (v.nodes i).capacity → k < cap →
      heap.mem (data + k) = v.heap.mem ((v.nodes i).data + k) := by
    rcases h.owned i with ⟨h0, hc0⟩ | hm
    · rw [h0, krealloc, if_pos rfl] at hk
      obtain ⟨_, _, nb, hal⟩ :=
        (kmalloc_spec fuel h.inv.heap h.pos h.inv.room hpos (Nat.le_of_lt hcap)).1 heap data hk
      have hptr := hal.ptr
      exact ⟨by omega, fun k hk => absurd hk (by omega)⟩
    · obtain ⟨b, hb, hu, he, hsz⟩ := h.inv.owns.owned _ hm
      dsimp only at he hsz
      rw [he] at hk ⊢
      obtain ⟨_, _, nb, hre⟩ :=
        (krealloc_spec fuel h.inv.heap h.pos h.inv.room hb hu hpos hcap).1 heap data hk
      have hptr := hre.ptr
      exact ⟨by omega, fun k hk1 hk2 => hre.copied k (by omega) hk2⟩
  obtain ⟨hd0, hcopied⟩ := hnew
  have hstep : (⟨v.heap, live⟩ : Client σ).step fs.toPager fuel (.krealloc (v.nodes i).data cap)
      = .done ⟨heap, (data, cap) :: live.filter (·.1 ≠ (v.nodes i).data)⟩ := by
    simp only [Client.step, hk, Outcome.bind_done, if_neg hd0]
    rfl
  obtain ⟨bs', fl', hinv, hkeep⟩ := (h.inv.step h.pos hal).done _ hstep
  have hnode : ∀ j, j ≠ i → (refill v i heap data cap size).nodes j = v.nodes j :=
    fun j hj => Vfs.setNode_ne _ hj
  have hself : ((refill v i heap data cap size).nodes i).data = data
      ∧ ((refill v i heap data cap size).nodes i).capacity = cap := by
    unfold refill
    rw [Vfs.setNode_self]
    exact ⟨rfl, rfl⟩
  have hfresh : data ∉ (live.filter (·.1 ≠ (v.nodes i).data)).map (·.1) :=
    (List.nodup_cons.mp hinv.owns.nodup).1
  -- what another slot had, it still has
  have hothers : ∀ j, j ≠ i → ((v.nodes j).data = 0 ∧ (v.nodes j).capacity = 0)
      ∨ ((v.nodes j).data, (v.nodes j).capacity) ∈ live.filter (·.1 ≠ (v.nodes i).data) := by
    intro j hj
    rcases h.owned j with h0 | hm
    · exact Or.inl h0
    · obtain ⟨b, _, _, he, _⟩ := h.inv.owns.owned _ hm
      have h0 : (v.nodes j).data ≠ 0 := by dsimp only at he; omega
      exact Or.inr (List.mem_filter.mpr ⟨hm, by simpa using h.apart j i hj h0⟩)
  have hne : ∀ j, j ≠ i → (v.nodes j).data ≠ data := by
    intro j hj he
    rcases hothers j hj with ⟨h0, _⟩ | hm
    · exact hd0 (he.symm.trans h0)
    · exact hfresh (he ▸ List.mem_map_of_mem (f := (·.1)) hm)
  refine ⟨hd0, ⟨_, bs', fl', h.pos, hinv, fun j => ?_, fun j k hjk hj => ?_⟩, fun j hj => ?_,
    hcopied⟩
  · by_cases hj : j = i
    · rw [hj, hself.1, hself.2]
      exact Or.inr List.mem_cons_self
    · rw [hnode j hj]
      rcases hothers j hj with h0 | hm
      · exact Or.inl h0
      · exact Or.inr (List.mem_cons_of_mem _ hm)
  · by_cases hji : j = i
    · rw [hji, hself.1, hnode k (fun hk => hjk (hji.trans hk.symm))]
      exact (hne k (fun hk => hjk (hji.trans hk.symm))).symm
    · rw [hnode j hji] at hj ⊢
      by_cases hki : k = i
      · rw [hki, hself.1]; exact hne j hji
      · rw [hnode k hki]; exact h.apart j k hjk hj
  · exact ⟨hnode j hj, fun k hk => h.keeps (fun b hb hu hb' => hkeep trivial b hb hu hb')
      (h.block_ne hj (by omega)).2 k hk⟩

/-- A live block lies below the end of the address space. -/
theorem Backed.block_lt (h : Backed fs base v live bs fl) {b : Blk} (hb : b ∈ bs) :
    b.addr + b.size < 2 ^ 64 := by
  have hgeo := tiles_mem h.inv.heap.rep.tiles hb
  have hlim : b.lim = b.addr + b.size := rfl
  have hroom := h.inv.room
  dsimp only at hgeo hroom
  omega

theorem Backed.data_lt (h : Backed fs base v live bs fl) (i : Nat) :
    (v.nodes i).data + (v.nodes i).capacity < 2 ^ 64 := by
  rcases h.owned i with ⟨h0, hc⟩ | hm
  · rw [h0, hc]; exact Nat.two_pow_pos 64
  · obtain ⟨b, hb, _, he, hsz⟩ := h.inv.owns.owned _ hm
    have := h.block_lt hb
    dsimp only at he hsz
    omega

/-- Bytes stored inside slot `i`'s block. -/
theorem Backed.store (h : Backed fs base v live bs fl) {i lo len : Nat} (buf : Nat → UInt8)
    (hin : lo + len ≤ (v.nodes i).capacity)
    (hn : ∀ j, (v'.nodes j).data = (v.nodes j).data ∧ (v'.nodes j).capacity = (v.nodes j).capacity)
    (hh : v'.heap = { v.heap with mem := copyIn v.heap.mem ((v.nodes i).data + lo) buf len }) :
    Backed fs base v' live bs fl
      ∧ ∀ j, j ≠ i → ∀ k, k < (v.nodes j).capacity →
          v'.heap.mem ((v.nodes j).data + k) = v.heap.mem ((v.nodes j).data + k) := by
  rcases Nat.eq_zero_or_pos len with rfl | hlen
  · have hsame : copyIn v.heap.mem ((v.nodes i).data + lo) buf 0 = v.heap.mem := by
      funext y
      exact if_neg (by omega)
    rw [hsame] at hh
    have hheap : v'.heap = v.heap := hh
    refine ⟨h.frames hn (by rw [hheap]) (by rw [hheap]) (by rw [hheap]) (by rw [hheap]), ?_⟩
    intro j _ k _
    rw [hheap]
  obtain ⟨b, hb, hu, he, hsz⟩ := h.block (i := i) (by omega)
  have hlim : b.lim = b.addr + b.size := rfl
  have hout : ∀ y, y < b.addr + 24 ∨ b.lim - 8 ≤ y →
      copyIn v.heap.mem ((v.nodes i).data + lo) buf len y = v.heap.mem y := by
    intro y hy
    exact if_neg (by omega)
  obtain ⟨hheap, hkeep⟩ := h.inv.heap.store _ hb hu hout
  refine ⟨⟨h.pos, ⟨?_, ?_, h.inv.owns⟩, fun j => ?_, fun j k hjk => ?_⟩, fun j hj k hk => ?_⟩
  · rw [hh]; exact hheap
  · rw [hh]; exact h.inv.room
  · rw [(hn j).1, (hn j).2]; exact h.owned j
  · rw [(hn j).1, (hn k).1]; exact h.apart j k hjk
  · rw [hh]
    obtain ⟨c, hc, _, hce, hcsz⟩ := h.block (i := j) (by omega)
    have hcb : c ≠ b := by
      rintro rfl
      exact (h.block_ne hj (by omega)).2 (hce.trans he.symm)
    have hclim : c.lim = c.addr + c.size := rfl
    exact hkeep c hc hcb _ (by omega) (by omega)

end Backed

/-! ## What every call does to the other files -/

/-- Calls that make room only where there is some: sums that do not wrap on the way to `kmalloc`. -/
def Vfs.Roomy (v : Vfs σ) : VfsOp → Prop
  | .write fd _ len => ∀ i, vfsNodeFromFd v fd = some i → (v.nodes i).type = .file →
      (v.fds fd.toNat).offset + len + 256 + 32 + 2 * 4096 < 2 ^ 64
  | .ftruncate _ length => length < 2 ^ 63
  | _ => True

/-- The file system in shape, and the heap below it. -/
structure Stored (fs : FrameService σ) (v : Vfs σ) : Prop where
  tree : TreeOk v
  sizes : SizeInv v
  backed : ∃ base live bs fl, Backed fs base v live bs fl

/-- `op`, which led to `v'`, neither writes nor truncates nor removes the node with number `n`. -/
def Vfs.Leaves (v : Vfs σ) (n : Nat) (v' : Vfs σ) : VfsOp → Prop
  | .open _ flags => hasFlag flags vfsOTrunc = true → ∀ fd, freeFd v = some fd →
      (v'.fds fd).isOpen = true → (v'.fds fd).inode ≠ n
  | .unlink path => toU32 (vfsResolve v path) ≠ n
  | .write fd _ _ => fdOpen v fd = true → (v.fds fd.toNat).inode ≠ n
  | .ftruncate fd _ => fdOpen v fd = true → (v.fds fd.toNat).inode ≠ n
  | _ => True

section Step

variable {fs : FrameService σ} {v v' : Vfs σ}

/-- The two numbers the heap cares about are as they were. -/
theorem Backed.created {base : Nat} {live : List (Nat × Nat)} {bs : List Blk} {fl : List Nat}
    (h : Backed fs base v live bs fl) {path : CStr} {k : Nat} (hc : Created path k v v') :
    Backed fs base v' live bs fl ∧ v'.heap = v.heap
      ∧ ∀ j, (v.nodes j).used = true → v'.nodes j = v.nodes j := by
  induction hc with
  | none v => exact ⟨h, rfl, fun _ _ => rfl⟩
  | shm t _ ih =>
      obtain ⟨h', hh, hn⟩ := ih h
      exact ⟨h'.frames (fun _ => ⟨rfl, rfl⟩) rfl rfl rfl (Nat.le_refl _), hh, hn⟩
  | @node k v v' v'' parent leaf type major minor inode _ _ _ _ hcreate ih =>
      obtain ⟨h', hh, hn⟩ := ih h
      obtain ⟨p, i, _, _, hi, _, rfl⟩ := createNode_some hcreate
      obtain ⟨_, hfree⟩ := nodeAlloc_some hi
      generalize hnode : freshNode v'.nextInode (toU32 parent) leaf type major minor = n
      have hself : (addNode v' i n).nodes i = n := Vfs.setNode_self n
      have hother : ∀ {j}, j ≠ i → (addNode v' i n).nodes j = v'.nodes j :=
        fun hj => Vfs.setNode_ne n hj
      have hd : n.data = 0 := by rw [← hnode]; rfl
      have hcap : n.capacity = 0 := by rw [← hnode]; rfl
      refine ⟨⟨h'.pos, h'.inv, fun j => ?_, fun j k hjk hj => ?_⟩, hh, fun j hj => ?_⟩
      · by_cases hji : j = i
        · rw [hji, hself]; exact Or.inl ⟨hd, hcap⟩
        · rw [hother hji]; exact h'.owned j
      · by_cases hji : j = i
        · rw [hji, hself] at hj; exact absurd hd hj
        · rw [hother hji] at hj ⊢
          by_cases hki : k = i
          · rw [hki, hself, hd]; exact hj
          · rw [hother hki]; exact h'.apart j k hjk hj
      · have hji : j ≠ i := by
          rintro rfl
          rw [hn j hj] at hfree
          rw [hfree] at hj
          exact absurd hj (by simp)
        rw [hother hji]
        exact hn j hj

/-- What the end of a write leaves of the tables. -/
theorem putBytes_tables (i fd : Nat) (e : FDEntry) (buf : Nat → UInt8) (len : Nat) :
    (putBytes v i fd e buf len).heap
        = { v.heap with mem := copyIn v.heap.mem (u64 ((v.nodes i).data + e.offset)) buf len }
      ∧ (putBytes v i fd e buf len).fds = (v.setFd fd { e with offset := u64 (e.offset + len) }).fds
      ∧ (∀ j, j ≠ i → (putBytes v i fd e buf len).nodes j = v.nodes j)
      ∧ (putBytes v i fd e buf len).nodes i
        = { v.nodes i with size := max (v.nodes i).size (u64 (e.offset + len)) } := by
  unfold putBytes
  dsimp only
  split
  · next hgt =>
    refine ⟨rfl, rfl, fun j hj => Vfs.setNode_ne _ hj, ?_⟩
    rw [Vfs.setNode_self, Nat.max_eq_right (by omega)]
  · next hgt =>
    refine ⟨rfl, rfl, fun j hj => rfl, ?_⟩
    rw [Nat.max_eq_left (by omega)]
    rfl

/-- A write of `len` bytes at the descriptor's offset, as the file in slot `i` sees it. -/
structure Wrote (v v' : Vfs σ) (i fd : Nat) (buf : Nat → UInt8) (len : Nat) : Prop where
  place : (v'.nodes i).place = (v.nodes i).place
  size : (v'.nodes i).size = max (v.nodes i).size ((v.fds fd).offset + len)
  fds : v'.fds = (v.setFd fd { v.fds fd with offset := (v.fds fd).offset + len }).fds
  new : ∀ k, k < len → v'.heap.mem ((v'.nodes i).data + ((v.fds fd).offset + k)) = buf k
  old : ∀ k, k < (v.nodes i).size → k < (v.fds fd).offset ∨ (v.fds fd).offset + len ≤ k →
    v'.heap.mem ((v'.nodes i).data + k) = v.heap.mem ((v.nodes i).data + k)

/-- **A write that has room**: the file holds the new bytes where they belong and the old ones
elsewhere, and no other file notices. -/
theorem Backed.wrote {base : Nat} {live : List (Nat × Nat)} {bs : List Blk} {fl : List Nat}
    (h : Backed fs base v live bs fl) (hsz : SizeInv v) {fuel i fd len : Nat} (buf : Nat → UInt8)
    {v₁ : Vfs σ} (hend : (v.fds fd).offset + len + 256 + 32 + 2 * 4096 < 2 ^ 64)
    (hroom : Roomed fs fuel v i ((v.fds fd).offset + len) v₁) :
    (∃ live' bs' fl', Backed fs base (putBytes v₁ i fd (v.fds fd) buf len) live' bs' fl')
      ∧ Wrote v (putBytes v₁ i fd (v.fds fd) buf len) i fd buf len
      ∧ ∀ j, j ≠ i → SameFile v (putBytes v₁ i fd (v.fds fd) buf len) j := by
  -- the block with room in it
  have hmid : (∃ live' bs' fl', Backed fs base v₁ live' bs' fl')
      ∧ (v₁.nodes i).place = (v.nodes i).place ∧ (v₁.nodes i).size = (v.nodes i).size
      ∧ v₁.fds = v.fds ∧ (v.fds fd).offset + len ≤ (v₁.nodes i).capacity
      ∧ (∀ j, j ≠ i → SameFile v v₁ j)
      ∧ ∀ k, k < (v.nodes i).size →
          v₁.heap.mem ((v₁.nodes i).data + k) = v.heap.mem ((v.nodes i).data + k) := by
    cases hroom with
    | fits hle => exact ⟨⟨live, bs, fl, h⟩, rfl, rfl, rfl, hle, fun j _ => .refl v j, fun _ _ => rfl⟩
    | @grown hlt heap data hk _ =>
        rw [u64_of_lt (by omega)] at hk ⊢
        obtain ⟨_, hb, hothers, hcopied⟩ := h.resize hk (by omega) (by omega) (v.nodes i).size
        have hcap := hsz i
        have hself : (refill v i heap data ((v.fds fd).offset + len + 256) (v.nodes i).size).nodes i
            = { v.nodes i with data := data, capacity := (v.fds fd).offset + len + 256 } :=
          Vfs.setNode_self _
        refine ⟨hb, ?_⟩
        rw [hself]
        refine ⟨rfl, rfl, rfl, by dsimp only; omega, hothers, fun k hk => ?_⟩
        exact hcopied k (by omega) (by omega)
  obtain ⟨⟨live', bs', fl', h₁⟩, hplace, hsize, hfds, hcap, hothers, hbytes⟩ := hmid
  obtain ⟨hheap, hfds', hne, hself⟩ := putBytes_tables (v := v₁) i fd (v.fds fd) buf len
  have hlt := h₁.data_lt i
  rw [u64_of_lt (show (v₁.nodes i).data + (v.fds fd).offset < 2 ^ 64 by omega)] at hheap
  rw [u64_of_lt (show (v.fds fd).offset + len < 2 ^ 64 by omega)] at hfds' hself
  generalize putBytes v₁ i fd (v.fds fd) buf len = v' at *
  have hn : ∀ j, (v'.nodes j).data = (v₁.nodes j).data
      ∧ (v'.nodes j).capacity = (v₁.nodes j).capacity := by
    intro j
    by_cases hj : j = i
    · rw [hj, hself]; exact ⟨rfl, rfl⟩
    · rw [hne j hj]; exact ⟨rfl, rfl⟩
  obtain ⟨h₂, hkeep⟩ := h₁.store buf hcap hn hheap
  refine ⟨⟨live', bs', fl', h₂⟩, ⟨?_, ?_, ?_, fun k hk => ?_, fun k hk hout => ?_⟩, fun j hj => ?_⟩
  · rw [hself]; exact hplace
  · rw [hself, ← hsize]
  · rw [hfds']
    unfold Vfs.setFd
    rw [hfds]
  · rw [(hn i).1, hheap]
    show copyIn _ _ _ _ _ = _
    unfold copyIn
    rw [if_pos (by omega)]
    congr 1
    omega
  · rw [(hn i).1, hheap, ← hbytes k hk]
    exact if_neg (by omega)
  · refine (hothers j hj).trans ⟨hne j hj, fun k hk => hkeep j hj k hk⟩

theorem Vfs.Roomy.endFits {op : VfsOp} (h : v.Roomy op) : v.EndFits op := by
  cases op with
  | write fd buf len =>
      intro i hi ht
      have := h i hi ht
      omega
  | _ => exact h

/-- The node a descriptor denotes is not the one with another number. -/
theorem slot_ne {v : Vfs σ} {inode i t : Nat} (hi : nodeGet v inode = some i)
    (hne : inode ≠ (v.nodes t).inode) : t ≠ i := by
  rintro rfl
  exact hne (nodeGet_some hi).2.2.symm

/-- **Every roomy call keeps the heap below in shape, and leaves alone the files it is not about.**
-/
theorem Backed.effect {base : Nat} {live : List (Nat × Nat)} {bs : List Blk} {fl : List Nat}
    (h : Backed fs base v live bs fl) (hsz : SizeInv v) {fuel : Nat} {op : VfsOp}
    (he : Effect fs fuel v op v') (hroomy : v.Roomy op) :
    (∃ live' bs' fl', Backed fs base v' live' bs' fl')
      ∧ ∀ t, (v.nodes t).used = true → v.Leaves (v.nodes t).inode v' op → SameFile v v' t := by
  -- creating takes a free slot
  have hcreated : ∀ {path k} {v₁ : Vfs σ}, Created path k v v₁ →
      Backed fs base v₁ live bs fl ∧ ∀ t, (v.nodes t).used = true → SameFile v v₁ t := by
    intro path k v₁ hc
    obtain ⟨h₁, hheap, hnodes⟩ := h.created hc
    exact ⟨h₁, fun t ht => ⟨hnodes t ht, fun k _ => by rw [hheap]⟩⟩
  cases he with
  | idle => exact ⟨⟨_, _, _, h⟩, fun t _ _ => .refl v t⟩
  | moves _ hm =>
      rcases hm with rfl | ⟨e, rfl⟩
      · exact ⟨⟨_, _, _, h⟩, fun t _ _ => .refl _ t⟩
      · exact ⟨⟨_, _, _, h.frames (fun _ => ⟨rfl, rfl⟩) rfl rfl rfl (Nat.le_refl _)⟩,
          fun t _ _ => .of_eq t rfl rfl⟩
  | cwd inode =>
      exact ⟨⟨_, _, _, h.frames (fun _ => ⟨rfl, rfl⟩) rfl rfl rfl (Nat.le_refl _)⟩,
        fun t _ _ => .of_eq t rfl rfl⟩
  | madeDir _ hc => exact ⟨⟨_, _, _, (hcreated hc).1⟩, fun t ht _ => (hcreated hc).2 t ht⟩
  | madeChr _ hc => exact ⟨⟨_, _, _, (hcreated hc).1⟩, fun t ht _ => (hcreated hc).2 t ht⟩
  | failed _ _ hc => exact ⟨⟨_, _, _, (hcreated hc).1⟩, fun t ht _ => (hcreated hc).2 t ht⟩
  | @opened path flags k fd i inode v₁ _ _ _ hc hfd hi _ ho =>
      obtain ⟨h₁, hsame⟩ := hcreated hc
      cases ho with
      | plain _ =>
          exact ⟨⟨_, _, _, h₁.frames (fun _ => ⟨rfl, rfl⟩) rfl rfl rfl (Nat.le_refl _)⟩,
            fun t ht _ => (hsame t ht).trans (.of_eq t rfl rfl)⟩
      | trunc htr _ hk =>
          obtain ⟨hb, hothers⟩ := h₁.release
            ((clearNode v₁ i _).setFd fd ⟨true, inode, 0, flags⟩) hk rfl rfl rfl rfl
          refine ⟨hb, fun t ht hleave => (hsame t ht).trans (hothers t (slot_ne hi ?_))⟩
          have hne := hleave htr fd hfd (by rw [Vfs.setFd_self])
          rw [Vfs.setFd_self] at hne
          rw [(hsame t ht).1]
          exact hne
  | @removed path i s shm heap hi _ _ hs hk =>
      have h₁ : Backed fs base (v.withFrames s shm) live bs fl :=
        h.frames (fun _ => ⟨rfl, rfl⟩) rfl rfl rfl hs
      obtain ⟨hb, hothers⟩ := h₁.release (dropNode (v.withFrames s shm) i heap) hk rfl rfl rfl rfl
      exact ⟨hb, fun t _ hleave => hothers t (slot_ne hi hleave)⟩
  | @written fd buf len x _ hw =>
      cases hw with
      | refused _ => exact ⟨⟨_, _, _, h⟩, fun t _ _ => .refl v t⟩
      | device _ _ hs =>
          exact ⟨⟨_, _, _, h.frames (fun _ => ⟨rfl, rfl⟩) rfl rfl rfl hs⟩,
            fun t _ _ => .of_eq t rfl rfl⟩
      | @full i heap ho hi ht _ hk =>
          -- there is always a block for a size that does not wrap
          have hroom := hroomy i (by unfold vfsNodeFromFd; rw [if_neg (by simp [ho]), hi]) ht
          rw [u64_of_lt (show (v.fds fd.toNat).offset + len < 2 ^ 64 by omega),
            u64_of_lt (by omega)] at hk
          exact absurd rfl (h.resize hk (by omega) (by omega) 0).1
      | @file i v₁ ho hi ht hroom =>
          have hend := hroomy i (by unfold vfsNodeFromFd; rw [if_neg (by simp [ho]), hi]) ht
          rw [u64_of_lt (show (v.fds fd.toNat).offset + len < 2 ^ 64 by omega)] at hroom
          obtain ⟨hb, _, hothers⟩ := h.wrote hsz buf hend hroom
          exact ⟨hb, fun t _ hleave => hothers t (slot_ne hi (hleave ho))⟩
  | @truncated fd length _ ht =>
      have hlen : length < 2 ^ 63 := hroomy
      have hcap : ∀ {n : Int}, 0 ≤ n → n < 2 ^ 63 → 0 < alignUpPage (u64 (toU64 n + 256))
          ∧ alignUpPage (u64 (toU64 n + 256)) + 32 + 2 * 4096 < 2 ^ 64 := by
        intro n h0 hn
        have hu : toU64 n < 2 ^ 63 := by unfold toU64; omega
        rw [u64_of_lt (by omega)]
        have hup := alignUpPage_spec (show toU64 n + 256 + 4095 < 2 ^ 64 by omega)
        omega
      cases ht with
      | refused => exact ⟨⟨_, _, _, h⟩, fun t _ _ => .refl v t⟩
      | shm hs =>
          exact ⟨⟨_, _, _, h.frames (fun _ => ⟨rfl, rfl⟩) rfl rfl rfl hs⟩,
            fun t _ _ => .of_eq t rfl rfl⟩
      | full _ _ h0 _ hk =>
          exact absurd rfl (h.resize hk (hcap h0 hlen).1 (hcap h0 hlen).2 0).1
      | grown hi _ h0 _ hk _ =>
          obtain ⟨ho, hg⟩ := vfsNodeFromFd_some hi
          obtain ⟨_, hb, hothers, _⟩ := h.resize hk (hcap h0 hlen).1 (hcap h0 hlen).2 (toU64 length)
          exact ⟨hb, fun t _ hleave => hothers t (slot_ne hg (hleave ho))⟩
      | @fits i hi _ _ _ =>
          obtain ⟨ho, hg⟩ := vfsNodeFromFd_some hi
          refine ⟨⟨live, bs, fl, ?_⟩, fun t _ hleave => ?_⟩
          · refine h.frames (fun j => ?_) rfl rfl rfl (Nat.le_refl _)
            unfold refill
            by_cases hj : j = i
            · rw [hj, Vfs.setNode_self]; exact ⟨rfl, rfl⟩
            · rw [Vfs.setNode_ne _ hj]; exact ⟨rfl, rfl⟩
          · exact ⟨Vfs.setNode_ne _ (slot_ne hg (hleave ho)), fun k _ => rfl⟩

theorem Stored.step (h : Stored fs v) {input : DevInput} {fuel : Nat} {op : VfsOp}
    (hroomy : v.Roomy op) (hs : v.step fs input fuel op = .done v') (hnum : v'.nextInode ≤ 2 ^ 31) :
    Stored fs v'
      ∧ ∀ t, (v.nodes t).used = true → v.Leaves (v.nodes t).inode v' op → SameFile v v' t := by
  obtain ⟨base, live, bs, fl, hb⟩ := h.backed
  obtain ⟨⟨live', bs', fl', hb'⟩, hsame⟩ := hb.effect h.sizes (step_effect hs) hroomy
  have hbefore := h.tree.2
  exact ⟨⟨⟨h.tree.1.edit (step_treeEdit hs) (by omega), hnum⟩, h.sizes.step hroomy.endFits hs,
    base, live', bs', fl', hb'⟩, hsame⟩

end Step

end VnlKernel
