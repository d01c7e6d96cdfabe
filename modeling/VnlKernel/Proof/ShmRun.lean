import VnlKernel.Proof.ShmPages
import VnlKernel.Proof.VfsTree

/-!
# Shared memory objects

An object of `size` bytes has a frame for each of the first `⌈size / 4096⌉` indices of its
page array and none for the others, and no two objects share a frame. Page counts are
computed by adding 4095 first, in 64 bits: a length within 4095 of `2 ^ 64`, such as a
negative one, comes to no pages at all and is stored as the size. Everything here is about
runs in which that sum does not wrap.
-/

namespace VnlKernel

open Bits Run

variable {σ : Type}

/-! ## The table -/

/-- The frames of objects other than `i`. -/
def Others (t : ShmTable) (i : Nat) (a : Nat) : Prop :=
  ∃ j, j ≠ i ∧ (t j).used = true ∧ ∃ k, k < pagesFor (t j).size ∧ (t j).pages k = a

/-- **Sizes and page arrays are in step.** -/
structure ShmInv (p : Pmm) (t : ShmTable) : Prop where
  inv : PmmInv p
  size : ∀ i, (t i).used = true → (t i).size ≤ shmMaxPages * pageSize
  pages : ∀ i, (t i).used = true → PagesOn p (Others t i) (t i).pages (· < pagesFor (t i).size)

section Table

variable {p p' : Pmm} {t : ShmTable} {i : Nat}

@[simp] theorem ShmTable.set_self (b : ShmObject) : t.set i b i = b := if_pos rfl

theorem ShmTable.set_ne (b : ShmObject) {j : Nat} (h : j ≠ i) : t.set i b j = t j := if_neg h

theorem pagesFor_of_le {size : Nat} (h : size + 4095 < 2 ^ 64) :
    pagesFor size = (size + 4095) / 4096 := by
  unfold pagesFor
  rw [show pageSize = 4096 from rfl, u64_of_lt (by omega)]

/-- One object is changed; the others keep their frames. -/
theorem ShmInv.update (h : ShmInv p t) (hp : PmmInv p') {b : ShmObject}
    (hrest : ∀ a, Others t i a → FrameTaken p' a)
    (hb : b.used = true → b.size ≤ shmMaxPages * pageSize
      ∧ PagesOn p' (Others t i) b.pages (· < pagesFor b.size)) : ShmInv p' (t.set i b) := by
  have hothers : ∀ a, Others (t.set i b) i a → Others t i a := by
    rintro a ⟨j, hj, hu, k, hk, he⟩
    rw [ShmTable.set_ne _ hj] at hu hk he
    exact ⟨j, hj, hu, k, hk, he⟩
  refine ⟨hp, ?_, ?_⟩
  · intro j hu
    by_cases hj : j = i
    · rw [hj, ShmTable.set_self] at hu ⊢; exact (hb hu).1
    · rw [ShmTable.set_ne _ hj] at hu ⊢; exact h.size j hu
  · intro j hu
    by_cases hj : j = i
    · subst hj
      rw [ShmTable.set_self] at hu ⊢
      have hon := (hb hu).2
      exact ⟨hp, fun a ha => hrest a (hothers a ha),
        fun k hk => ⟨(hon.taken k hk).1, fun hc => (hon.taken k hk).2 (hothers _ hc)⟩, hon.absent,
          hon.inj⟩
    · rw [ShmTable.set_ne _ hj] at hu ⊢
      have hon := h.pages j hu
      -- what object `j` has is among the others of `i`
      have hmine : ∀ k, k < pagesFor (t j).size → Others t i ((t j).pages k) :=
        fun k hk => ⟨j, hj, hu, k, hk, rfl⟩
      refine ⟨hp, ?_, fun k hk => ⟨hrest _ (hmine k hk), ?_⟩, hon.absent, hon.inj⟩
      · rintro a ⟨l, hl, hul, k, hk, rfl⟩
        by_cases hli : l = i
        · subst hli
          rw [ShmTable.set_self] at hul hk ⊢
          exact ((hb hul).2.taken k hk).1
        · rw [ShmTable.set_ne _ hli] at hul hk ⊢
          exact hrest _ ⟨l, hli, hul, k, hk, rfl⟩
      · rintro ⟨l, hl, hul, m, hm, he⟩
        by_cases hli : l = i
        · subst hli
          rw [ShmTable.set_self] at hul hm he
          exact ((hb hul).2.taken m hm).2 (he ▸ hmine k hk)
        · rw [ShmTable.set_ne _ hli] at hul hm he
          exact (hon.taken k hk).2 ⟨l, hl, hul, m, hm, he⟩

/-- More frames are taken elsewhere. -/
theorem ShmInv.mono (h : ShmInv p t) (hp : PmmInv p') (hm : ∀ a, FrameTaken p a → FrameTaken p' a) :
    ShmInv p' t :=
  ⟨hp, h.size, fun i hu =>
    let hon := h.pages i hu
    ⟨hp, fun a ha => hm a (hon.rest a ha),
      fun k hk => ⟨hm _ (hon.taken k hk).1, (hon.taken k hk).2⟩,
      hon.absent, hon.inj⟩⟩

theorem ShmInv.others_taken (h : ShmInv p t) (i : Nat) (a : Nat) (ha : Others t i a) :
    FrameTaken p a := by
  obtain ⟨j, _, hu, k, hk, rfl⟩ := ha
  exact ((h.pages j hu).taken k hk).1

/-- A new object has no pages. -/
theorem ShmInv.open (h : ShmInv p t) (name : CStr) : ShmInv p (shmOpenObject t name).1 := by
  unfold shmOpenObject
  split
  · exact h
  · split
    · refine h.update h.inv (h.others_taken _) fun _ => ⟨Nat.zero_le _, ?_⟩
      have hnone : ∀ k, ¬ k < pagesFor 0 := fun k => by
        rw [pagesFor_of_le (by decide)]
        omega
      exact ⟨h.inv, h.others_taken _, fun k hk => absurd hk (hnone k), fun k _ => rfl,
        fun k l hk => absurd hk (hnone k)⟩
    · exact h

end Table

/-! ## The operations -/

section Ops

variable {fs : FrameService σ} (o : OverPmm fs) {s s' : σ} {t t' : ShmTable} {idx : Int}

theorem shmValid_used (h : shmValid t idx = true) : (t idx.toNat).used = true := by
  unfold shmValid at h
  simp only [Bool.and_eq_true] at h
  exact h.2

/-- **`shm_truncate`** keeps sizes and pages in step; if it succeeds the size is the one asked for.
-/
theorem shmTruncate_inv {length : Nat} {r : Int} (h : ShmInv (o.pmm s) t)
    (hlen : length + 4095 < 2 ^ 64)
    (hs : shmTruncate fs s t idx length = (s', t', r)) :
    ShmInv (o.pmm s') t' ∧ (r < 0 ∨ shmValid t' idx = true ∧ (t' idx.toNat).size = length) := by
  unfold shmTruncate at hs
  split at hs
  · cases hs
    exact ⟨h, Or.inl (by decide)⟩
  · next hv =>
    have hv : shmValid t idx = true := by simpa using hv
    have hu := shmValid_used hv
    dsimp only at hs
    split at hs
    · cases hs
      exact ⟨h, Or.inl (by decide)⟩
    · next hmax =>
      have hon := h.pages _ hu
      obtain ⟨⟨s₁, pages₁, ok⟩, hg⟩ : ∃ x, shmGrowPages fs (pagesFor (t idx.toNat).size) s
        (t idx.toNat).pages (pagesFor length - pagesFor (t idx.toNat).size)
        (pagesFor (t idx.toNat).size) = x := ⟨_, rfl⟩
      -- it grows first, and only one of the two does anything
      have hgrow := shmGrowPages_on o _ _ _ (Nat.le_refl _) hon hg
      rw [hg] at hs
      dsimp only at hs
      have hset : ∀ b : ShmObject, b.used = true → shmValid (t.set idx.toNat b) idx = true := by
        intro b hb
        unfold shmValid at hv ⊢
        rw [ShmTable.set_self, hb]
        simp only [Bool.and_eq_true] at hv ⊢
        exact ⟨hv.1, trivial⟩
      cases ok with
      -- no frames: the object is as it was
      | false =>
          cases hs
          refine ⟨h.update hgrow.inv hgrow.rest fun _ => ⟨h.size _ hu, ?_⟩, Or.inl (by decide)⟩
          exact hgrow.congr fun k => by simp
      | true =>
          obtain ⟨⟨s₂, pages₂⟩, hf⟩ : ∃ x, shmFreePages fs s₁ pages₁
            (pagesFor (t idx.toNat).size - pagesFor length) (pagesFor length) = x := ⟨_, rfl⟩
          have hfree := shmFreePages_on o (pagesFor (t idx.toNat).size - pagesFor length)
            (pagesFor length) hgrow fun k h1 h2 => by simp only [if_true]; omega
          rw [hf] at hfree hs
          cases hs
          refine ⟨h.update hfree.inv hfree.rest fun _ => ⟨?_, ?_⟩,
            Or.inr ⟨hset _ hu, by rw [ShmTable.set_self]⟩⟩
          · rw [pagesFor_of_le hlen] at hmax
            have h1 : shmMaxPages = 1024 := rfl
            have h2 : shmMaxPages * pageSize = 4194304 := rfl
            dsimp only
            omega
          · refine hfree.congr fun k => ?_
            simp only [if_true]
            omega

/-- `shm_destroy` gives every page back. -/
theorem shmDestroy_inv (h : ShmInv (o.pmm s) t) (hs : shmDestroy fs s t idx = (s', t')) :
    ShmInv (o.pmm s') t' := by
  unfold shmDestroy at hs
  split at hs
  · cases hs
    exact h
  · next hv =>
    have hu := shmValid_used (show shmValid t idx = true by simpa using hv)
    have hfree := shmFreePages_on o (pagesFor (t idx.toNat).size) 0 (h.pages _ hu)
      fun k _ h2 => by omega
    cases hs
    exact h.update hfree.inv hfree.rest fun hc => absurd hc (by simp)

/-- The pages that the copy loop looks at, from offset `off` on. -/
def shmTouches (pages : Nat → Nat) : Nat → Nat → Nat → List Nat
  | 0, _, _ => []
  | fuel + 1, off, left =>
      if left = 0 then []
      else
        let pageIdx := off / pageSize
        let pageOff := off % pageSize
        let chunk := if pageSize - pageOff > left then left else pageSize - pageOff
        pageIdx :: if pages pageIdx = 0 then [] else shmTouches pages fuel (off + chunk) (left - chunk)

/-- The pages it looks at hold the bytes it copies. -/
theorem shmTouches_lt {pages : Nat → Nat} {b : Nat} : ∀ (fuel off left : Nat),
    off + left ≤ b * pageSize →
    ∀ i ∈ shmTouches pages fuel off left, i < b
  | 0, off, left, _, i, hi => absurd hi (by simp [shmTouches])
  | fuel + 1, off, left, h, i, hi => by
      rw [shmTouches] at hi
      split at hi
      · exact absurd hi (by simp)
      · dsimp only at hi
        rcases List.mem_cons.mp hi with rfl | hi
        · rw [Nat.div_lt_iff_lt_mul (by decide)]
          omega
        · split at hi
          · exact absurd hi (by simp)
          · refine shmTouches_lt fuel _ _ ?_ i hi
            split
            · omega
            · omega

/-- The pages that `shm_read` looks at. -/
def shmReadTouches (t : ShmTable) (idx : Int) (len off : Nat) : List Nat :=
  if !shmValid t idx then []
  else
    let shm := t idx.toNat
    if shm.size ≤ off then []
    else
      let avail := shm.size - off
      let toRead := if len < avail then len else avail
      shmTouches shm.pages toRead off toRead

/-- The pages that `shm_write` looks at. -/
def shmWriteTouches (fs : FrameService σ) (s : σ) (t : ShmTable) (idx : Int) (len off : Nat) : List Nat :=
  if !shmValid t idx then []
  else
    let newEnd := u64 (off + len)
    let (_, t, r) :=
      if newEnd > (t idx.toNat).size then shmTruncate fs s t idx newEnd else (s, t, 0)
    if r < 0 then [] else shmTouches (t idx.toNat).pages len off len

/-- **`shm_read`** stays inside the page array. -/
theorem shmReadTouches_lt {p : Pmm} (h : ShmInv p t) {len off : Nat} :
    ∀ i ∈ shmReadTouches t idx len off, i < shmMaxPages := by
  intro i hi
  unfold shmReadTouches at hi
  split at hi
  · exact absurd hi (by simp)
  · next hv =>
    have hsize := h.size _ (shmValid_used (show shmValid t idx = true by simpa using hv))
    dsimp only at hi
    split at hi
    · exact absurd hi (by simp)
    · refine shmTouches_lt _ _ _ ?_ i hi
      split
      · omega
      · omega

/-- The growing part of `shm_write`. -/
theorem shmWrite_grown {len off : Nat} {r : Int} (h : ShmInv (o.pmm s) t)
    (hv : shmValid t idx = true)
    (hoff : off + len + 4095 < 2 ^ 64)
    (hs : (if u64 (off + len) > (t idx.toNat).size then shmTruncate fs s t idx (u64 (off + len))
      else (s, t, 0)) = (s', t', r)) :
    ShmInv (o.pmm s') t' ∧ (r < 0 ∨ shmValid t' idx = true ∧ off + len ≤ (t' idx.toNat).size) := by
  rw [u64_of_lt (by omega)] at hs
  split at hs
  · obtain ⟨hinv, hr⟩ := shmTruncate_inv o h hoff hs
    exact ⟨hinv, hr.imp_right fun ⟨h1, h2⟩ => ⟨h1, h2.ge⟩⟩
  · next hle =>
    cases hs
    exact ⟨h, Or.inr ⟨hv, Nat.le_of_not_lt hle⟩⟩

/-- **`shm_write`** keeps sizes and pages in step, and stays inside the page array. -/
theorem shmWrite_inv (buf : Nat → UInt8) {len off off' : Nat} {r : Int} (h : ShmInv (o.pmm s) t)
    (hoff : off + len + 4095 < 2 ^ 64) (hs : shmWrite fs s t idx buf len off = (s', t', r, off')) :
    ShmInv (o.pmm s') t' ∧ ∀ i ∈ shmWriteTouches fs s t idx len off, i < shmMaxPages := by
  unfold shmWrite at hs
  unfold shmWriteTouches
  split at hs
  · next hv =>
    cases hs
    exact ⟨h, by simp [hv]⟩
  · next hv =>
    rw [if_neg hv]
    dsimp only at hs ⊢
    obtain ⟨⟨s₁, t₁, r₁⟩, hg⟩ : ∃ x, (if u64 (off + len) > (t idx.toNat).size then
      shmTruncate fs s t idx (u64 (off + len)) else (s, t, 0)) = x := ⟨_, rfl⟩
    obtain ⟨hinv, hr⟩ := shmWrite_grown o h (by simpa using hv) hoff hg
    rw [hg] at hs ⊢
    dsimp only at hs ⊢
    split at hs
    · next hneg =>
      cases hs
      exact ⟨hinv, by simp [hneg]⟩
    · next hneg =>
      obtain ⟨hv₁, hend⟩ := hr.resolve_left hneg
      have hsize := hinv.size _ (shmValid_used hv₁)
      refine ⟨?_, ?_⟩
      · -- the bytes go to frames; the allocator does not see them
        split at hs
        · cases hs; rw [o.setPhys]; exact hinv
        · cases hs; rw [o.setPhys]; exact hinv
      · rw [if_neg hneg]
        exact shmTouches_lt _ _ _ (by omega)

end Ops

/-! ## What the heap does to the frames -/

/-- Pages were mapped for the heap. -/
def Mapped (pg : Pager σ) : σ → σ → Prop :=
  Relation.ReflTransGen fun a b => ∃ va frame, pg.mapPage a va = some (b, frame)

section Heap

variable {pg : Pager σ} {s s' : Heap σ}

theorem mapPages_mapped {msg : String} : ∀ {n va : Nat} {s s' : Heap σ},
    mapPages pg msg n va s = .done s' → Mapped pg s.pages s'.pages
  | 0, va, s, s', h => by
      cases h
      exact .refl
  | n + 1, va, s, s', h => by
      rw [mapPages] at h
      split at h
      · cases h
      · next hm => exact .head ⟨_, _, hm⟩ (mapPages_mapped h)

theorem freeListInsert_pages (s : Heap σ) (h : Nat) : (freeListInsert s h).pages = s.pages := by
  unfold freeListInsert
  dsimp only
  split <;> rfl

theorem freeListRemove_pages (s : Heap σ) (h : Nat) : (freeListRemove s h).pages = s.pages := by
  unfold freeListRemove
  dsimp only
  split <;> split <;> rfl

theorem heapExpand_mapped {extra : Nat} (h : heapExpand pg s extra = .done s') :
    Mapped pg s.pages s'.pages := by
  obtain ⟨s₁, hm, h⟩ := Outcome.bind_eq_done h
  have hm := mapPages_mapped hm
  cases h
  rw [freeListInsert_pages]
  exact hm

theorem takeBlock_pages (s : Heap σ) (h size : Nat) : (takeBlock s h size).1.pages = s.pages := by
  unfold takeBlock
  have hpages := freeListRemove_pages s h
  generalize freeListRemove s h = s₁ at hpages ⊢
  dsimp only
  split
  · rw [freeListInsert_pages]
    exact hpages
  · exact hpages

theorem kmalloc_mapped : ∀ {fuel size ptr : Nat} {s s' : Heap σ},
    kmalloc pg fuel s size = .done (s', ptr) → Mapped pg s.pages s'.pages
  | 0, size, ptr, s, s', h => by cases h
  | fuel + 1, size, ptr, s, s', h => by
      rw [kmalloc] at h
      split at h
      · cases h
        exact .refl
      · obtain ⟨b, _, h⟩ := Outcome.bind_eq_done h
        split at h
        · have he := takeBlock_pages s b (blockSizeFor size)
          rw [Outcome.done.inj h] at he
          rw [he]
          exact .refl
        · obtain ⟨s₁, he, h⟩ := Outcome.bind_eq_done h
          exact (heapExpand_mapped he).trans (kmalloc_mapped h)

theorem coalesceNext_pages (s : Heap σ) (h : Nat) : (coalesceNext s h).pages = s.pages := by
  unfold coalesceNext
  dsimp only
  have hpages := freeListRemove_pages s (nextBlock s.mem h)
  generalize freeListRemove s (nextBlock s.mem h) = s₁ at hpages ⊢
  split
  · exact hpages
  · rfl

theorem kfree_pages {ptr : Nat} (h : kfree s ptr = .done s') : s'.pages = s.pages := by
  unfold kfree at h
  split at h
  · cases h
    rfl
  · dsimp only at h
    split at h
    · cases h
    · cases h
      rw [freeListInsert_pages, coalesceNext_pages]

theorem krealloc_mapped {fuel ptr size ptr' : Nat}
    (h : krealloc pg fuel s ptr size = .done (s', ptr')) :
    Mapped pg s.pages s'.pages := by
  unfold krealloc at h
  split at h
  · exact kmalloc_mapped h
  · obtain ⟨⟨s₁, newPtr⟩, hk, h⟩ := Outcome.bind_eq_done h
    have hm := kmalloc_mapped hk
    dsimp only at h
    split at h
    · cases h
      exact hm
    · obtain ⟨s₂, hf, h⟩ := Outcome.bind_eq_done h
      cases h
      rw [kfree_pages hf]
      exact hm

end Heap

theorem ShmInv.mapped {fs : FrameService σ} (o : OverPmm fs) {s s' : σ} {t : ShmTable}
    (h : ShmInv (o.pmm s) t) (hm : Mapped fs.toPager s s') : ShmInv (o.pmm s') t := by
  induction hm with
  | refl => exact h
  | tail _ hstep ih =>
      obtain ⟨va, frame, hmap⟩ := hstep
      obtain ⟨hinv, hmono⟩ := frameTaken_grows ih.inv (o.mapPage hmap)
      exact ih.mono hinv hmono

/-! ## The calls of the file system -/

/-- The length a call asks for leaves room for the rounding, if it is for shared memory. A negative
length is one of the largest. -/
def VfsOp.Orderly (v : Vfs σ) : VfsOp → Prop
  | .ftruncate fd length => ∀ i, vfsNodeFromFd v fd = some i → (v.nodes i).type = .chr →
      (v.nodes i).devMajor = devShmMajor → toU64 length + 4095 < 2 ^ 64
  | .write fd _ len => ∀ i, vfsNodeFromFd v fd = some i → (v.nodes i).type = .chr →
      (v.nodes i).devMajor = devShmMajor → (v.fds fd.toNat).offset + len + 4095 < 2 ^ 64
  | _ => True

/-- The objects of a file system. -/
def Vfs.ShmOk {fs : FrameService σ} (o : OverPmm fs) (v : Vfs σ) : Prop :=
  ShmInv (o.pmm v.heap.pages) v.shm

section Calls

variable {fs : FrameService σ} {v v' : Vfs σ}

theorem createNode_frames {parent : Int} {leaf : CStr} {type : VFSNodeType}
    {major minor inode : Nat}
    (h : createNode v parent leaf type major minor = some (v', inode)) :
    v'.heap = v.heap ∧ v'.shm = v.shm := by
  obtain ⟨_, i, _, _, _, _, rfl⟩ := createNode_some h
  exact ⟨rfl, rfl⟩

theorem makeNode_frames (path : CStr) (type : VFSNodeType) (major minor : Nat) :
    (makeNode v path type major minor).1.heap = v.heap
      ∧ (makeNode v path type major minor).1.shm = v.shm := by
  rcases makeNode_cases v path type major minor with h | ⟨_, _, _, _, _, _, _, h⟩
  · rw [h]
    exact ⟨rfl, rfl⟩
  · exact createNode_frames h

theorem Moves.frames {k : Nat} (h : Moves v k v') : v'.heap = v.heap ∧ v'.shm = v.shm := by
  rcases h with rfl | ⟨e, rfl⟩
  · exact ⟨rfl, rfl⟩
  · exact ⟨rfl, rfl⟩

theorem openLookup_frames (path : CStr) (flags : Nat) :
    (openLookup v path flags).1.heap = v.heap ∧ ((openLookup v path flags).1.shm = v.shm
      ∨ (openLookup v path flags).1.shm = (shmOpenObject v.shm (path.drop 9)).1) := by
  unfold openLookup
  split
  · dsimp only
    split
    · exact ⟨rfl, Or.inl rfl⟩
    · split
      · split
        · exact ⟨rfl, Or.inr rfl⟩
        · have hm := makeNode_frames (v := { v with shm := (shmOpenObject v.shm (path.drop 9)).1 })
            path
            .chr (devShmMajor % 2 ^ 16) ((shmOpenObject v.shm (path.drop 9)).2.toNat % 2 ^ 16)
          split
          · exact ⟨hm.1, Or.inr hm.2⟩
          · exact ⟨hm.1, Or.inr hm.2⟩
      · exact ⟨rfl, Or.inr rfl⟩
  · exact ⟨rfl, Or.inl rfl⟩

theorem openCreate_frames (path : CStr) (flags : Nat) (inode : Int) :
    (openCreate v path flags inode).1.heap = v.heap
      ∧ (openCreate v path flags inode).1.shm = v.shm := by
  unfold openCreate
  split
  · split
    · exact ⟨rfl, rfl⟩
    · dsimp only
      split
      · exact ⟨rfl, rfl⟩
      · split
        · exact ⟨rfl, rfl⟩
        · next hc => exact createNode_frames hc
  · exact ⟨rfl, rfl⟩

theorem Opened.frames {fd i flags inode : Nat} (h : Opened v fd i flags inode v') :
    v'.heap.pages = v.heap.pages ∧ v'.shm = v.shm := by
  cases h with
  | plain => exact ⟨rfl, rfl⟩
  | trunc _ _ hk => exact ⟨kfree_pages hk, rfl⟩

variable {o : OverPmm fs}

theorem Vfs.ShmOk.same (h : v.ShmOk o) (hs : v'.heap.pages = v.heap.pages ∧ v'.shm = v.shm) :
    v'.ShmOk o := by
  unfold Vfs.ShmOk at h ⊢
  rw [hs.1, hs.2]
  exact h

/-- `vfs_open`, on whatever path. -/
theorem vfsOpen_shm {path : CStr} {flags : Nat} {r : Int} (h : v.ShmOk o)
    (hs : vfsOpen v path flags = .done (v', r)) : v'.ShmOk o := by
  unfold vfsOpen at hs
  split at hs
  · cases hs
    exact h
  · obtain ⟨hheap, hshm⟩ := openLookup_frames (v := v) path flags
    generalize openLookup v path flags = l at hs hheap hshm
    obtain ⟨v₁, res⟩ := l
    have h₁ : v₁.ShmOk o := by
      unfold Vfs.ShmOk at h ⊢
      rcases hshm with he | he
      · rw [hheap, he]
        exact h
      · rw [hheap, he]
        exact h.open _
    cases res with
    | inr e =>
        cases hs
        exact h₁
    | inl inode =>
        have hc := openCreate_frames (v := v₁) path flags inode
        dsimp only at hs
        generalize openCreate v₁ path flags inode = l at hs hc
        obtain ⟨v₂, res⟩ := l
        have h₂ : v₂.ShmOk o := h₁.same ⟨congrArg Heap.pages hc.1, hc.2⟩
        cases res with
        | inr e =>
            cases hs
            exact h₂
        | inl inode' =>
            rcases openInode_cases hs with ⟨rfl, _⟩ | ⟨i, _, _, _, hop⟩
            · exact h₂
            · exact h₂.same hop.frames

/-- `vfs_unlink`, of an object or of anything else. -/
theorem vfsUnlink_shm {path : CStr} {r : Int} (h : v.ShmOk o)
    (hs : vfsUnlink fs v path = .done (v', r)) : v'.ShmOk o := by
  unfold vfsUnlink at hs
  dsimp only at hs
  split at hs
  · cases hs; exact h
  · split at hs
    · cases hs; exact h
    · split at hs
      · cases hs; exact h
      · next i _ =>
        split at hs
        · cases hs; exact h
        · split at hs
          · obtain ⟨heap, hk, hs⟩ := Outcome.bind_eq_done hs
            have hd := @shmDestroy_inv _ _ o _ _ _ _ (v.nodes i).devMinor h rfl
            cases hs
            exact Vfs.ShmOk.same (v := v.withFrames _ _) hd ⟨kfree_pages hk, rfl⟩
          · obtain ⟨heap, hk, hs⟩ := Outcome.bind_eq_done hs
            cases hs
            exact h.same ⟨kfree_pages hk, rfl⟩

theorem devfsChrWrite_shm {n : VFSNode} (buf : Nat → UInt8) {len off : Nat} (h : v.ShmOk o)
    (hoff : n.devMajor = devShmMajor → off + len + 4095 < 2 ^ 64) :
    (devfsChrWrite fs v n buf len off).1.ShmOk o := by
  unfold devfsChrWrite
  dsimp only
  split
  · exact h
  · split
    · exact h
    · split
      · next hmaj => exact (shmWrite_inv o buf h (hoff hmaj) rfl).1
      · exact h

theorem putBytes_frames (i fd : Nat) (e : FDEntry) (buf : Nat → UInt8) (len : Nat) :
    (putBytes v i fd e buf len).heap.pages = v.heap.pages
      ∧ (putBytes v i fd e buf len).shm = v.shm := by
  unfold putBytes
  dsimp only
  split
  · exact ⟨rfl, rfl⟩
  · exact ⟨rfl, rfl⟩

theorem vfsWrite_closed {fuel : Nat} {fd : Int} {buf : Nat → UInt8} {len : Nat} {x : Xfer}
    (hs : vfsWrite fs fuel v fd buf len = .done (v', x)) : fdOpen v fd = true ∨ v' = v := by
  unfold vfsWrite at hs
  split at hs
  · cases hs
    exact Or.inr rfl
  · next ho => exact Or.inl (by simpa using ho)

/-- A write to a device goes to its driver, if the descriptor is for writing. -/
theorem vfsWrite_chr {fuel : Nat} {fd : Int} {buf : Nat → UInt8} {len : Nat} {x : Xfer} {i : Nat}
    (hi : vfsNodeFromFd v fd = some i) (ht : (v.nodes i).type = .chr)
    (hs : vfsWrite fs fuel v fd buf len = .done (v', x)) :
    v' = v ∨ ∃ e, v' = (devfsChrWrite fs v (v.nodes i) buf len (v.fds fd.toNat).offset).1.setFd
      fd.toNat e := by
  unfold vfsNodeFromFd at hi
  unfold vfsWrite at hs
  split at hi
  · cases hi
  · next ho =>
    rw [if_neg ho] at hs
    dsimp only at hs
    split at hs
    · cases hs
      exact Or.inl rfl
    · rw [hi] at hs
      dsimp only at hs
      rw [if_pos ht] at hs
      generalize devfsChrWrite fs v (v.nodes i) buf len (v.fds fd.toNat).offset = w at hs ⊢
      cases hs
      exact Or.inr ⟨_, rfl⟩

/-- `vfs_write`, to an object or to anything else. -/
theorem vfsWrite_shm {fuel : Nat} {fd : Int} {buf : Nat → UInt8} {len : Nat} {x : Xfer}
    (h : v.ShmOk o)
    (hord : (VfsOp.write fd buf len).Orderly v)
    (hs : vfsWrite fs fuel v fd buf len = .done (v', x)) :
    v'.ShmOk o := by
  have hmap : ∀ {heap : Heap σ}, Mapped fs.toPager v.heap.pages heap.pages →
      { v with heap := heap }.ShmOk o := fun hm => ShmInv.mapped o h hm
  by_cases hdev : ∃ i, vfsNodeFromFd v fd = some i ∧ (v.nodes i).type = .chr
  · obtain ⟨i, hi, ht⟩ := hdev
    have hw := devfsChrWrite_shm buf h (hord i hi ht)
    rcases vfsWrite_chr hi ht hs with rfl | ⟨e, rfl⟩
    · exact h
    · exact hw.same ⟨rfl, rfl⟩
  · rcases vfsWrite_closed hs with ho | rfl
    · cases vfsWrite_cases hs with
      | refused => exact h
      | device hi ht =>
          refine absurd ⟨_, ?_, ht⟩ hdev
          unfold vfsNodeFromFd
          rw [ho, if_neg (by decide)]
          exact hi
      | full _ _ _ _ hk => exact hmap (krealloc_mapped hk)
      | file _ _ _ hroom =>
          refine Vfs.ShmOk.same ?_ (putBytes_frames _ _ _ _ _)
          cases hroom with
          | fits => exact h
          | grown _ hk _ => exact (hmap (krealloc_mapped hk)).same ⟨rfl, rfl⟩
    · exact h

/-- `vfs_ftruncate`, of an object or of anything else. -/
theorem vfsFtruncate_shm {fuel : Nat} {fd length r : Int} (h : v.ShmOk o)
    (hord : (VfsOp.ftruncate fd length).Orderly v)
    (hs : vfsFtruncate fs fuel v fd length = .done (v', r)) :
    v'.ShmOk o := by
  have hmap : ∀ {heap : Heap σ}, Mapped fs.toPager v.heap.pages heap.pages →
      { v with heap := heap }.ShmOk o := fun hm => ShmInv.mapped o h hm
  unfold vfsFtruncate at hs
  split at hs
  · cases hs; exact h
  · next i hi =>
    dsimp only at hs
    split at hs
    · next hdev =>
      have hlen := hord i hi hdev.1 hdev.2
      obtain ⟨⟨s₁, t₁, r₁⟩, htr⟩ : ∃ x, shmTruncate fs v.heap.pages v.shm (v.nodes i).devMinor
          (toU64 length) = x :=
        ⟨_, rfl⟩
      rw [htr] at hs
      cases hs
      exact (shmTruncate_inv o h hlen htr).1
    · split at hs
      · split at hs
        · cases hs; exact h
        · split at hs
          · obtain ⟨⟨heap, data⟩, hk, hs⟩ := Outcome.bind_eq_done hs
            have hm := hmap (krealloc_mapped hk)
            dsimp only at hs
            split at hs
            · cases hs; exact hm
            · cases hs; exact hm.same ⟨rfl, rfl⟩
          · cases hs; exact h.same ⟨rfl, rfl⟩
      · cases hs; exact h

/-- **One call.** -/
theorem step_shm {input : DevInput} {fuel : Nat} {op : VfsOp} (h : v.ShmOk o) (hord : op.Orderly v)
    (hs : v.step fs input fuel op = .done v') : v'.ShmOk o := by
  have hmoves : ∀ {k : Nat} {w : Vfs σ}, Moves v k w → w.ShmOk o := fun hm =>
    h.same ⟨congrArg Heap.pages hm.frames.1, hm.frames.2⟩
  have hmade : ∀ path type major minor, (makeNode v path type major minor).1.ShmOk o :=
    fun path type major minor =>
      let hm := makeNode_frames (v := v) path type major minor
      h.same ⟨congrArg Heap.pages hm.1, hm.2⟩
  cases op with
  | «open» path flags =>
      obtain ⟨⟨w, r⟩, ho, hs⟩ := Outcome.bind_eq_done hs
      cases hs
      exact vfsOpen_shm h ho
  | openStd path flags target =>
      cases hs
      rcases vfsOpenStd_moves v path flags target with hv | ⟨_, e, hv⟩
      · rw [hv]; exact h
      · rw [hv]; exact hmoves (Or.inr ⟨e, rfl⟩)
  | mkdir path => cases hs; exact hmade path .dir 0 0
  | mknodChr path major minor => cases hs; exact hmade path .chr _ _
  | unlink path =>
      obtain ⟨⟨w, r⟩, hu, hs⟩ := Outcome.bind_eq_done hs
      cases hs
      exact vfsUnlink_shm h hu
  | setCwd inode => cases hs; exact h.same ⟨rfl, rfl⟩
  | close fd => cases hs; exact hmoves (vfsClose_moves v fd)
  | dup fd =>
      cases hs
      rcases vfsDup_moves v fd with hv | ⟨k, _, hv⟩
      · rw [hv]; exact h
      · rw [hv]; exact hmoves (Or.inr ⟨_, rfl⟩)
  | dup2 fd newfd => cases hs; exact hmoves (vfsDup2_moves v fd newfd)
  | read fd len => cases hs; exact hmoves (vfsRead_moves v fs input fd len)
  | write fd buf len =>
      obtain ⟨⟨w, x⟩, hw, hs⟩ := Outcome.bind_eq_done hs
      cases hs
      exact vfsWrite_shm h hord hw
  | lseek fd offset whence => cases hs; exact hmoves (vfsLseek_moves v fd offset whence)
  | ftruncate fd length =>
      obtain ⟨⟨w, r⟩, ht, hs⟩ := Outcome.bind_eq_done hs
      cases hs
      exact vfsFtruncate_shm h hord ht
  | fcntl fd cmd arg => cases hs; exact hmoves (vfsFcntl_moves v fd cmd arg)

end Calls

/-! ## Runs -/

/-- After boot: no objects, and an allocator in some state of its own. -/
def Vfs.ShmStarts {fs : FrameService σ} (o : OverPmm fs) (v : Vfs σ) : Prop :=
  v.Starts ∧ v.shm = shmInit ∧ ∃ rs out, PmmReach (o.pmm v.heap.pages) rs out

/-- A call that is `ok`, or `shm_open_object` by itself. -/
def Vfs.ShmSteps (ok : Vfs σ → VfsOp → Prop) (fs : FrameService σ) (v v' : Vfs σ) : Prop :=
  (∃ op input fuel, ok v op ∧ v.step fs input fuel op = .done v')
    ∨ ∃ name, v' = { v with shm := (shmOpenObject v.shm name).1 }

/-- What an object's size says about its pages, and that no two pages are one frame. -/
structure ShmSound (p : Pmm) (t : ShmTable) : Prop where
  size : ∀ i, (t i).used = true → (t i).size ≤ 1024 * 4096
  present : ∀ i k, (t i).used = true → k < ((t i).size + 4095) / 4096 → FrameTaken p ((t i).pages k)
  absent : ∀ i k, (t i).used = true → ((t i).size + 4095) / 4096 ≤ k → (t i).pages k = 0
  apart : ∀ i j k l, (t i).used = true → (t j).used = true → (t i).pages k ≠ 0 →
    (t i).pages k = (t j).pages l → i = j ∧ k = l

theorem ShmInv.sound {p : Pmm} {t : ShmTable} (h : ShmInv p t) : ShmSound p t := by
  have hmax : shmMaxPages * pageSize = 4194304 := rfl
  have hpf : ∀ i, (t i).used = true → pagesFor (t i).size = ((t i).size + 4095) / 4096 :=
      fun i hu =>
    pagesFor_of_le (by have := h.size i hu; omega)
  refine ⟨?_, ?_, ?_, ?_⟩
  · intro i hu
    have := h.size i hu
    omega
  · intro i k hu hk
    rw [← hpf i hu] at hk
    exact ((h.pages i hu).taken k hk).1
  · intro i k hu hk
    rw [← hpf i hu] at hk
    exact (h.pages i hu).absent k (by omega)
  · intro i j k l hi hj h0 he
    -- both indices have a page
    have hk : k < pagesFor (t i).size := by
      by_contra hc
      exact h0 ((h.pages i hi).absent k hc)
    have hl : l < pagesFor (t j).size := by
      by_contra hc
      exact h0 (he.trans ((h.pages j hj).absent l hc))
    by_cases hij : i = j
    · subst hij
      exact ⟨rfl, (h.pages i hi).inj k l hk hl he⟩
    · exact absurd ⟨j, Ne.symm hij, hj, l, hl, he.symm⟩ ((h.pages i hi).taken k hk).2

section Reach

variable {fs : FrameService σ} {v : Vfs σ}

theorem shmOk_start (o : OverPmm fs) (h : v.ShmStarts o) : v.ShmOk o := by
  obtain ⟨_, hshm, rs, out, hp⟩ := h
  unfold Vfs.ShmOk
  rw [hshm]
  exact ⟨hp.runInv.inv, fun i hu => Bool.noConfusion hu, fun i hu => Bool.noConfusion hu⟩

theorem shmOk_reach (o : OverPmm fs) (h : Reach (Vfs.ShmStarts o)
    (Vfs.ShmSteps (fun v op => op.Orderly v) fs) v) :
    v.ShmOk o := by
  refine h.invariant (fun _ => shmOk_start o) fun s s' hs hstep => ?_
  rcases hstep with ⟨op, input, fuel, hord, hdone⟩ | ⟨name, rfl⟩
  · exact step_shm hs hord hdone
  · exact ShmInv.open hs name

/-- **Shared memory objects.** Whatever calls are made, as long as no length is within 4095 of
`2 ^ 64`: sizes are bounded, an object has frames for exactly the pages of its size, no frame is in
two places, and reads and writes stay inside the page array. -/
theorem Vfs.orderly_shm (o : OverPmm fs)
    (h : Reach (Vfs.ShmStarts o) (Vfs.ShmSteps (fun v op => op.Orderly v) fs) v) :
    ShmSound (o.pmm v.heap.pages) v.shm
      ∧ (∀ idx len off, ∀ k ∈ shmReadTouches v.shm idx len off, k < 1024)
      ∧ ∀ idx len off, off + len + 4095 < 2 ^ 64 →
          ∀ k ∈ shmWriteTouches fs v.heap.pages v.shm idx len off, k < 1024 := by
  have hok := shmOk_reach o h
  exact ⟨ShmInv.sound hok, fun idx len off => shmReadTouches_lt hok,
    fun idx len off hoff => (shmWrite_inv o (fun _ => 0) hok hoff rfl).2⟩

end Reach

/-- A machine: the frame allocator, the bytes of memory, and how much address space the heap has
left. -/
def machineFrames : FrameService (Pmm × ByteMem.Mem × Nat) where
  mapPage
    | (_, _, 0), _ => none
    | (p, m, n + 1), _ =>
        match pmmAlloc p with
        | (p', frame) => if frame = 0 then none else some ((p', m, n), fun k => m (frame + k))
  supply s := s.2.2
  supply_lt := by
    rintro ⟨p, m, n⟩ s' va frame h
    cases n with
    | zero => cases h
    | succ n =>
        dsimp only at h
        split at h
        · cases h
        · cases h
          exact Nat.lt_succ_self n
  alloc s := (((pmmAlloc s.1).1, s.2), (pmmAlloc s.1).2)
  free s f := (pmmFree s.1 f, s.2)
  phys s := s.2.1
  setPhys s m := (s.1, m, s.2.2)
  supply_alloc _ := Nat.le_refl _
  supply_free _ _ := Nat.le_refl _
  supply_setPhys _ _ := Nat.le_refl _

def machineFrames_over : OverPmm machineFrames where
  pmm s := s.1
  alloc _ := rfl
  free _ _ := rfl
  setPhys _ _ := rfl
  mapPage := by
    rintro ⟨p, m, n⟩ s' va frame h
    cases n with
    | zero => cases h
    | succ n =>
        unfold machineFrames at h
        dsimp only at h
        split at h
        · cases h
        · cases h
          exact .single rfl

theorem machineFrames_over_pmm (s : Pmm × ByteMem.Mem × Nat) : machineFrames_over.pmm s = s.1 := rfl

/-- The machine after boot, with this allocator. -/
def machineVfs (p : Pmm) : Vfs (Pmm × ByteMem.Mem × Nat) :=
  devfsInit (vfsInit 0 shmInit ⟨fun _ => 0, 0, 0, (p, fun _ => 0, 64)⟩)

theorem machineVfs_starts (kb : Nat) : (machineVfs (pmmInit kb)).ShmStarts machineFrames_over := by
  generalize hp : pmmInit kb = p
  obtain ⟨_, _, hpages, hshm⟩ := boot_induct (v := machineVfs p)
    (P := fun _ v => v.heap.pages.1 = p ∧ v.shm = shmInit) (Or.inr rfl) ⟨rfl, rfl⟩
      fun n v path _ type major minor hv => by
        obtain ⟨h1, h2⟩ := makeNode_frames (v := v) path type major minor
        rw [h1, h2]
        exact hv
  refine ⟨⟨0, shmInit, _, by decide, Or.inr rfl⟩, hshm, [], [], ?_⟩
  rw [machineFrames_over_pmm, hpages, ← hp]
  exact .boot (.init kb)

/-- An object on a machine of two megabytes, opened and then given a length. -/
def machineRun (length : Int) : Outcome (Vfs (Pmm × ByteMem.Mem × Nat)) := do
  let v ← (machineVfs (pmmInit 2048)).step machineFrames (fun _ _ => (0, fun _ => 0)) 0 (.open (cstr "/dev/shm/x") 7)
  v.step machineFrames (fun _ _ => (0, fun _ => 0)) 0 (.ftruncate 3 length)

theorem machineRun_reach (ok : Vfs (Pmm × ByteMem.Mem × Nat) → VfsOp → Prop) {length : Int}
    {v : Vfs (Pmm × ByteMem.Mem × Nat)} (hopen : ∀ v path flags, ok v (.open path flags))
    (htrunc : ∀ v, ok v (.ftruncate 3 length)) (h : machineRun length = .done v) :
    Reach (Vfs.ShmStarts machineFrames_over) (Vfs.ShmSteps ok machineFrames) v := by
  unfold machineRun at h
  obtain ⟨v₁, h1, h2⟩ := Outcome.bind_eq_done h
  exact .next (.next (.start (machineVfs_starts 2048)) (Or.inl ⟨_, _, _, hopen _ _ _, h1⟩))
    (Or.inl ⟨_, _, _, htrunc _, h2⟩)

/-- Five thousand bytes are two pages. -/
theorem Vfs.orderly_shm_open : ∃ v, machineRun 5000 = .done v
    ∧ ((v.shm 0).used, (v.shm 0).size, (v.shm 0).pages 2) = (true, 5000, 0)
    ∧ FrameTaken v.heap.pages.1 ((v.shm 0).pages 1) := by
  obtain ⟨v, hrun, hv⟩ := Outcome.of_get? (x := machineRun 5000)
    (f := fun v => ((v.shm 0).used, (v.shm 0).size, (v.shm 0).pages 2)) (b := (true, 5000, 0))
    (by decide +kernel)
  have hr := machineRun_reach (fun v op => op.Orderly v) (fun _ _ _ => trivial)
    (fun v _ _ _ _ => by decide) hrun
  obtain ⟨hu, hsize, _⟩ : (v.shm 0).used = true ∧ (v.shm 0).size = 5000 ∧ _ := by simpa using hv
  exact ⟨v, hrun, hv, (Vfs.orderly_shm machineFrames_over hr).1.present 0 1 hu
    (by rw [hsize]; decide)⟩

/-- **A negative length.** It comes to no pages, which are few enough, and becomes the size. -/
theorem Vfs.negative_length_shm : ¬ ∀ v,
    Reach (Vfs.ShmStarts machineFrames_over) (Vfs.ShmSteps (fun _ _ => True) machineFrames) v →
    ShmSound (machineFrames_over.pmm v.heap.pages) v.shm := by
  intro hall
  obtain ⟨v, hrun, hv⟩ := Outcome.of_get? (x := machineRun (-1))
    (f := fun v => ((v.shm 0).used, (v.shm 0).size)) (b := (true, 2 ^ 64 - 1)) (by decide +kernel)
  obtain ⟨hu, hsize⟩ : (v.shm 0).used = true ∧ (v.shm 0).size = 2 ^ 64 - 1 := by simpa using hv
  have hle := (hall v (machineRun_reach _ (fun _ _ _ => trivial) (fun _ => trivial) hrun)).size 0 hu
  omega

end VnlKernel
