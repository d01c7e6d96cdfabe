import VnlKernel.Proof.ShmHoles
import VnlKernel.Proof.ShmName
import VnlKernel.Proof.VfsStream

/-!
# Bytes of a file that nobody wrote

`vfs_ftruncate` raises a size and `vfs_write` beyond the end raises it too, and neither
clears what comes to lie inside the file. There are three kinds of such bytes: the slack
of a block that is large enough already, the tail of an old block that `krealloc` copies
with the rest, and memory that `kmalloc` hands out for the first time or again. Nothing
is cleared in any of them.

The run carries the holes along with the file system, through every call and through what
the rest of the kernel does with its own blocks. Holes read as zeros exactly as long as
each growth finds zeros where the new bytes come to lie.
-/

namespace VnlKernel

open ByteMem Bits

variable {σ : Type}

/-! ## What a growth finds -/

/-- The byte at `k` of the block of `cap` bytes that `krealloc` moves slot `i` to: the old block's,
as far as that went, and then what `kmalloc` found. -/
def reallocByte (fs : FrameService σ) (fuel : Nat) (v : Vfs σ) (i cap k : Nat) : UInt8 :=
  let data := (v.nodes i).data
  if data ≠ 0 ∧ k < sub64 (sub64 (blkSize v.heap.mem (sub64 data headerSize)) headerSize) footerSize then
    v.heap.mem (data + k)
  else
    match kmalloc fs.toPager fuel v.heap cap with
    | .done (heap, p) => heap.mem (p + k)
    | _ => 0

/-- The byte at `k` once there is room for `need`: the slack of the block, or one that was moved. -/
def grownByte (fs : FrameService σ) (fuel : Nat) (v : Vfs σ) (i need cap k : Nat) : UInt8 :=
  if need ≤ (v.nodes i).capacity then v.heap.mem ((v.nodes i).data + k)
  else reallocByte fs fuel v i cap k

/-- The descriptor is one to write the file in slot `i` with. -/
def Vfs.WritesTo (v : Vfs σ) (fd : Int) (i : Nat) : Prop :=
  vfsNodeFromFd v fd = some i ∧ (v.nodes i).type = .file
    ∧ hasFlag (v.fds fd.toNat).flags vfsOWrite = true

/-- **Where a call makes a file grow, it finds zeros**: between the old size and the first byte that
is written, or the new size. -/
def FindsZeros (fs : FrameService σ) (fuel : Nat) (v : Vfs σ) : VfsOp → Prop
  | .write fd _ len => ∀ i, v.WritesTo fd i → ∀ k, (v.nodes i).size ≤ k →
      k < (v.fds fd.toNat).offset →
      grownByte fs fuel v i ((v.fds fd.toNat).offset + len)
        (u64 ((v.fds fd.toNat).offset + len + 256)) k = 0
  | .ftruncate fd length => ∀ i, vfsNodeFromFd v fd = some i → (v.nodes i).type = .file → 0 ≤ length →
      ∀ k, (v.nodes i).size ≤ k → k < toU64 length →
      grownByte fs fuel v i (toU64 length) (alignUpPage (u64 (toU64 length + 256))) k = 0
  | _ => True

/-- The bytes that a call has written, once it has led to `v'`. -/
def Vfs.wroteByte (v v' : Vfs σ) : VfsOp → Nat → Nat → Prop
  | .write fd _ len, i, k => v.WritesTo fd i ∧ (v.fds fd.toNat).offset + len ≤ (v'.nodes i).size
      ∧ (v.fds fd.toNat).offset ≤ k ∧ k < (v.fds fd.toNat).offset + len
  | _, _, _ => False

/-! ## The run -/

/-- The file system, and the bytes of each slot's file that came with a larger size and were not
written since. -/
structure FileHoles (σ : Type) where
  vfs : Vfs σ
  hole : Nat → Nat → Prop

namespace FileHoles

/-- After a call: what was a hole, or lies beyond the old size, is one unless it was written. -/
def next (c : FileHoles σ) (op : VfsOp) (v : Vfs σ) : FileHoles σ :=
  ⟨v, fun i k => k < (v.nodes i).size ∧ ¬ c.vfs.wroteByte v op i k
    ∧ (c.hole i k ∨ (c.vfs.nodes i).size ≤ k)⟩

/-- One step. `ok` is what is asked of a call. -/
inductive Step (fs : FrameService σ) (ok : Nat → Vfs σ → VfsOp → Prop) :
    FileHoles σ → FileHoles σ → Prop
  | call {c : FileHoles σ} {op : VfsOp} {input : DevInput} {fuel : Nat} {v : Vfs σ} :
      ok fuel c.vfs op → c.vfs.step fs input fuel op = .done v → v.nextInode ≤ 2 ^ 31 →
      Step fs ok c (c.next op v)
  /-- The rest of the kernel takes, fills and gives back blocks, but none that a file has. -/
  | rest {c : FileHoles σ} {heap : Heap σ} {shm : ShmTable} :
      Stored fs { c.vfs with heap := heap, shm := shm } →
      (∀ i, SameFile c.vfs { c.vfs with heap := heap, shm := shm } i) →
      Step fs ok c { c with vfs := { c.vfs with heap := heap, shm := shm } }

/-- Booted; the files of `vfs_init` have no bytes. -/
def Starts (fs : FrameService σ) (c : FileHoles σ) : Prop :=
  c.vfs.StartsOn fs ∧ ∀ i k, ¬ c.hole i k

/-- **Holes read as zeros.** -/
def ReadsZeros (fs : FrameService σ) (c : FileHoles σ) : Prop :=
  ∀ input fd len i, vfsNodeFromFd c.vfs fd = some i → (c.vfs.nodes i).type = .file →
    ∀ j, j < (vfsRead fs c.vfs input fd len).2.len →
      c.hole i ((vfsRead fs c.vfs input fd len).2.lo + j) →
      (vfsRead fs c.vfs input fd len).2.bytes j = 0

end FileHoles

/-- A call that neither wraps nor grows a file over anything but zeros. -/
def GrowsClean (fs : FrameService σ) (fuel : Nat) (v : Vfs σ) (op : VfsOp) : Prop :=
  v.Roomy op ∧ FindsZeros fs fuel v op

/-! ## What a call does to one file -/

/-- A call leaves a slot with an empty file, or as it was, or is the write or the truncation of it.
-/
inductive SlotFate (fs : FrameService σ) (fuel : Nat) (v v' : Vfs σ) (t : Nat) : VfsOp → Prop
  | empty {op : VfsOp} : (v'.nodes t).size = 0 → SlotFate fs fuel v v' t op
  | same {op : VfsOp} : SameFile v v' t → SlotFate fs fuel v v' t op
  | wrote {fd : Int} {buf : Nat → UInt8} {len : Nat} : v.WritesTo fd t →
      (v'.nodes t).size = max (v.nodes t).size ((v.fds fd.toNat).offset + len) →
      (∀ k, k < (v.nodes t).size → k < (v.fds fd.toNat).offset ∨ (v.fds fd.toNat).offset + len ≤ k →
        v'.heap.mem ((v'.nodes t).data + k) = v.heap.mem ((v.nodes t).data + k)) →
      (∀ k, (v.nodes t).size ≤ k → k < (v.fds fd.toNat).offset →
        v'.heap.mem ((v'.nodes t).data + k) = grownByte fs fuel v t ((v.fds fd.toNat).offset + len)
          (u64 ((v.fds fd.toNat).offset + len + 256)) k) →
      SlotFate fs fuel v v' t (.write fd buf len)
  | truncated {fd length : Int} : vfsNodeFromFd v fd = some t → (v.nodes t).type = .file → 0 ≤ length →
      (v'.nodes t).size = toU64 length →
      (∀ k, k < (v.nodes t).size → k < toU64 length →
        v'.heap.mem ((v'.nodes t).data + k) = v.heap.mem ((v.nodes t).data + k)) →
      (∀ k, (v.nodes t).size ≤ k → k < toU64 length →
        v'.heap.mem ((v'.nodes t).data + k)
          = grownByte fs fuel v t (toU64 length) (alignUpPage (u64 (toU64 length + 256))) k) →
      SlotFate fs fuel v v' t (.ftruncate fd length)

section Fate

variable {fs : FrameService σ} {base : Nat} {v v' : Vfs σ} {live : List (Nat × Nat)} {bs : List Blk}
  {fl : List Nat}

/-- Every byte of the block that `krealloc` returns. -/
theorem Backed.reallocByte (h : Backed fs base v live bs fl) {i cap data fuel : Nat} {heap : Heap σ}
    (hk : krealloc fs.toPager fuel v.heap (v.nodes i).data cap = .done (heap, data))
    (hpos : 0 < cap)
    (hcap : cap + 32 + 2 * 4096 < 2 ^ 64) {k : Nat} (hlt : k < cap) :
    heap.mem (data + k) = reallocByte fs fuel v i cap k := by
  unfold VnlKernel.reallocByte
  dsimp only
  rcases h.owned i with ⟨h0, _⟩ | hm
  · rw [h0, krealloc, if_pos rfl] at hk
    rw [h0, if_neg (by simp), hk]
  · obtain ⟨b, hb, hu, he, _⟩ := h.inv.owns.owned _ hm
    dsimp only at he
    have hgeo := tiles_mem h.inv.heap.rep.tiles hb
    have hlim := h.block_lt hb
    have hhead : sub64 (b.addr + 24) headerSize = b.addr := by
      rw [sub64_of_le (by unfold headerSize; omega) (by omega)]
      exact Nat.add_sub_cancel _ _
    have hpay : sub64 (sub64 b.size headerSize) footerSize = b.size - 32 := by
      rw [sub64_of_le (a := b.size) (by unfold headerSize; omega) (by omega),
        sub64_of_le (by unfold headerSize footerSize; omega) (by omega)]
      unfold headerSize footerSize
      omega
    rw [he] at hk ⊢
    obtain ⟨_, s₁, hkm, hbytes⟩ :=
      (krealloc_found fuel h.inv.heap h.pos h.inv.room hb hu hpos hcap).1 heap data hk
    rw [hhead, blkSize_of_tagged hgeo.2.2.1 (h.inv.heap.rep.tags b hb), hpay, hbytes k hlt, hkm]
    split
    · next hin => rw [if_pos ⟨by omega, hin⟩]
    · next hout => rw [if_neg fun hc => hout hc.2]

/-- Making nodes leaves a slot alone, or gives it a node without bytes. -/
theorem Created.slot {path : CStr} {n : Nat} (hc : Created path n v v') (t : Nat) :
    v'.heap.mem = v.heap.mem ∧ (v'.nodes t = v.nodes t ∨ (v'.nodes t).size = 0) := by
  induction hc with
  | none v => exact ⟨rfl, Or.inl rfl⟩
  | shm _ _ ih => exact ih
  | node _ _ _ _ hcreate ih =>
      obtain ⟨p, i, _, _, _, _, rfl⟩ := createNode_some hcreate
      refine ⟨ih.1, ?_⟩
      by_cases ht : t = i
      · right
        rw [ht]
        exact congrArg VFSNode.size (Vfs.setNode_self _)
      · rcases ih.2 with hn | hz
        · exact Or.inl ((Vfs.setNode_ne _ ht).trans hn)
        · exact Or.inr ((congrArg VFSNode.size (Vfs.setNode_ne _ ht)).trans hz)

theorem SlotFate.created {fuel n t : Nat} {path : CStr} {op : VfsOp} (hc : Created path n v v') :
    SlotFate fs fuel v v' t op := by
  obtain ⟨hmem, hn | hz⟩ := hc.slot t
  · exact .same ⟨hn, fun k _ => by rw [hmem]⟩
  · exact .empty hz

/-- What comes after the nodes are made leaves the slot alone, or empty. -/
theorem SlotFate.after_created {fuel n t : Nat} {path : CStr} {op : VfsOp} {v₁ : Vfs σ}
    (hc : Created path n v v₁) (h : SameFile v₁ v' t ∨ (v'.nodes t).size = 0) :
    SlotFate fs fuel v v' t op := by
  obtain ⟨hmem, hslot⟩ := hc.slot t
  rcases h with hs | hz
  · rcases hslot with hn | hz
    · have hsame : SameFile v v₁ t := ⟨hn, fun k _ => by rw [hmem]⟩
      exact .same (hsame.trans hs)
    · exact .empty (by rw [hs.1]; exact hz)
  · exact .empty hz

/-- A write that is not refused goes through a descriptor that may. -/
theorem vfsWrite_flag {fuel : Nat} {fd : Int} {buf : Nat → UInt8} {len : Nat} {x : Xfer}
    (hs : vfsWrite fs fuel v fd buf len = .done (v', x)) :
    v' = v ∨ hasFlag (v.fds fd.toNat).flags vfsOWrite = true := by
  unfold vfsWrite at hs
  split at hs
  · cases hs
    exact Or.inl rfl
  · dsimp only at hs
    split at hs
    · cases hs
      exact Or.inl rfl
    · next hflag => exact Or.inr (by simpa using hflag)

/-- The bytes before a write that begins beyond the end. -/
theorem Backed.gap (h : Backed fs base v live bs fl) {fuel i fd len : Nat} (buf : Nat → UInt8)
    {v₁ : Vfs σ} (hend : (v.fds fd).offset + len + 256 + 32 + 2 * 4096 < 2 ^ 64)
    (hroom : Roomed fs fuel v i ((v.fds fd).offset + len) v₁) {k : Nat}
    (hk : k < (v.fds fd).offset) :
    (putBytes v₁ i fd (v.fds fd) buf len).heap.mem
        (((putBytes v₁ i fd (v.fds fd) buf len).nodes i).data + k)
      = grownByte fs fuel v i ((v.fds fd).offset + len)
      (u64 ((v.fds fd).offset + len + 256)) k := by
  -- what is there before the bytes are stored
  have hmid : (∃ live' bs' fl', Backed fs base v₁ live' bs' fl')
      ∧ (v.fds fd).offset + len ≤ (v₁.nodes i).capacity
      ∧ v₁.heap.mem ((v₁.nodes i).data + k)
        = grownByte fs fuel v i ((v.fds fd).offset + len)
            (u64 ((v.fds fd).offset + len + 256)) k := by
    unfold grownByte
    cases hroom with
    | fits hle =>
        rw [if_pos hle]
        exact ⟨⟨live, bs, fl, h⟩, hle, rfl⟩
    | @grown hlt heap data hkr _ =>
        rw [if_neg (by omega)]
        rw [u64_of_lt (by omega)] at hkr ⊢
        obtain ⟨_, hb, _, _⟩ := h.resize hkr (by omega) (by omega) (v.nodes i).size
        have hself : (refill v i heap data ((v.fds fd).offset + len + 256) (v.nodes i).size).nodes i
            = { v.nodes i with data := data, capacity := (v.fds fd).offset + len + 256 } :=
          Vfs.setNode_self _
        refine ⟨hb, ?_, ?_⟩
        · rw [hself]
          dsimp only
          omega
        · rw [hself]
          exact h.reallocByte hkr (by omega) (by omega) (by omega)
  obtain ⟨⟨live', bs', fl', h₁⟩, hcap, hbyte⟩ := hmid
  obtain ⟨hheap, _, _, hself⟩ := putBytes_tables (v := v₁) i fd (v.fds fd) buf len
  have hlt := h₁.data_lt i
  rw [hself, hheap, ← hbyte, u64_of_lt (by omega)]
  exact if_neg (by dsimp only; omega)

/-- A write that has room, slot by slot. -/
theorem Backed.fate_write (h : Backed fs base v live bs fl) (hsz : SizeInv v) {fuel : Nat}
    {fd : Int}
    {buf : Nat → UInt8} {len : Nat} {x : Xfer} (hw : vfsWrite fs fuel v fd buf len = .done (v', x))
    (hroomy : v.Roomy (.write fd buf len)) (t : Nat) :
    SlotFate fs fuel v v' t (.write fd buf len) := by
  rcases vfsWrite_flag hw with rfl | hflag
  · exact .same (.refl _ t)
  · cases vfsWrite_cases hw with
    | refused _ => exact .same (.refl v t)
    | device _ _ _ => exact .same (.of_eq t rfl rfl)
    | @full i heap ho hi ht _ hk =>
        have hroom := hroomy i (by unfold vfsNodeFromFd; rw [if_neg (by simp [ho]), hi]) ht
        rw [u64_of_lt (show (v.fds fd.toNat).offset + len < 2 ^ 64 by omega),
          u64_of_lt (by omega)] at hk
        exact absurd rfl (h.resize hk (by omega) (by omega) 0).1
    | @file i v₁ ho hi ht hroom =>
        have hnode : vfsNodeFromFd v fd = some i := by
          unfold vfsNodeFromFd
          rw [if_neg (by simp [ho]), hi]
        have hend := hroomy i hnode ht
        rw [u64_of_lt (show (v.fds fd.toNat).offset + len < 2 ^ 64 by omega)] at hroom
        obtain ⟨_, hwrote, hothers⟩ := h.wrote hsz buf hend hroom
        by_cases hti : t = i
        · subst hti
          exact .wrote ⟨hnode, ht, hflag⟩ hwrote.size hwrote.old
            fun k _ hk => h.gap buf hend hroom hk
        · exact .same (hothers t hti)

/-- A truncation, slot by slot. -/
theorem Backed.fate_truncate (h : Backed fs base v live bs fl) (hsz : SizeInv v) {fuel : Nat}
    {fd length r : Int} (hw : vfsFtruncate fs fuel v fd length = .done (v', r))
    (hlen : length < 2 ^ 63)
    (t : Nat) : SlotFate fs fuel v v' t (.ftruncate fd length) := by
  have hcap : 0 ≤ length → toU64 length < 2 ^ 63
      ∧ toU64 length ≤ alignUpPage (u64 (toU64 length + 256))
      ∧ 0 < alignUpPage (u64 (toU64 length + 256))
      ∧ alignUpPage (u64 (toU64 length + 256)) + 32 + 2 * 4096 < 2 ^ 64 := by
    intro h0
    have hu : toU64 length < 2 ^ 63 := by unfold toU64; omega
    rw [u64_of_lt (by omega)]
    have hup := alignUpPage_spec (show toU64 length + 256 + 4095 < 2 ^ 64 by omega)
    omega
  cases vfsFtruncate_cases hw with
  | refused => exact .same (.refl v t)
  | shm _ => exact .same (.of_eq t rfl rfl)
  | full _ _ h0 _ hk =>
      exact absurd rfl (h.resize hk (hcap h0).2.2.1 (hcap h0).2.2.2 0).1
  | @grown i heap data hi ht h0 hgt hk _ =>
      obtain ⟨_, hle, hpos, hbound⟩ := hcap h0
      obtain ⟨_, _, hothers, hcopied⟩ := h.resize hk hpos hbound (toU64 length)
      by_cases hti : t = i
      · subst hti
        have hself : (refill v t heap data (alignUpPage (u64 (toU64 length + 256)))
            (toU64 length)).nodes t = { v.nodes t with
              data := data, size := toU64 length,
              capacity := alignUpPage (u64 (toU64 length + 256)) } := Vfs.setNode_self _
        have hin := (hsz t).1
        refine .truncated hi ht h0 (by rw [hself]) (fun k hk1 hk2 => ?_) (fun k _ hk2 => ?_)
        · rw [hself]
          exact hcopied k (by omega) (by omega)
        · rw [hself]
          unfold grownByte
          rw [if_neg (by omega)]
          exact h.reallocByte hk hpos hbound (by omega)
      · exact .same (hothers t hti)
  | @fits i hi ht h0 hle =>
      by_cases hti : t = i
      · subst hti
        have hself : (refill v t v.heap (v.nodes t).data (v.nodes t).capacity
            (toU64 length)).nodes t = { v.nodes t with size := toU64 length } :=
          Vfs.setNode_self _
        refine .truncated hi ht h0 (by rw [hself]) (fun k _ _ => by rw [hself]; rfl)
          (fun k _ _ => ?_)
        rw [hself]
        unfold grownByte
        rw [if_pos hle]
        rfl
      · exact .same ⟨Vfs.setNode_ne _ hti, fun k _ => rfl⟩

/-- **What a roomy call does to a slot.** -/
theorem Backed.fate (h : Backed fs base v live bs fl) (hsz : SizeInv v) {input : DevInput}
    {fuel : Nat}
    {op : VfsOp} (hs : v.step fs input fuel op = .done v') (hroomy : v.Roomy op) (t : Nat) :
    SlotFate fs fuel v v' t op := by
  cases step_effect hs with
  | idle => exact .same (.refl v t)
  | moves _ hm =>
      rcases hm with rfl | ⟨e, rfl⟩
      · exact .same (.refl _ t)
      · exact .same (.of_eq t rfl rfl)
  | cwd inode => exact .same (.of_eq t rfl rfl)
  | madeDir _ hc => exact .created hc
  | madeChr _ hc => exact .created hc
  | failed _ _ hc => exact .created hc
  | @opened path flags k fd i inode v₁ _ _ _ hc hfd hi _ ho =>
      refine .after_created hc ?_
      cases ho with
      | plain _ => exact Or.inl (.of_eq t rfl rfl)
      | @trunc _ _ heap hk =>
          obtain ⟨_, hothers⟩ := (h.created hc).1.release
            ((clearNode v₁ i heap).setFd fd ⟨true, inode, 0, flags⟩) hk rfl rfl rfl rfl
          by_cases hti : t = i
          · right
            rw [hti]
            exact congrArg VFSNode.size (Vfs.setNode_self _)
          · exact Or.inl (hothers t hti)
  | @removed path i s shm heap hi _ _ hsup hk =>
      have h₁ : Backed fs base (v.withFrames s shm) live bs fl :=
        h.frames (fun _ => ⟨rfl, rfl⟩) rfl rfl rfl hsup
      obtain ⟨_, hothers⟩ := h₁.release (dropNode (v.withFrames s shm) i heap) hk rfl rfl rfl rfl
      by_cases hti : t = i
      · refine .empty ?_
        rw [hti]
        exact congrArg VFSNode.size (Vfs.setNode_self _)
      · exact .same (hothers t hti)
  | written _ =>
      obtain ⟨⟨w, x⟩, hw, hs⟩ := Outcome.bind_eq_done hs
      cases hs
      exact h.fate_write hsz hw hroomy t
  | truncated _ =>
      obtain ⟨⟨w, r⟩, hw, hs⟩ := Outcome.bind_eq_done hs
      cases hs
      exact h.fate_truncate hsz hw hroomy t

end Fate

/-! ## The invariant -/

/-- Holes hold zeros. -/
structure FileHoles.Blank (fs : FrameService σ) (c : FileHoles σ) : Prop where
  stored : Stored fs c.vfs
  hole : ∀ i k, c.hole i k → k < (c.vfs.nodes i).size
    ∧ c.vfs.heap.mem ((c.vfs.nodes i).data + k) = 0

namespace FileHoles.Blank

variable {fs : FrameService σ} {c c' : FileHoles σ}

/-- **A call that grows over zeros keeps holes blank.** -/
theorem call (h : c.Blank fs) {op : VfsOp} {input : DevInput} {fuel : Nat} {v : Vfs σ}
    (hok : GrowsClean fs fuel c.vfs op) (hs : c.vfs.step fs input fuel op = .done v)
    (hnum : v.nextInode ≤ 2 ^ 31) : (c.next op v).Blank fs := by
  obtain ⟨hroomy, hzeros⟩ := hok
  refine ⟨(h.stored.step hroomy hs hnum).1, ?_⟩
  intro t k ⟨hk, hnot, hold⟩
  refine ⟨hk, ?_⟩
  obtain ⟨base, live, bs, fl, hb⟩ := h.stored.backed
  dsimp only [FileHoles.next] at hk ⊢
  cases hb.fate h.stored.sizes hs hroomy t with
  | empty h0 => omega
  | same hsame =>
      rw [hsame.1] at hk
      have hcap := (h.stored.sizes t).1
      have hhole : c.hole t k := hold.resolve_right (by omega)
      rw [hsame.1, hsame.2 k (by omega)]
      exact (h.hole t k hhole).2
  | @wrote fd buf len hto hsize hkept hgap =>
      have hout : k < (c.vfs.fds fd.toNat).offset ∨ (c.vfs.fds fd.toNat).offset + len ≤ k := by
        by_contra hin
        rw [not_or, Nat.not_lt, Nat.not_le] at hin
        exact hnot ⟨hto, by omega, hin⟩
      rcases hold with hhole | hge
      · obtain ⟨hlt, hzero⟩ := h.hole t k hhole
        rw [hkept k hlt hout]
        exact hzero
      · rw [hgap k hge (by omega)]
        exact hzeros t hto k hge (by omega)
  | @truncated fd length hi ht h0 hsize hkept hgap =>
      rw [hsize] at hk
      rcases hold with hhole | hge
      · obtain ⟨hlt, hzero⟩ := h.hole t k hhole
        rw [hkept k hlt hk]
        exact hzero
      · rw [hgap k hge hk]
        exact hzeros t hi ht h0 k hge hk

theorem step (h : c.Blank fs) (hs : FileHoles.Step fs (GrowsClean fs) c c') : c'.Blank fs := by
  cases hs with
  | call hok hdone hnum => exact h.call hok hdone hnum
  | rest hst hsame =>
      refine ⟨hst, ?_⟩
      intro t k hhole
      obtain ⟨hk, hzero⟩ := h.hole t k hhole
      have hcap := (h.stored.sizes t).1
      refine ⟨hk, ?_⟩
      have hbyte := (hsame t).2 k (by omega)
      dsimp only at hbyte ⊢
      rw [hbyte]
      exact hzero

theorem start (h : c.Starts fs) : c.Blank fs :=
  ⟨stored_startsOn h.1, fun i k hk => absurd hk (h.2 i k)⟩

theorem readsZeros (h : c.Blank fs) : c.ReadsZeros fs := by
  intro input fd len i hi ht j hj hhole
  obtain ⟨ho, _⟩ := vfsNodeFromFd_some hi
  obtain ⟨base, live, bs, fl, hb⟩ := h.stored.backed
  cases hr : hasFlag (c.vfs.fds fd.toNat).flags vfsORead with
  | false =>
      -- a read that fails delivers nothing
      unfold vfsRead at hj
      rw [if_neg (by simp [ho]), if_pos (by simp [hr])] at hj
      exact absurd hj (by simp [Xfer.fail])
  | true =>
      rw [vfsRead_file fs input len hi (by rw [ht]; simp) hr] at hj hhole ⊢
      split at hj
      · exact absurd hj (by simp)
      · next hleft =>
        rw [if_neg hleft] at hhole ⊢
        dsimp only at hhole ⊢
        obtain ⟨hlt, hzero⟩ := h.hole i _ hhole
        have hcap := (h.stored.sizes i).1
        have hdata := hb.data_lt i
        rw [u64_of_lt (by omega), Nat.add_assoc]
        exact hzero

end FileHoles.Blank

/-- **Extended files and objects read as zeros, where the growth finds zeros.** In every run whose
calls grow over zeros, and in every run of the object table whose growths do, bytes that came with a
larger size and were not written since read as zero. -/
theorem extended_reads_zero {ρ : Type} (fs : FrameService σ) {gs : FrameService ρ} (o : OverPmm gs)
    (hm : FlatMemory gs) :
    (∀ c, Run.Reach (FileHoles.Starts fs) (FileHoles.Step fs (GrowsClean fs)) c → c.ReadsZeros fs)
      ∧ ∀ c, Run.Reach (ShmHoles.Starts o) (ShmHoles.Step gs o (ZeroRest gs)) c → c.ReadsZeros gs := by
  refine ⟨fun c h => ?_, fun c h => shm_holes_zero o hm h⟩
  have hblank : c.Blank fs :=
    h.invariant (fun _ => FileHoles.Blank.start) fun _ _ hb hstep => hb.step hstep
  exact hblank.readsZeros

/-! ## Two runs -/

/-- `/tmp/a` on a heap of four pages, with three bytes in it. -/
theorem three_bytes (rest : Vfs Nat → Outcome Bool)
    (h : (do
      let heap ← heapInit Client.zeroedFrames ⟨fun _ => 0, 0, 0, 64⟩ 0xFFFFC00000000000 (4 * 4096)
      let v₁ ← (vfsInit 0 shmInit heap).step zeroedService noInput 0 (.open (cstr "/tmp/a") 7)
      let v₂ ← v₁.step zeroedService noInput 3 (.write 3 (fun _ => 0x41) 3)
      let b ← rest v₂
      return decide (v₁.nextInode ≤ 2 ^ 31 ∧ (v₁.fds 3).offset = 0 ∧ v₂.nextInode ≤ 2 ^ 31
        ∧ b = true)) = .done true)
    (ok : Nat → Vfs Nat → VfsOp → Prop) (hopen : ∀ n v path flags, ok n v (.open path flags))
    (hwrite : ∀ v buf, (v.fds 3).offset = 0 → ok 3 v (.write 3 buf 3)) :
    ∃ c : FileHoles Nat, Run.Reach (FileHoles.Starts zeroedService)
    (FileHoles.Step zeroedService ok) c
      ∧ rest c.vfs = .done true := by
  have hgood : Client.GoodInit Client.zeroedFrames ⟨fun _ => 0, 0, 0, 64⟩ 0xFFFFC00000000000
      (4 * 4096) :=
    ⟨by decide, by decide, by decide, by decide, by decide⟩
  obtain ⟨heap, hheap, h⟩ := Outcome.bind_eq_done h
  obtain ⟨v₁, h₁, h⟩ := Outcome.bind_eq_done h
  obtain ⟨v₂, h₂, h⟩ := Outcome.bind_eq_done h
  obtain ⟨b, hrest, h⟩ := Outcome.bind_eq_done h
  obtain ⟨hn₁, ho₁, hn₂, hb⟩ := of_decide_eq_true (Outcome.done.inj h)
  obtain ⟨c, hc, hreach⟩ : ∃ c : Client Nat, c.heap = heap
      ∧ Client.Reachable Client.zeroedFrames 0xFFFFC00000000000 (4 * 4096) c :=
    ⟨⟨heap, []⟩, rfl, .init hgood hheap⟩
  obtain ⟨v₀, hv₀⟩ : ∃ v₀, v₀ = vfsInit 0 shmInit c.heap := ⟨_, rfl⟩
  rw [← hc, ← hv₀] at h₁
  have hstart : FileHoles.Starts zeroedService ⟨v₀, fun _ _ => False⟩ :=
    ⟨⟨0, shmInit, _, _, c, by decide, hreach, Or.inl hv₀⟩, fun _ _ hk => hk⟩
  refine ⟨_, .next (.next (.start hstart) (.call (hopen _ _ _ _) h₁ hn₁))
    (.call (hwrite _ _ ho₁) h₂ hn₂), ?_⟩
  rw [← hb]
  exact hrest

/-- An object on a machine of two megabytes, opened and then ten bytes long. -/
theorem ten_bytes : ∃ d : ShmHoles (Pmm × Mem × Nat),
    Run.Reach (ShmHoles.Starts machineFrames_over)
        (ShmHoles.Step machineFrames machineFrames_over (ZeroRest machineFrames)) d
      ∧ d.hole 0 5 ∧ shmValid d.shm 0 = true
      ∧ (shmRead (machineFrames.phys d.frames) d.shm 0 10 0).1 = 10 := by
  have hboot : ∀ kb, ∃ p, p = pmmInit kb ∧ PmmReach p [] [] := fun kb => ⟨_, rfl, .boot (.init kb)⟩
  obtain ⟨p, hp, hreach⟩ := hboot 2048
  obtain ⟨s₀, hs₀⟩ : ∃ s₀ : Pmm × Mem × Nat, s₀ = (p, fun _ => 0, 64) := ⟨_, rfl⟩
  obtain ⟨t₀, ht₀⟩ : ∃ t₀, t₀ = (shmOpenObject shmInit (cstr "x")).1 := ⟨_, rfl⟩
  have hempty : (t₀ 0).size = 0 := by
    rw [ht₀]
    decide +kernel
  have hgrown : let x := shmTruncate machineFrames s₀ t₀ 0 10
      shmValid x.2.1 0 = true ∧ (x.2.1 0).size = 10
        ∧ (shmRead (machineFrames.phys x.1) x.2.1 0 10 0).1 = 10 := by
    rw [hs₀, hp, ht₀]
    decide +kernel
  obtain ⟨⟨s₁, t₁, r⟩, hx⟩ : ∃ x, shmTruncate machineFrames s₀ t₀ 0 10 = x := ⟨_, rfl⟩
  rw [hx] at hgrown
  dsimp only at hgrown
  obtain ⟨hv, hsize, hret⟩ := hgrown
  have hstart : ShmHoles.Starts machineFrames_over ⟨s₀, shmInit, fun _ _ => False⟩ := by
    refine ⟨rfl, fun _ _ hk => hk, [], [], ?_⟩
    rw [machineFrames_over_pmm, hs₀]
    exact hreach
  have hopen : ShmHoles.Step machineFrames machineFrames_over (ZeroRest machineFrames)
      ⟨s₀, shmInit, fun _ _ => False⟩
      (ShmHoles.next ⟨s₀, shmInit, fun _ _ => False⟩ s₀ t₀ ShmHoles.nothing) := by
    rw [ht₀]
    exact .open _
  -- an object without pages has no rest of a last page
  have hrest : ZeroRest machineFrames s₀ t₀ 0 10 := by
    intro _ k _ _ hk
    have hnone : pagesFor (t₀ (0 : Int).toNat).size * pageSize = 0 := by
      show pagesFor (t₀ 0).size * pageSize = 0
      rw [hempty]
      rfl
    omega
  refine ⟨_, .next (.next (.start hstart) hopen) (.truncate (by decide) hrest hx), ?_, hv, hret⟩
  refine ⟨shmValid_used hv, ?_, fun hc => hc, Or.inr ?_⟩
  · show 5 < (t₁ 0).size
    omega
  · show (t₀ 0).size ≤ 5
    omega

/-- A byte written two bytes beyond the end: over a heap that was zero the two bytes between are
zero. Ten bytes of an object that never had any are zero too. -/
theorem extended_reads_zero_gap :
    (∃ c : FileHoles Nat, c.hole 9 4 ∧ (vfsRead zeroedService c.vfs noInput 3 6).2.len = 6
      ∧ (vfsRead zeroedService c.vfs noInput 3 6).2.bytes 4 = 0)
    ∧ ∃ c : ShmHoles (Pmm × Mem × Nat), c.hole 0 5
      ∧ (shmRead (machineFrames.phys c.frames) c.shm 0 10 0).1 = 10
      ∧ (shmRead (machineFrames.phys c.frames) c.shm 0 10 0).2.2 5 = 0 := by
  constructor
  · obtain ⟨c, hreach, hrest⟩ := three_bytes (fun v => do
        let v₃ ← v.step zeroedService noInput 3 (.lseek 3 5 0)
        let v₄ ← v₃.step zeroedService noInput 3 (.write 3 (fun _ => 0x42) 1)
        let v₅ ← v₄.step zeroedService noInput 3 (.lseek 3 0 0)
        return decide (((v₃.nodes 9).size = 3 ∧ v₃.nextInode ≤ 2 ^ 31 ∧ (v₃.fds 3).offset = 5
            ∧ vfsNodeFromFd v₃ 3 = some 9
            ∧ ∀ k, k < 5 → 3 ≤ k → grownByte zeroedService 3 v₃ 9 6 262 k = 0)
          ∧ (v₄.nextInode ≤ 2 ^ 31 ∧ (v₄.nodes 9).size = 6)
          ∧ (v₅.nextInode ≤ 2 ^ 31 ∧ (v₅.nodes 9).size = 6 ∧ vfsNodeFromFd v₅ 3 = some 9
            ∧ (v₅.nodes 9).type = VFSNodeType.file
            ∧ (vfsRead zeroedService v₅ noInput 3 6).2.len = 6
            ∧ (vfsRead zeroedService v₅ noInput 3 6).2.lo = 0)))
      (by decide +kernel) (GrowsClean zeroedService) (fun _ _ _ _ => ⟨trivial, trivial⟩)
      (fun v buf ho => ⟨fun i _ _ => by show (v.fds 3).offset + 3 + 256 + 32 + 2 * 4096 < 2 ^ 64; omega,
        fun i _ k _ hk => by
          have hk' : k < (v.fds 3).offset := hk
          omega⟩)
    obtain ⟨v₃, h₃, hrest⟩ := Outcome.bind_eq_done hrest
    obtain ⟨v₄, h₄, hrest⟩ := Outcome.bind_eq_done hrest
    obtain ⟨v₅, h₅, hrest⟩ := Outcome.bind_eq_done hrest
    obtain ⟨⟨hs₃, hn₃, ho₃, hnode₃, hz₃⟩, ⟨hn₄, hs₄⟩, ⟨hn₅, hs₅, hnode₅, ht₅, hlen, hlo⟩⟩ :=
      of_decide_eq_true (Outcome.done.inj hrest)
    have hwrite : GrowsClean zeroedService 3 v₃ (.write 3 (fun _ => 0x42) 1) := by
      refine ⟨fun i _ _ => ?_, fun i hi k hge hk => ?_⟩
      · show (v₃.fds 3).offset + 1 + 256 + 32 + 2 * 4096 < 2 ^ 64
        omega
      · have hi9 : i = 9 := Option.some.inj (hi.1.symm.trans hnode₃)
        subst hi9
        have hoff : (v₃.fds (3 : Int).toNat).offset = 5 := ho₃
        rw [hoff] at hk ⊢
        exact hz₃ k hk (by omega)
    have hrun := Run.Reach.next (.next (.next hreach (.call (by exact ⟨trivial, trivial⟩) h₃ hn₃))
      (.call hwrite h₄ hn₄)) (.call (by exact ⟨trivial, trivial⟩) h₅ hn₅)
    have hhole : (((c.next (.lseek 3 5 0) v₃).next (.write 3 (fun _ => 0x42) 1) v₄).next
      (.lseek 3 0 0)
        v₅).hole 9 4 := by
      refine ⟨by show 4 < (v₅.nodes 9).size; omega, fun hc => hc, Or.inl ?_⟩
      refine ⟨by show 4 < (v₄.nodes 9).size; omega, fun hc => ?_,
        Or.inr (by show (v₃.nodes 9).size ≤ 4; omega)⟩
      have hge : (v₃.fds 3).offset ≤ 4 := hc.2.2.1
      omega
    refine ⟨_, hhole, hlen, ?_⟩
    refine (extended_reads_zero zeroedService machineFrames_over machineFrames_flat).1 _ hrun
      noInput
      3 6 9 hnode₅ ht₅ 4 ?_ ?_
    · show 4 < (vfsRead zeroedService v₅ noInput 3 6).2.len
      omega
    · show FileHoles.hole _ 9 ((vfsRead zeroedService v₅ noInput 3 6).2.lo + 4)
      rw [hlo]
      exact hhole
  · obtain ⟨d, hreach, hhole, hv, hret⟩ := ten_bytes
    refine ⟨d, hhole, hret, ?_⟩
    refine ((extended_reads_zero zeroedService machineFrames_over machineFrames_flat).2 d hreach 0
      hv).2
      10 0 5 ?_ hhole
    rw [hret]
    decide

/-- **Shrinking a file and growing it again shows what was cut off**: three bytes, length zero,
length three, and a read from the start returns the bytes. No call wraps. -/
theorem extended_reads_stale : ¬ ∀ c,
    Run.Reach (FileHoles.Starts zeroedService) (FileHoles.Step zeroedService fun _ v op => v.Roomy op) c →
    c.ReadsZeros zeroedService := by
  intro hall
  obtain ⟨c, hreach, hrest⟩ := three_bytes (fun v => do
      let v₃ ← v.step zeroedService noInput 3 (.ftruncate 3 0)
      let v₄ ← v₃.step zeroedService noInput 3 (.ftruncate 3 3)
      let v₅ ← v₄.step zeroedService noInput 3 (.lseek 3 0 0)
      return decide ((v₃.nextInode ≤ 2 ^ 31 ∧ (v₃.nodes 9).size = 0)
        ∧ (v₄.nextInode ≤ 2 ^ 31 ∧ (v₄.nodes 9).size = 3)
        ∧ (v₅.nextInode ≤ 2 ^ 31 ∧ (v₅.nodes 9).size = 3 ∧ vfsNodeFromFd v₅ 3 = some 9
          ∧ (v₅.nodes 9).type = VFSNodeType.file
          ∧ (vfsRead zeroedService v₅ noInput 3 3).2.len = 3
          ∧ (vfsRead zeroedService v₅ noInput 3 3).2.lo = 0
          ∧ (vfsRead zeroedService v₅ noInput 3 3).2.bytes 0 = 0x41)))
    (by decide +kernel) (fun _ v op => v.Roomy op) (fun _ _ _ _ => trivial)
    (fun v buf ho i _ _ => by show (v.fds 3).offset + 3 + 256 + 32 + 2 * 4096 < 2 ^ 64; omega)
  obtain ⟨v₃, h₃, hrest⟩ := Outcome.bind_eq_done hrest
  obtain ⟨v₄, h₄, hrest⟩ := Outcome.bind_eq_done hrest
  obtain ⟨v₅, h₅, hrest⟩ := Outcome.bind_eq_done hrest
  obtain ⟨⟨hn₃, hs₃⟩, ⟨hn₄, hs₄⟩, ⟨hn₅, hs₅, hnode₅, ht₅, hlen, hlo, hbyte⟩⟩ :=
    of_decide_eq_true (Outcome.done.inj hrest)
  have hrun := Run.Reach.next (.next (.next hreach
    (.call (by show (0 : Int) < 2 ^ 63; decide) h₃ hn₃))
    (.call (by show (3 : Int) < 2 ^ 63; decide) h₄ hn₄)) (.call (by exact trivial) h₅ hn₅)
  have hzero := hall _ hrun noInput 3 3 9 hnode₅ ht₅ 0
    (by show 0 < (vfsRead zeroedService v₅ noInput 3 3).2.len; omega) (by
      show FileHoles.hole _ 9 ((vfsRead zeroedService v₅ noInput 3 3).2.lo + 0)
      rw [hlo]
      refine ⟨by show 0 < (v₅.nodes 9).size; omega, fun hc => hc, Or.inl ?_⟩
      exact ⟨by show 0 < (v₄.nodes 9).size; omega, fun hc => hc,
        Or.inr (by show (v₃.nodes 9).size ≤ 0; omega)⟩)
  exact absurd (hbyte.symm.trans hzero) (by decide)

end VnlKernel
