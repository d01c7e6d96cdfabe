import VnlKernel.Proof.VfsTree

/-!
# Reading and writing inside the file

A descriptor's offset, a file's size and its capacity are three numbers that six calls
change, and the code compares them by subtracting and adding in 64 bits. A read takes
`size - offset` for what is left, so a descriptor that was moved beyond the end has
nearly everything left; a write takes `offset + len` for its end, so a length near the
top of the range ends before it starts. Apart from these, no transfer touches a byte
outside the file, and no file outgrows its block.
-/

namespace VnlKernel

open ByteMem Bits

variable {σ : Type}

/-- The end of a write does not wrap, nor does the capacity asked for. The length of `ftruncate` is
an `int64_t`. -/
def Vfs.EndFits (v : Vfs σ) : VfsOp → Prop
  | .write fd _ len => ∀ i, vfsNodeFromFd v fd = some i → (v.nodes i).type = .file →
      (v.fds fd.toNat).offset + len + 256 < 2 ^ 64
  | .ftruncate _ length => length < 2 ^ 63
  | _ => True

/-- Nor does what is left to read: a read of a file starts no later than its end, or is empty. -/
def Vfs.Fits (v : Vfs σ) : VfsOp → Prop
  | .read fd len => ∀ i, vfsNodeFromFd v fd = some i → (v.nodes i).type = .file →
      (v.fds fd.toNat).offset ≤ (v.nodes i).size ∨ len = 0
  | op => v.EndFits op

theorem Vfs.Fits.end {v : Vfs σ} {op : VfsOp} (h : v.Fits op) : v.EndFits op := by
  cases op with
  | read fd len => exact trivial
  | _ => exact h

/-- No file is larger than its block, and no block than the address space. -/
def SizeInv (v : Vfs σ) : Prop :=
  ∀ i, (v.nodes i).size ≤ (v.nodes i).capacity ∧ (v.nodes i).capacity < 2 ^ 64

section Sizes

variable {v v' : Vfs σ}

theorem SizeInv.of_nodes (h : SizeInv v) (hn : v'.nodes = v.nodes) : SizeInv v' := by
  intro i
  rw [hn]
  exact h i

theorem SizeInv.setNode (h : SizeInv v) {i : Nat} {n : VFSNode}
    (hs : n.size ≤ n.capacity ∧ n.capacity < 2 ^ 64) (hn : v'.nodes = (v.setNode i n).nodes) :
    SizeInv v' := by
  intro j
  rw [hn]
  by_cases hj : j = i
  · rw [hj, Vfs.setNode_self]; exact hs
  · rw [Vfs.setNode_ne _ hj]; exact h j

theorem SizeInv.moves (h : SizeInv v) {k : Nat} (hm : Moves v k v') : SizeInv v' := by
  rcases hm with rfl | ⟨e, rfl⟩
  · exact h
  · exact h.of_nodes rfl

theorem SizeInv.created (h : SizeInv v) {path : CStr} {k : Nat} (hc : Created path k v v') :
    SizeInv v' := by
  induction hc with
  | none v => exact h
  | shm t _ ih => exact (ih h).of_nodes rfl
  | node _ _ _ _ hcreate ih =>
      obtain ⟨p, i, _, _, _, _, rfl⟩ := createNode_some hcreate
      exact (ih h).setNode ⟨Nat.le_refl 0, Nat.two_pow_pos 64⟩ rfl

theorem SizeInv.opened (h : SizeInv v) {fd i flags inode : Nat}
    (ho : Opened v fd i flags inode v') :
    SizeInv v' := by
  cases ho with
  | plain _ => exact h.of_nodes rfl
  | trunc _ _ _ => exact h.setNode ⟨Nat.le_refl 0, Nat.two_pow_pos 64⟩ rfl

/-- Making room leaves the sizes alone and the end within the block. -/
theorem SizeInv.roomed (h : SizeInv v) {fs : FrameService σ} {fuel i newEnd : Nat}
    (hr : Roomed fs fuel v i newEnd v') (hend : newEnd + 256 < 2 ^ 64) :
    SizeInv v' ∧ newEnd ≤ (v'.nodes i).capacity := by
  cases hr with
  | fits hle => exact ⟨h, hle⟩
  | grown hlt _ _ =>
      have hcap : u64 (newEnd + 256) = newEnd + 256 := u64_of_lt hend
      have hi := h i
      refine ⟨h.setNode ?_ rfl, ?_⟩
      · show (v.nodes i).size ≤ u64 (newEnd + 256) ∧ u64 (newEnd + 256) < 2 ^ 64
        omega
      · unfold refill
        rw [Vfs.setNode_self]
        show newEnd ≤ u64 (newEnd + 256)
        omega

theorem SizeInv.putBytes (h : SizeInv v) {i : Nat} {e : FDEntry} {len : Nat} (fd : Nat)
    (buf : Nat → UInt8) (hend : e.offset + len < 2 ^ 64)
    (hcap : e.offset + len ≤ (v.nodes i).capacity) :
    SizeInv (putBytes v i fd e buf len)
      ∧ ((putBytes v i fd e buf len).nodes i).capacity = (v.nodes i).capacity := by
  unfold VnlKernel.putBytes
  rw [u64_of_lt hend]
  dsimp only
  split
  · refine ⟨h.setNode ?_ rfl, ?_⟩
    · exact ⟨hcap, (h i).2⟩
    · rw [Vfs.setNode_self]
  · exact ⟨h.of_nodes rfl, rfl⟩

/-- **A write that does not wrap stays inside the block.** -/
theorem SizeInv.written (h : SizeInv v) {fs : FrameService σ} {fuel : Nat} {fd : Int}
    {buf : Nat → UInt8} {len : Nat} {x : Xfer} (hw : Written fs fuel v fd buf len v' x)
    (hfit : v.EndFits (.write fd buf len)) :
    SizeInv v' ∧ ∀ i, vfsNodeFromFd v fd = some i → (v.nodes i).type = .file →
      x.lo + x.len ≤ (v'.nodes i).capacity := by
  cases hw with
  | refused _ => exact ⟨h, fun i _ _ => Nat.zero_le _⟩
  | device _ _ _ => exact ⟨h.of_nodes rfl, fun i _ _ => Nat.zero_le _⟩
  | full _ _ _ _ _ => exact ⟨h.of_nodes rfl, fun i _ _ => Nat.zero_le _⟩
  | @file i v₁ ho hi ht hroom =>
      have hnode : vfsNodeFromFd v fd = some i := by
        unfold vfsNodeFromFd
        rw [if_neg (by simp [ho]), hi]
      have hlt := hfit i hnode ht
      have hend : u64 ((v.fds fd.toNat).offset + len) = (v.fds fd.toNat).offset + len :=
        u64_of_lt (by omega)
      rw [hend] at hroom
      obtain ⟨h₁, hcap⟩ := h.roomed hroom hlt
      obtain ⟨h₂, hsame⟩ := h₁.putBytes fd.toNat buf (by omega) hcap
      refine ⟨h₂, fun j hj _ => ?_⟩
      rw [hnode] at hj
      cases hj
      rw [hsame]
      exact hcap

theorem SizeInv.truncated (h : SizeInv v) {fs : FrameService σ} {fuel : Nat} {fd length : Int}
    (ht : Truncated fs fuel v fd length v') (hlen : length < 2 ^ 63) : SizeInv v' := by
  cases ht with
  | refused => exact h
  | shm _ => exact h.of_nodes rfl
  | full _ _ _ _ _ => exact h.of_nodes rfl
  | grown _ _ h0 _ _ _ =>
      refine h.setNode ?_ rfl
      show toU64 length ≤ alignUpPage (u64 (toU64 length + 256))
        ∧ alignUpPage (u64 (toU64 length + 256)) < 2 ^ 64
      have hu : toU64 length < 2 ^ 63 := by unfold toU64; omega
      rw [u64_of_lt (by omega)]
      have hup := alignUpPage_spec (show toU64 length + 256 + 4095 < 2 ^ 64 by omega)
      omega
  | @fits i _ _ _ hle =>
      refine h.setNode (i := i) ?_ rfl
      exact ⟨hle, (h i).2⟩

/-- **Every call whose end fits keeps files within their blocks.** -/
theorem SizeInv.step {fs : FrameService σ} {input : DevInput} {fuel : Nat} {op : VfsOp}
    (h : SizeInv v)
    (hfit : v.EndFits op) (hs : v.step fs input fuel op = .done v') : SizeInv v' := by
  cases step_effect hs with
  | idle => exact h
  | moves _ hm => exact h.moves hm
  | cwd _ => exact h.of_nodes rfl
  | madeDir _ hc => exact h.created hc
  | madeChr _ hc => exact h.created hc
  | failed _ _ hc => exact h.created hc
  | opened _ _ hc _ _ _ ho => exact (h.created hc).opened ho
  | removed _ _ _ _ _ => exact h.setNode ⟨Nat.le_refl 0, Nat.two_pow_pos 64⟩ rfl
  | written hw => exact (h.written hw hfit).1
  | truncated ht => exact h.truncated ht hfit

end Sizes

/-! ## One read -/

/-- The bytes a read of a file copies are below its size, and at or beyond the end it returns zero.
-/
def ReadInside (fs : FrameService σ) (v : Vfs σ) (input : DevInput) (fd : Int) (len i : Nat) : Prop :=
  (∀ k, k < (vfsRead fs v input fd len).2.len →
      (vfsRead fs v input fd len).2.lo + k < (v.nodes i).size)
    ∧ (fdOpen v fd = true → hasFlag (v.fds fd.toNat).flags vfsORead = true →
        (v.nodes i).size ≤ (v.fds fd.toNat).offset → (vfsRead fs v input fd len).2.ret = 0)

theorem vfsNodeFromFd_some {v : Vfs σ} {fd : Int} {i : Nat} (h : vfsNodeFromFd v fd = some i) :
    fdOpen v fd = true ∧ nodeGet v (v.fds fd.toNat).inode = some i := by
  unfold vfsNodeFromFd at h
  split at h
  · exact absurd h (by simp)
  · next ho => exact ⟨by simpa using ho, h⟩

/-- What a read of a file comes to. -/
theorem vfsRead_file (fs : FrameService σ) {v : Vfs σ} (input : DevInput) {fd : Int} (len : Nat)
    {i : Nat}
    (hi : vfsNodeFromFd v fd = some i) (ht : (v.nodes i).type ≠ .chr)
    (hr : hasFlag (v.fds fd.toNat).flags vfsORead = true) :
    vfsRead fs v input fd len =
      if sub64 (v.nodes i).size (v.fds fd.toNat).offset = 0 then
        (v, ⟨0, (v.fds fd.toNat).offset, 0, fun _ => 0⟩)
      else
        (v.setFd fd.toNat { v.fds fd.toNat with
          offset := u64 ((v.fds fd.toNat).offset
            + min len (sub64 (v.nodes i).size (v.fds fd.toNat).offset)) },
        ⟨toInt32 (min len (sub64 (v.nodes i).size (v.fds fd.toNat).offset)),
          (v.fds fd.toNat).offset,
          min len (sub64 (v.nodes i).size (v.fds fd.toNat).offset),
          fun k => v.heap.mem (u64 ((v.nodes i).data + (v.fds fd.toNat).offset) + k)⟩) := by
  obtain ⟨ho, hg⟩ := vfsNodeFromFd_some hi
  have hmin : ∀ a b : Nat, (if a < b then a else b) = min a b := by
    intro a b
    split
    · omega
    · omega
  unfold vfsRead
  rw [if_neg (by simp [ho]), if_neg (by simp [hr]), hg]
  dsimp only
  rw [if_neg ht, hmin]

/-- **A read that does not wrap stays inside the file.** -/
theorem SizeInv.read {v : Vfs σ} (h : SizeInv v) (fs : FrameService σ) (input : DevInput) {fd : Int}
    {len i : Nat} (hi : vfsNodeFromFd v fd = some i) (ht : (v.nodes i).type = .file)
    (hfit : v.Fits (.read fd len)) : ReadInside fs v input fd len i := by
  obtain ⟨ho, _⟩ := vfsNodeFromFd_some hi
  cases hr : hasFlag (v.fds fd.toNat).flags vfsORead with
  | false =>
      have hfail : vfsRead fs v input fd len = (v, .fail (-1)) := by
        unfold vfsRead
        rw [if_neg (by simp [ho]), if_pos (by simp [hr])]
      unfold ReadInside
      rw [hfail]
      exact ⟨fun k hk => absurd hk (by simp [Xfer.fail]),
        fun _ hc => absurd (hr.symm.trans hc) (by simp)⟩
  | true =>
      have hsz := h i
      unfold ReadInside
      rw [vfsRead_file fs input len hi (by rw [ht]; simp) hr]
      rcases hfit i hi ht with hoff | rfl
      · rw [sub64_of_le hoff (by omega)]
        split
        · exact ⟨fun k hk => absurd hk (by simp), fun _ _ _ => rfl⟩
        · next hleft =>
          dsimp only
          exact ⟨fun k hk => by omega, fun _ _ hend => absurd hend (by omega)⟩
      · split
        · exact ⟨fun k hk => absurd hk (by simp), fun _ _ _ => rfl⟩
        · rw [Nat.zero_min]
          exact ⟨fun k hk => absurd hk (by simp), fun _ _ _ => rfl⟩

/-! ## Runs -/

/-- The calls that fit. -/
def Vfs.FitSteps (fs : FrameService σ) (v v' : Vfs σ) : Prop :=
  ∃ op input fuel, v.Fits op ∧ v.step fs input fuel op = .done v'

theorem sizeInv_start {v : Vfs σ} (h : v.Starts) : SizeInv v := by
  obtain ⟨n, _, hP⟩ := starts_induct (P := fun _ v => SizeInv v) h
    (fun cwd shm heap _ i => by
      unfold bareRoot
      dsimp only
      split
      · exact ⟨Nat.le_refl 0, Nat.two_pow_pos 64⟩
      · exact ⟨Nat.le_refl 0, Nat.two_pow_pos 64⟩)
    (fun n v path _ type major minor hP => by
      obtain ⟨k, _, hc⟩ := makeNode_created v path type major minor
      exact hP.created hc)
  exact hP

/-- **File transfers stay inside the file**, in every run whose reads start at or before the end of
the file or are empty, and whose writes do not wrap: files fit their blocks, and so do the next read
and the next write that meet the condition. -/
theorem Vfs.fitting_inside {fs : FrameService σ} {v : Vfs σ}
    (h : Run.Reach Vfs.Starts (Vfs.FitSteps fs) v) :
    (∀ i, (v.nodes i).size ≤ (v.nodes i).capacity)
      ∧ (∀ input fd len i, vfsNodeFromFd v fd = some i → (v.nodes i).type = .file →
          v.Fits (.read fd len) → ReadInside fs v input fd len i)
      ∧ ∀ fuel fd buf len i v' x, vfsNodeFromFd v fd = some i → (v.nodes i).type = .file →
          v.Fits (.write fd buf len) → vfsWrite fs fuel v fd buf len = .done (v', x) →
          x.lo + x.len ≤ (v'.nodes i).capacity := by
  have hinv : SizeInv v := h.invariant (fun _ => sizeInv_start) fun s s' hs hstep => by
    obtain ⟨op, input, fuel, hfit, hdone⟩ := hstep
    exact hs.step hfit.end hdone
  refine ⟨fun i => (hinv i).1, fun input fd len i hi ht hfit => hinv.read fs input hi ht hfit, ?_⟩
  intro fuel fd buf len i v' x hi ht hfit hw
  exact (hinv.written (vfsWrite_cases hw) hfit).2 i hi ht

/-- No input. -/
def noInput : DevInput := fun _ _ => (0, fun _ => 0)

/-- A file of three bytes, written over a heap of four pages. -/
theorem Vfs.fitting_inside_write : ∃ v : Vfs Nat,
    Run.Reach Vfs.Starts (Vfs.FitSteps zeroedService) v ∧ vfsNodeFromFd v 3 = some 9
      ∧ (v.nodes 9).size = 3 ∧ (v.nodes 9).capacity = 259
      ∧ ReadInside zeroedService v noInput 3 100 9 := by
  obtain ⟨heap, _, hrest⟩ := Outcome.of_get?
    (x := heapInit Client.zeroedFrames ⟨fun _ => 0, 0, 0, 64⟩ 0xFFFFC00000000000 (4 * 4096))
    (f := fun heap =>
      ((vfsInit 0 shmInit heap).step zeroedService noInput 0 (.open (cstr "/tmp/a") 7)).get?.map
        fun (v : Vfs Nat) => decide (vfsNodeFromFd v 3 = some 9 ∧ (v.fds 3).offset = 0
          ∧ (v.step zeroedService noInput 3 (.write 3 (fun _ => 0x41) 3)).get?.map
            (fun (v : Vfs Nat) => decide (vfsNodeFromFd v 3 = some 9 ∧ (v.nodes 9).type = .file
              ∧ (v.nodes 9).size = 3 ∧ (v.nodes 9).capacity = 259 ∧ (v.fds 3).offset = 3))
            = some true))
    (b := some true) (by decide +kernel)
  obtain ⟨v₁, hopen, hfacts⟩ := Outcome.of_get? hrest
  obtain ⟨hn, hoff, hwrite⟩ := of_decide_eq_true hfacts
  obtain ⟨v₂, hstep, hfacts⟩ := Outcome.of_get? hwrite
  obtain ⟨hn₂, ht, hsz, hcap, hoff₂⟩ := of_decide_eq_true hfacts
  have hfit : v₁.Fits (.write 3 (fun _ => 0x41) 3) := by
    intro i hi _
    show (v₁.fds 3).offset + 3 + 256 < 2 ^ 64
    rw [hoff]
    decide
  have hr : Run.Reach Vfs.Starts (Vfs.FitSteps zeroedService) v₂ :=
    .next (.next (.start ⟨0, shmInit, heap, by decide, Or.inl rfl⟩)
      ⟨.open (cstr "/tmp/a") 7, noInput, 0, trivial, hopen⟩) ⟨_, noInput, 3, hfit, hstep⟩
  refine ⟨v₂, hr, hn₂, hsz, hcap, (Vfs.fitting_inside hr).2.1 noInput 3 100 9 hn₂ ht ?_⟩
  intro i hi _
  rw [hn₂] at hi
  cases hi
  exact Or.inl (by show (v₂.fds 3).offset ≤ _; rw [hoff₂, hsz])

/-- **A read beyond the end returns what lies there**: an empty file opened for reading, its
descriptor moved to 10, and a read of 5 bytes copies the bytes at 10 to 14. -/
theorem Vfs.read_beyond_end : ∃ v : Vfs Nat,
    Run.Reach Vfs.Starts (Vfs.Steps zeroedService) v ∧ vfsNodeFromFd v 3 = some 9
      ∧ (v.nodes 9).type = .file ∧ (v.nodes 9).size = 0 ∧ (v.fds 3).offset = 10
      ∧ (vfsRead zeroedService v noInput 3 5).2.ret = 5
      ∧ ¬ ReadInside zeroedService v noInput 3 5 9 := by
  obtain ⟨v₁, hopen, hrest⟩ := Outcome.of_get?
    (x := bootVfs.step zeroedService noInput 0 (.open (cstr "/tmp/a") 5))
    (f := fun (v : Vfs Nat) => decide (v.nextInode ≤ 2 ^ 31
      ∧ (v.step zeroedService noInput 0 (.lseek 3 10 0)).get?.map
        (fun (v : Vfs Nat) => decide (v.nextInode ≤ 2 ^ 31 ∧ vfsNodeFromFd v 3 = some 9
          ∧ (v.nodes 9).type = .file ∧ (v.nodes 9).size = 0 ∧ (v.fds 3).offset = 10
          ∧ (vfsRead zeroedService v noInput 3 5).2.ret = 5
          ∧ (vfsRead zeroedService v noInput 3 5).2.len = 5)) = some true))
    (b := true) (by decide +kernel)
  obtain ⟨hnum, hseek⟩ := of_decide_eq_true hrest
  obtain ⟨v₂, hstep, hfacts⟩ := Outcome.of_get? hseek
  obtain ⟨hnum₂, hn, ht, hsz, hoff, hret, hlen⟩ := of_decide_eq_true hfacts
  refine ⟨v₂, .next (.next (.start bootVfs_starts) ⟨_, noInput, 0, hopen, hnum⟩)
    ⟨_, noInput, 0, hstep, hnum₂⟩, hn, ht, hsz, hoff, hret, fun hin => ?_⟩
  have := hin.1 0 (by rw [hlen]; decide)
  omega

end VnlKernel
