import VnlKernel.Proof.VfsContents

/-!
# Writing a file and reading it back

One file, one writer at a time, any number of readers, and everything else the kernel
does to other files in between. The run carries what was written so far and, for each
descriptor opened to read the file, what came out of it so far.

The text is always what the file holds, so what came out of a reader is always a
beginning of it, and the next read delivers what comes next.
-/

namespace VnlKernel

open ByteMem Bits

variable {σ : Type}

/-- The bytes of the file in slot `i`. -/
def fileBytes (v : Vfs σ) (i : Nat) : List UInt8 :=
  (List.range (v.nodes i).size).map fun k => v.heap.mem ((v.nodes i).data + k)

/-- The bytes a read delivered. -/
def Xfer.delivered (x : Xfer) : List UInt8 := (List.range x.len).map x.bytes

/-- A caller's buffer that holds `chunk`. -/
def bufferOf (chunk : List UInt8) : Nat → UInt8 := fun k => chunk.getD k 0

/-- The file system, with the history of the one file: what was written to it, which descriptor
writes it, and what each reader got. -/
structure FileRun (σ : Type) where
  vfs : Vfs σ
  text : List UInt8
  writer : Option Nat
  got : Nat → Option (List UInt8)

namespace FileRun

/-- The call is aimed at none of the descriptors that the run keeps track of. -/
def Spares (c : FileRun σ) (op : VfsOp) : Prop :=
  ∀ fd, op.target = some fd → c.writer ≠ some fd.toNat ∧ c.got fd.toNat = none

def track (c : FileRun σ) (r : Nat) (g : List UInt8) : Nat → Option (List UInt8) :=
  fun k => if k = r then some g else c.got k

/-- One step. `ok` is what is asked of the calls on other files. -/
inductive Step (fs : FrameService σ) (ok : Vfs σ → VfsOp → Prop) (n : Nat) :
    FileRun σ → FileRun σ → Prop
  /-- A chunk goes through the writer. -/
  | write {c : FileRun σ} {w fuel : Nat} (chunk : List UInt8) {v' : Vfs σ} {x : Xfer} :
      c.writer = some w → c.text.length + chunk.length < 2 ^ 31 →
      vfsWrite fs fuel c.vfs w (bufferOf chunk) chunk.length = .done (v', x) →
      Step fs ok n c { c with vfs := v', text := c.text ++ chunk }
  /-- The file is opened to read. -/
  | openRead {c : FileRun σ} {path : CStr} {flags : Nat} {v' : Vfs σ} {r : Int} :
      vfsOpen c.vfs path flags = .done (v', r) → 0 ≤ r → (v'.fds r.toNat).inode = n →
      hasFlag flags vfsORead = true → hasFlag flags vfsOWrite = false →
      hasFlag flags vfsOTrunc = false → v'.nextInode ≤ 2 ^ 31 →
      Step fs ok n c { c with vfs := v', got := c.track r.toNat [] }
  /-- The file is opened again to write on. -/
  | openAppend {c : FileRun σ} {path : CStr} {flags : Nat} {v' : Vfs σ} {r : Int} :
      vfsOpen c.vfs path flags = .done (v', r) → 0 ≤ r → (v'.fds r.toNat).inode = n →
      hasFlag flags vfsOWrite = true → hasFlag flags vfsOTrunc = false → v'.nextInode ≤ 2 ^ 31 →
      Step fs ok n c { c with vfs := v', writer := some r.toNat }
  /-- A reader reads. -/
  | read {c : FileRun σ} {r len : Nat} {g : List UInt8} {input : DevInput} :
      c.got r = some g →
      Step fs ok n c { c with
        vfs := (vfsRead fs c.vfs input r len).1
        got := c.track r (g ++ (vfsRead fs c.vfs input r len).2.delivered) }
  /-- The run loses interest in the writer, or in a reader. -/
  | leaveWriter {c : FileRun σ} : Step fs ok n c { c with writer := none }
  | leaveReader {c : FileRun σ} (r : Nat) :
      Step fs ok n c { c with got := fun k => if k = r then none else c.got k }
  /-- Anything else that does not write, truncate or remove the file. -/
  | other {c : FileRun σ} {op : VfsOp} {input : DevInput} {fuel : Nat} {v' : Vfs σ} :
      c.vfs.step fs input fuel op = .done v' → ok c.vfs op → c.vfs.Leaves n v' op → c.Spares op →
      v'.nextInode ≤ 2 ^ 31 → Step fs ok n c { c with vfs := v' }

end FileRun

/-! ## Before the file is opened -/

/-- Booted over a heap that is in use. -/
def Vfs.StartsOn (fs : FrameService σ) (v : Vfs σ) : Prop :=
  ∃ cwd shm base n, ∃ c : Client σ, cwd < 2 ^ 32 ∧ Client.Reachable fs.toPager base n c
    ∧ (v = vfsInit cwd shm c.heap ∨ v = devfsInit (vfsInit cwd shm c.heap))

/-- Calls of which `ok` holds, with fewer than `2 ^ 31` nodes ever created. -/
def Vfs.StepsOk (fs : FrameService σ) (ok : Vfs σ → VfsOp → Prop) (v v' : Vfs σ) : Prop :=
  ∃ op input fuel, ok v op ∧ v.step fs input fuel op = .done v' ∧ v'.nextInode ≤ 2 ^ 31

/-- `vfs_open` with `VFS_O_WRITE | VFS_O_TRUNC` has just returned a descriptor for a file. -/
def FileRun.Starts (fs : FrameService σ) (ok : Vfs σ → VfsOp → Prop) (n : Nat) (c : FileRun σ) :
    Prop :=
  ∃ v path flags v' r, Run.Reach (Vfs.StartsOn fs) (Vfs.StepsOk fs ok) v
    ∧ vfsOpen v path flags = .done (v', r) ∧ 0 ≤ r ∧ hasFlag flags vfsOWrite = true
    ∧ hasFlag flags vfsOTrunc = true ∧ v'.nextInode ≤ 2 ^ 31 ∧ (v'.fds r.toNat).inode = n
    ∧ (∃ i, nodeGet v' n = some i ∧ (v'.nodes i).type = .file)
    ∧ c = ⟨v', [], some r.toNat, fun _ => none⟩

section Before

variable {fs : FrameService σ} {v : Vfs σ}

theorem stored_startsOn (h : v.StartsOn fs) : Stored fs v := by
  obtain ⟨cwd, shm, base, n, c, hcwd, hreach, hv⟩ := h
  obtain ⟨bs, fl, hinv⟩ := hreach.inv
  refine ⟨treeOk_start ⟨cwd, shm, c.heap, hcwd, hv⟩, sizeInv_start ⟨cwd, shm, c.heap, hcwd, hv⟩, ?_⟩
  obtain ⟨_, _, hP⟩ := boot_induct (P := fun _ v => Backed fs base v c.live bs fl) hv
    (by
      have h0 : ∀ i, ((bareRoot cwd shm c.heap).nodes i).data = 0
          ∧ ((bareRoot cwd shm c.heap).nodes i).capacity = 0 := by
        intro i
        unfold bareRoot
        dsimp only
        split
        · exact ⟨rfl, rfl⟩
        · exact ⟨rfl, rfl⟩
      exact ⟨hreach.base_pos, hinv, fun i => Or.inl (h0 i), fun i j _ hi => absurd (h0 i).1 hi⟩)
    (fun n v path _ type major minor hP => by
      obtain ⟨k, _, hc⟩ := makeNode_created v path type major minor
      exact (hP.created hc).1)
  exact ⟨base, c.live, bs, fl, hP⟩

theorem stored_reach (h : Run.Reach (Vfs.StartsOn fs) (Vfs.StepsOk fs Vfs.Roomy) v) : Stored fs v :=
  h.invariant (fun _ => stored_startsOn) fun s s' hs hstep => by
    obtain ⟨op, input, fuel, hok, hdone, hnum⟩ := hstep
    exact (hs.step hok hdone hnum).1

end Before

/-! ## Descriptors that a call does not touch -/

section Fds

variable {fs : FrameService σ} {v v' : Vfs σ}

theorem Created.fds {path : CStr} {k : Nat} (h : Created path k v v') : v'.fds = v.fds := by
  induction h with
  | none v => rfl
  | shm t _ ih => exact ih
  | node _ _ _ _ hcreate ih =>
      obtain ⟨_, _, _, _, _, _, rfl⟩ := createNode_some hcreate
      exact ih

/-- **An open descriptor that a call does not name stays as it is.** -/
theorem Effect.fds {fuel : Nat} {op : VfsOp} (he : Effect fs fuel v op v') {k : Nat}
    (ho : (v.fds k).isOpen = true) (hk : ∀ fd, op.target = some fd → fd.toNat ≠ k) :
    v'.fds k = v.fds k := by
  cases he with
  | idle => rfl
  | @moves _ k' _ hmay hm =>
      rcases hm with rfl | ⟨e, rfl⟩
      · rfl
      · refine Vfs.setFd_ne e ?_
        rintro rfl
        rcases hmay with hfree | ⟨fd, ht, hfd⟩
        · rw [hfree] at ho; exact absurd ho (by simp)
        · exact hk fd ht hfd
  | cwd _ => rfl
  | madeDir _ hc => rw [hc.fds]
  | madeChr _ hc => rw [hc.fds]
  | failed _ _ hc => rw [hc.fds]
  | opened _ _ hc hfd _ _ hop =>
      have hne : k ≠ _ := fun hkf => by
        rw [hkf, (freeFd_some hfd).2.2] at ho
        exact absurd ho (by simp)
      cases hop with
      | plain _ => rw [Vfs.setFd_ne _ hne, hc.fds]
      | trunc _ _ _ =>
          rw [Vfs.setFd_ne _ hne]
          exact congrFun hc.fds k
  | removed _ _ _ _ _ => rfl
  | @written fd buf len _ _ hw =>
      have hne : k ≠ fd.toNat := fun hkf => hk fd rfl hkf.symm
      cases hw with
      | refused _ => rfl
      | device _ _ _ => rw [Vfs.setFd_ne _ hne]; rfl
      | full _ _ _ _ _ => rfl
      | file _ _ _ hroom =>
          rw [(putBytes_tables _ _ _ _ _).2.1, Vfs.setFd_ne _ hne]
          cases hroom with
          | fits _ => rfl
          | grown _ _ _ => rfl
  | truncated ht =>
      cases ht with
      | refused => rfl
      | shm _ => rfl
      | full _ _ _ _ _ => rfl
      | grown _ _ _ _ _ _ => rfl
      | fits _ _ _ _ => rfl

end Fds

/-! ## The invariant -/

/-- Slot `t` is the file with number `n`, and holds `text`. -/
structure Holds (v : Vfs σ) (n t : Nat) (text : List UInt8) : Prop where
  used : (v.nodes t).used = true
  inode : (v.nodes t).inode = n
  file : (v.nodes t).type = .file
  size : (v.nodes t).size = text.length
  bytes : ∀ k, k < text.length → v.heap.mem ((v.nodes t).data + k) = text.getD k 0

/-- What the run keeps. -/
structure FileInv (fs : FrameService σ) (n t : Nat) (c : FileRun σ) : Prop where
  stored : Stored fs c.vfs
  holds : Holds c.vfs n t c.text
  short : c.text.length < 2 ^ 31
  writer : ∀ w, c.writer = some w → w < vfsMaxFds ∧ (c.vfs.fds w).isOpen = true
    ∧ (c.vfs.fds w).inode = n ∧ hasFlag (c.vfs.fds w).flags vfsOWrite = true
    ∧ (c.vfs.fds w).offset = c.text.length
  reader : ∀ r g, c.got r = some g → r < vfsMaxFds ∧ (c.vfs.fds r).isOpen = true
    ∧ (c.vfs.fds r).inode = n ∧ hasFlag (c.vfs.fds r).flags vfsORead = true
    ∧ hasFlag (c.vfs.fds r).flags vfsOWrite = false
    ∧ (c.vfs.fds r).offset = g.length ∧ g <+: c.text

section Inv

variable {fs : FrameService σ} {v v' : Vfs σ} {n t : Nat} {text : List UInt8}

theorem Holds.of_same (h : Holds v n t text) (hsz : SizeInv v) (hs : SameFile v v' t) :
    Holds v' n t text := by
  obtain ⟨hn, hb⟩ := hs
  have hcap := hsz t
  have hlen := h.size
  refine ⟨by rw [hn]; exact h.used, by rw [hn]; exact h.inode, by rw [hn]; exact h.file,
    by rw [hn]; exact h.size, fun k hk => ?_⟩
  rw [hn, hb k (by omega)]
  exact h.bytes k hk

theorem Holds.fileBytes (h : Holds v n t text) : fileBytes v t = text := by
  unfold VnlKernel.fileBytes
  rw [h.size]
  refine List.ext_getElem (by simp) fun k h1 h2 => ?_
  rw [List.getElem_map, List.getElem_range, h.bytes k h2, List.getD_eq_getElem _ _ h2]

/-- The descriptor leads to the file. -/
theorem Holds.nodeFromFd (h : Holds v n t text) (hT : TreeInv v) {k : Nat} (hlt : k < vfsMaxFds)
    (ho : (v.fds k).isOpen = true) (hn : (v.fds k).inode = n) :
    fdOpen v k = true ∧ vfsNodeFromFd v k = some t := by
  have hopen : fdOpen v k = true := fdOpen_iff.mpr ⟨by omega, by omega, by simpa using ho⟩
  refine ⟨hopen, ?_⟩
  unfold vfsNodeFromFd
  rw [if_neg (by simp [hopen]), Int.toNat_natCast, hn, ← h.inode]
  exact hT.nodeGet_self h.used

/-- A step on something else. -/
theorem FileInv.keep {c : FileRun σ} (h : FileInv fs n t c) (hst : Stored fs v')
    (hsame : SameFile c.vfs v' t)
    (hfds : ∀ k, (c.vfs.fds k).isOpen = true → (c.writer = some k ∨ ∃ g, c.got k = some g) →
      v'.fds k = c.vfs.fds k) : FileInv fs n t { c with vfs := v' } where
  stored := hst
  holds := h.holds.of_same h.stored.sizes hsame
  short := h.short
  writer := by
    intro w hw
    obtain ⟨h1, h2, h3, h4, h5⟩ := h.writer w hw
    dsimp only
    rw [hfds w h2 (Or.inl hw)]
    exact ⟨h1, h2, h3, h4, h5⟩
  reader := by
    intro r g hr
    obtain ⟨h1, h2, h3⟩ := h.reader r g hr
    dsimp only
    rw [hfds r h2 (Or.inr ⟨g, hr⟩)]
    exact ⟨h1, h2, h3⟩

/-- The bytes of a file after more has been put behind them. -/
theorem getD_append (a b : List UInt8) (k : Nat) :
    (a ++ b).getD k 0 = if k < a.length then a.getD k 0 else b.getD (k - a.length) 0 := by
  rw [List.getD_eq_getElem?_getD, List.getElem?_append]
  split
  · rw [List.getD_eq_getElem?_getD]
  · rw [List.getD_eq_getElem?_getD]

/-- What a write through the writer comes to. -/
theorem FileInv.wrote {c : FileRun σ} (h : FileInv fs n t c) {w fuel : Nat} {chunk : List UInt8}
    {x : Xfer} (hw : c.writer = some w) (hlen : c.text.length + chunk.length < 2 ^ 31)
    (hdone : vfsWrite fs fuel c.vfs w (bufferOf chunk) chunk.length = .done (v', x)) :
    Wrote c.vfs v' t w (bufferOf chunk) chunk.length ∧ x.ret = chunk.length
      ∧ Stored fs v' ∧ (∀ j, (c.vfs.nodes j).used = true → j ≠ t → SameFile c.vfs v' j) := by
  obtain ⟨hlt, ho, hino, hflag, hoff⟩ := h.writer w hw
  obtain ⟨hopen, hnode⟩ := h.holds.nodeFromFd h.stored.tree.1 hlt ho hino
  obtain ⟨_, hget⟩ := vfsNodeFromFd_some hnode
  have hroomy : c.vfs.Roomy (.write w (bufferOf chunk) chunk.length) := by
    intro i _ _
    rw [Int.toNat_natCast, hoff]
    omega
  have hcases := vfsWrite_cases hdone
  have hnum := hcases.sameTree.next
  have hstored : Stored fs v' := by
    have hstep : c.vfs.step fs (fun _ _ => (0, fun _ => 0)) fuel
        (.write w (bufferOf chunk) chunk.length) = .done v' := by
      simp only [Vfs.step, hdone, Outcome.bind_done, Outcome.pure_eq]
    exact (h.stored.step hroomy hstep (by rw [hnum]; exact h.stored.tree.2)).1
  obtain ⟨base, live, bs, fl, hb⟩ := h.stored.backed
  have hroom := hroomy t hnode h.holds.file
  rw [Int.toNat_natCast] at hroom hget
  cases hcases with
  | refused hno => exact absurd h.holds.file (hno t hopen hflag hget)
  | device hi ht _ =>
      rw [Int.toNat_natCast, hget] at hi
      cases hi
      rw [h.holds.file] at ht
      exact absurd ht (by simp)
  | full _ hi _ _ hk =>
      rw [Int.toNat_natCast, hget] at hi
      cases hi
      rw [Int.toNat_natCast, u64_of_lt (show (c.vfs.fds w).offset + chunk.length < 2 ^ 64 by omega),
        u64_of_lt (by omega)] at hk
      exact absurd rfl (hb.resize hk (by omega) (by omega) 0).1
  | file _ hi _ hr =>
      rw [Int.toNat_natCast, hget] at hi
      cases hi
      rw [Int.toNat_natCast, u64_of_lt (by omega)] at hr
      obtain ⟨_, hwrote, hothers⟩ := hb.wrote h.stored.sizes (bufferOf chunk) hroom hr
      exact ⟨hwrote, toInt32_of_lt (by omega), hstored, fun j _ hj => hothers j hj⟩

theorem FileInv.write {c : FileRun σ} (h : FileInv fs n t c) {w fuel : Nat} {chunk : List UInt8}
    {x : Xfer} (hw : c.writer = some w) (hlen : c.text.length + chunk.length < 2 ^ 31)
    (hdone : vfsWrite fs fuel c.vfs w (bufferOf chunk) chunk.length = .done (v', x)) :
    FileInv fs n t { c with vfs := v', text := c.text ++ chunk } := by
  obtain ⟨hwrote, _, hstored, _⟩ := h.wrote hw hlen hdone
  obtain ⟨hlt, ho, hino, hflag, hoff⟩ := h.writer w hw
  have hplace := hwrote.place
  simp only [VFSNode.place, Prod.mk.injEq] at hplace
  obtain ⟨hu, hty, hin, _, _⟩ := hplace
  have hsize := h.holds.size
  have hother : ∀ k, k ≠ w → v'.fds k = c.vfs.fds k := fun k hk => by
    rw [hwrote.fds, Vfs.setFd_ne _ hk]
  have hself : v'.fds w = { c.vfs.fds w with offset := (c.vfs.fds w).offset + chunk.length } := by
    rw [hwrote.fds, Vfs.setFd_self]
  refine ⟨hstored, ⟨by rw [hu]; exact h.holds.used, by rw [hin]; exact h.holds.inode,
    by rw [hty]; exact h.holds.file, ?_, fun k hk => ?_⟩, ?_, fun w' hw' => ?_, fun r g hr => ?_⟩
  · dsimp only
    rw [hwrote.size, hsize, hoff, List.length_append]
    omega
  · dsimp only at hk ⊢
    rw [getD_append]
    rw [List.length_append] at hk
    split
    · next hold =>
      rw [hwrote.old k (by omega) (Or.inl (by omega))]
      exact h.holds.bytes k hold
    · next hnew =>
      have hk' : (c.vfs.fds w).offset + (k - c.text.length) = k := by omega
      have hbyte := hwrote.new (k - c.text.length) (by omega)
      rw [hk'] at hbyte
      exact hbyte
  · dsimp only
    rw [List.length_append]
    exact hlen
  · dsimp only at hw' ⊢
    rw [hw] at hw'
    cases hw'
    rw [hself, List.length_append]
    exact ⟨hlt, ho, hino, hflag, by dsimp only; omega⟩
  · dsimp only at hr ⊢
    obtain ⟨h1, h2, h3, h4, h5, h6, h7⟩ := h.reader r g hr
    have hne : r ≠ w := by
      rintro rfl
      rw [hflag] at h5
      exact absurd h5 (by simp)
    rw [hother r hne]
    exact ⟨h1, h2, h3, h4, h5, h6, h7.trans (List.prefix_append _ _)⟩

/-- What a read of the file comes to. -/
theorem Holds.read (h : Holds v n t text) (hT : TreeInv v) (hsz : SizeInv v)
    (hb : ∃ base live bs fl, Backed fs base v live bs fl) (hshort : text.length < 2 ^ 31)
    (input : DevInput) {r : Nat} (len : Nat) (hlt : r < vfsMaxFds) (ho : (v.fds r).isOpen = true)
    (hn : (v.fds r).inode = n) (hflag : hasFlag (v.fds r).flags vfsORead = true)
    (hoff : (v.fds r).offset ≤ text.length) :
    (vfsRead fs v input r len).2.ret = min len (text.length - (v.fds r).offset)
      ∧ (vfsRead fs v input r len).2.delivered = (text.drop (v.fds r).offset).take len
      ∧ (vfsRead fs v input r len).1.fds r = { v.fds r with
          offset := (v.fds r).offset + min len (text.length - (v.fds r).offset) }
      ∧ (vfsRead fs v input r len).1.nodes = v.nodes
      ∧ (vfsRead fs v input r len).1.heap = v.heap := by
  obtain ⟨_, hnode⟩ := h.nodeFromFd hT hlt ho hn
  obtain ⟨base, live, bs, fl, hback⟩ := hb
  have hdata := hback.data_lt t
  have hcap := hsz t
  have hsize := h.size
  rw [vfsRead_file fs input len hnode (by rw [h.file]; simp) hflag, Int.toNat_natCast,
    sub64_of_le (by omega) (by omega), h.size]
  split
  · next hend =>
    have hdrop : text.drop (v.fds r).offset = [] := List.drop_eq_nil_of_le (by omega)
    refine ⟨by dsimp only; omega, by rw [hdrop, List.take_nil]; rfl, ?_, rfl, rfl⟩
    rw [hend, Nat.min_zero]
    rfl
  · next hmore =>
    refine ⟨toInt32_of_lt (by omega), ?_, ?_, rfl, rfl⟩
    · unfold Xfer.delivered
      dsimp only
      refine List.ext_getElem (by simp) fun k h1 h2 => ?_
      rw [List.length_map, List.length_range] at h1
      rw [List.getElem_map, List.getElem_range, List.getElem_take, List.getElem_drop,
        u64_of_lt (by omega), Nat.add_assoc, h.bytes _ (by omega), List.getD_eq_getElem]
    · rw [Vfs.setFd_self, u64_of_lt (by omega)]

theorem FileInv.read {c : FileRun σ} (h : FileInv fs n t c) (input : DevInput) {r : Nat} (len : Nat)
    {g : List UInt8} (hg : c.got r = some g) :
    FileInv fs n t { c with
      vfs := (vfsRead fs c.vfs input r len).1
      got := c.track r (g ++ (vfsRead fs c.vfs input r len).2.delivered) } := by
  obtain ⟨hlt, ho, hino, hflag, hnw, hoff, hpre⟩ := h.reader r g hg
  have hle := hpre.length_le
  obtain ⟨_, hdel, hself, hnodes, hheap⟩ :=
    h.holds.read h.stored.tree.1 h.stored.sizes h.stored.backed
    h.short input len hlt ho hino hflag (by omega)
  have hstep : c.vfs.step fs input 0 (.read r len) = .done (vfsRead fs c.vfs input r len).1 := rfl
  have hmoves := vfsRead_moves c.vfs fs input r len
  have hnum : (vfsRead fs c.vfs input r len).1.nextInode = c.vfs.nextInode := hmoves.sameTree.next
  have hroomy : c.vfs.Roomy (.read r len) := trivial
  have hstored := (h.stored.step hroomy hstep (by rw [hnum]; exact h.stored.tree.2)).1
  have hother : ∀ k, k ≠ r → (vfsRead fs c.vfs input r len).1.fds k = c.vfs.fds k := by
    intro k hk
    rcases hmoves with hv | ⟨e, hv⟩
    · rw [hv]
    · rw [hv, Int.toNat_natCast, Vfs.setFd_ne _ hk]
  rw [hdel]
  generalize (vfsRead fs c.vfs input r len).1 = v' at *
  have hsame : SameFile c.vfs v' t := .of_eq t hnodes (by rw [hheap])
  refine ⟨hstored, h.holds.of_same h.stored.sizes hsame, h.short, fun w hw => ?_, fun k g' hk => ?_⟩
  · obtain ⟨h1, h2, h3, h4, h5⟩ := h.writer w hw
    have hne : w ≠ r := by
      rintro rfl
      rw [hnw] at h4
      exact absurd h4 (by simp)
    dsimp only
    rw [hother w hne]
    exact ⟨h1, h2, h3, h4, h5⟩
  · unfold FileRun.track at hk
    dsimp only at hk ⊢
    split at hk
    · next hkr =>
      cases hk
      subst hkr
      rw [hself]
      refine ⟨hlt, ho, hino, hflag, hnw, ?_, ?_⟩
      · rw [List.length_append, List.length_take, List.length_drop, hoff]
      · -- the next piece of the text
        obtain ⟨rest, hrest⟩ := hpre
        rw [hoff, ← hrest, List.drop_left]
        exact (List.prefix_append_right_inj g).mpr (List.take_prefix _ _)
    · next hkr =>
      rw [hother k hkr]
      exact h.reader k g' hk

/-- What opening the file without truncating it leaves. -/
theorem FileInv.opened {c : FileRun σ} (h : FileInv fs n t c) {path : CStr} {flags : Nat} {r : Int}
    (hopen : vfsOpen c.vfs path flags = .done (v', r)) (h0 : 0 ≤ r)
    (hn : (v'.fds r.toNat).inode = n) (hnt : hasFlag flags vfsOTrunc = false)
    (hnum : v'.nextInode ≤ 2 ^ 31) :
    FileInv fs n t { c with vfs := v' } ∧ r.toNat < vfsMaxFds
      ∧ (c.vfs.fds r.toNat).isOpen = false ∧ (v'.fds r.toNat).isOpen = true
      ∧ (v'.fds r.toNat).flags = flags
      ∧ (v'.fds r.toNat).offset = if hasFlag flags vfsOWrite then c.text.length else 0 := by
  have hstep : c.vfs.step fs (fun _ _ => (0, fun _ => 0)) 0 (.open path flags) = .done v' := by
    simp only [Vfs.step, hopen, Outcome.bind_done, Outcome.pure_eq]
  have hroomy : c.vfs.Roomy (.open path flags) := trivial
  have hleaves : c.vfs.Leaves (c.vfs.nodes t).inode v' (.open path flags) := fun htr =>
    absurd (hnt.symm.trans htr) (by simp)
  obtain ⟨hstored, hsame⟩ := h.stored.step hroomy hstep hnum
  have hinv : FileInv fs n t { c with vfs := v' } :=
    h.keep hstored (hsame t h.holds.used hleaves) fun k hk _ =>
      (step_effect hstep).fds hk fun fd hfd => absurd hfd (by simp [VfsOp.target])
  obtain ⟨_, v₁, _, _, _, hend⟩ := vfsOpen_cases hopen
  rcases hend with ⟨_, hneg⟩ | ⟨fd, i, inode, hfd, hi, _, rfl, hop⟩
  · omega
  obtain ⟨_, hlt, hfree⟩ := freeFd_some hfd
  rw [Int.toNat_natCast] at hn ⊢
  cases hop with
  | trunc htr _ _ => exact absurd (hnt.symm.trans htr) (by simp)
  | plain _ =>
      rw [Vfs.setFd_self] at hn ⊢
      refine ⟨hinv, hlt, hfree, rfl, rfl, ?_⟩
      -- the node that was opened is the file
      have hget : nodeGet v₁ n = some t := by
        rw [← hinv.holds.inode]
        exact hinv.stored.tree.1.nodeGet_self hinv.holds.used
      have hin : inode = n := hn
      rw [hin, hget] at hi
      cases hi
      have hsize : (v₁.nodes t).size = c.text.length := hinv.holds.size
      dsimp only
      rw [hsize, hnt]
      simp

/-- **Every step keeps the invariant.** -/
theorem FileInv.step {c c' : FileRun σ} (h : FileInv fs n t c)
    (hs : FileRun.Step fs Vfs.Roomy n c c') : FileInv fs n t c' := by
  cases hs with
  | write chunk hw hlen hdone => exact h.write hw hlen hdone
  | openRead hopen h0 hn hr hnw hnt hnum =>
      obtain ⟨h', hlt, hfree, ho, hfl, hoff⟩ := h.opened hopen h0 hn hnt hnum
      refine ⟨h'.stored, h'.holds, h'.short, h'.writer, fun k g hk => ?_⟩
      unfold FileRun.track at hk
      dsimp only at hk ⊢
      split at hk
      · next hkr =>
        cases hk
        subst hkr
        rw [hnw, if_neg (by simp)] at hoff
        exact ⟨hlt, ho, hn, by rw [hfl]; exact hr, by rw [hfl]; exact hnw, hoff, List.nil_prefix⟩
      · exact h'.reader k g hk
  | openAppend hopen h0 hn hw hnt hnum =>
      obtain ⟨h', hlt, _, ho, hfl, hoff⟩ := h.opened hopen h0 hn hnt hnum
      refine ⟨h'.stored, h'.holds, h'.short, fun w hw' => ?_, h'.reader⟩
      dsimp only at hw' ⊢
      cases hw'
      rw [hw, if_pos rfl] at hoff
      exact ⟨hlt, ho, hn, by rw [hfl]; exact hw, hoff⟩
  | read hg => exact h.read _ _ hg
  | leaveWriter => exact ⟨h.stored, h.holds, h.short, fun w hw => absurd hw (by simp), h.reader⟩
  | leaveReader r =>
      refine ⟨h.stored, h.holds, h.short, h.writer, fun k g hk => ?_⟩
      dsimp only at hk
      split at hk
      · exact absurd hk (by simp)
      · exact h.reader k g hk
  | other hdone hok hleaves hspares hnum =>
      obtain ⟨hstored, hsame⟩ := h.stored.step hok hdone hnum
      refine h.keep hstored (hsame t h.holds.used (by rw [h.holds.inode]; exact hleaves)) ?_
      intro k hk htracked
      refine (step_effect hdone).fds hk fun fd hfd hkf => ?_
      obtain ⟨hnw, hng⟩ := hspares fd hfd
      rw [hkf] at hnw hng
      rcases htracked with hw | ⟨g, hg⟩
      · exact hnw hw
      · rw [hng] at hg; exact absurd hg (by simp)

/-- The file as `vfs_open` with `VFS_O_TRUNC` leaves it. -/
theorem fileInv_start {c : FileRun σ} (h : c.Starts fs Vfs.Roomy n) : ∃ t, FileInv fs n t c := by
  obtain ⟨v, path, flags, v', r, hreach, hopen, h0, hw, htr, hnum, hn, ⟨t, ht, hfile⟩, rfl⟩ := h
  have hst := stored_reach hreach
  have hstep : v.step fs (fun _ _ => (0, fun _ => 0)) 0 (.open path flags) = .done v' := by
    simp only [Vfs.step, hopen, Outcome.bind_done, Outcome.pure_eq]
  have hroomy : v.Roomy (.open path flags) := trivial
  obtain ⟨hstored, _⟩ := hst.step hroomy hstep hnum
  obtain ⟨_, hused, hin⟩ := nodeGet_some ht
  obtain ⟨_, v₁, _, _, _, hend⟩ := vfsOpen_cases hopen
  rcases hend with ⟨_, hneg⟩ | ⟨fd, i, inode, hfd, hi, _, rfl, hop⟩
  · omega
  obtain ⟨_, hlt, _⟩ := freeFd_some hfd
  rw [Int.toNat_natCast] at hn ⊢
  have hsame := hop.sameTree
  cases hop with
  | plain hno =>
      rw [Vfs.setFd_self] at hn
      have hinode : inode = n := hn
      rw [hinode] at hi
      have hit : i = t := Option.some.inj (hi.symm.trans ht)
      rw [hit] at hno
      exact absurd ⟨htr, hfile⟩ hno
  | @trunc _ _ heap _ =>
      rw [Vfs.setFd_self] at hn
      have hinode : inode = n := hn
      obtain ⟨_, hiu, hii⟩ := nodeGet_some hi
      have hit : i = t := by
        have h1 := (hsame.fields i).1.trans hiu
        have h2 := (hsame.fields i).2.2.1.trans hii
        exact hstored.tree.1.distinct i t h1 hused (by rw [h2, hin, hinode])
      subst hit
      refine ⟨i, hstored, ⟨hused, hin, hfile, ?_, fun k hk => absurd hk (by simp)⟩,
        Nat.two_pow_pos 31, fun w hw' => ?_, fun r g hr => absurd hr (by simp)⟩
      · show ((v₁.setNode i _).nodes i).size = 0
        rw [Vfs.setNode_self]
      · dsimp only at hw' ⊢
        cases hw'
        rw [Vfs.setFd_self]
        exact ⟨hlt, rfl, hn, hw, rfl⟩

/-- A write through the writer ends, given fuel to walk the free list: it returns, or it halts the
machine for want of pages. -/
theorem FileInv.write_ends {c : FileRun σ} (h : FileInv fs n t c) {w : Nat} (chunk : List UInt8)
    (hw : c.writer = some w) (hlen : c.text.length + chunk.length < 2 ^ 31) :
    ∃ enough, ∀ fuel, enough ≤ fuel →
      (vfsWrite fs fuel c.vfs w (bufferOf chunk) chunk.length).Ends := by
  obtain ⟨hlt, ho, hino, hflag, hoff⟩ := h.writer w hw
  obtain ⟨hopen, hnode⟩ := h.holds.nodeFromFd h.stored.tree.1 hlt ho hino
  obtain ⟨_, hget⟩ := vfsNodeFromFd_some hnode
  obtain ⟨base, live, bs, fl, hb⟩ := h.stored.backed
  refine ⟨fl.length + 2, fun fuel hfuel => ?_⟩
  rw [Int.toNat_natCast] at hget
  have hkr : (krealloc fs.toPager fuel c.vfs.heap (c.vfs.nodes t).data
      (u64 (u64 ((c.vfs.fds w).offset + chunk.length) + 256))).Ends := by
    rw [u64_of_lt (show (c.vfs.fds w).offset + chunk.length < 2 ^ 64 by omega),
      u64_of_lt (by omega)]
    rcases hb.owned t with ⟨h0, _⟩ | hm
    · rw [h0, krealloc, if_pos rfl]
      exact (kmalloc_spec fuel hb.inv.heap hb.pos hb.inv.room (by omega) (by omega)).2 hfuel
    · obtain ⟨b, hbm, hu, he, _⟩ := hb.inv.owns.owned _ hm
      dsimp only at he
      rw [he]
      exact (krealloc_spec fuel hb.inv.heap hb.pos hb.inv.room hbm hu (by omega) (by omega)).2 hfuel
  unfold vfsWrite
  rw [if_neg (by simp [hopen]), Int.toNat_natCast, if_neg (by simp [hflag]), hget]
  dsimp only
  rw [if_neg (by rw [h.holds.file]; simp), if_neg (by rw [h.holds.file]; simp)]
  split
  · refine hkr.bind fun r => ?_
    split
    · exact Outcome.ends_done _
    · exact Outcome.ends_done _
  · exact Outcome.ends_done _

end Inv

/-- **A file holds what was written to it.** In every run on one file, with one writer at a time and
with calls on other files whose ends do not wrap: the file's bytes are the chunks in order; what a
reader got is a beginning of them and its next read delivers the next `len` bytes, or zero at the
end; a write through the writer ends and appends; and no write reaches a file other than its own. -/
theorem FileRun.roomy_contents {fs : FrameService σ} {n : Nat} {c : FileRun σ}
    (h : Run.Reach (FileRun.Starts fs Vfs.Roomy n) (FileRun.Step fs Vfs.Roomy n) c) :
    ∃ t, nodeGet c.vfs n = some t ∧ fileBytes c.vfs t = c.text
      ∧ (∀ r g, c.got r = some g → g <+: c.text ∧ ∀ input len,
          (vfsRead fs c.vfs input r len).2.ret = min len (c.text.length - g.length)
          ∧ (vfsRead fs c.vfs input r len).2.delivered = (c.text.drop g.length).take len)
      ∧ (∀ w chunk, c.writer = some w → c.text.length + chunk.length < 2 ^ 31 →
          (∃ enough, ∀ fuel, enough ≤ fuel →
            (vfsWrite fs fuel c.vfs w (bufferOf chunk) chunk.length).Ends)
          ∧ ∀ fuel v' x, vfsWrite fs fuel c.vfs w (bufferOf chunk) chunk.length = .done (v', x) →
              x.ret = chunk.length ∧ fileBytes v' t = c.text ++ chunk)
      ∧ ∀ fd buf len fuel v' x, c.vfs.Roomy (.write fd buf len) →
          vfsWrite fs fuel c.vfs fd buf len = .done (v', x) → ∀ j, (c.vfs.nodes j).used = true →
          (c.vfs.fds fd.toNat).inode ≠ (c.vfs.nodes j).inode →
          (v'.nodes j).size = (c.vfs.nodes j).size ∧ fileBytes v' j = fileBytes c.vfs j := by
  obtain ⟨t, hinv⟩ : ∃ t, FileInv fs n t c := h.invariant (fun _ => fileInv_start)
    fun s s' hs hstep => by
      obtain ⟨t, ht⟩ := hs
      exact ⟨t, ht.step hstep⟩
  have hst := hinv.stored
  refine ⟨t, ?_, hinv.holds.fileBytes, fun r g hg => ?_, fun w chunk hw hlen => ?_, ?_⟩
  · rw [← hinv.holds.inode]
    exact hst.tree.1.nodeGet_self hinv.holds.used
  · obtain ⟨hlt, ho, hino, hflag, _, hoff, hpre⟩ := hinv.reader r g hg
    have hle := hpre.length_le
    refine ⟨hpre, fun input len => ?_⟩
    obtain ⟨hret, hdel, _⟩ := hinv.holds.read hst.tree.1 hst.sizes hst.backed hinv.short input len
      hlt ho
      hino hflag (by omega)
    rw [hoff] at hret hdel
    exact ⟨hret, hdel⟩
  · refine ⟨hinv.write_ends chunk hw hlen, fun fuel v' x hdone => ?_⟩
    exact ⟨(hinv.wrote hw hlen hdone).2.1, (hinv.write hw hlen hdone).holds.fileBytes⟩
  · intro fd buf len fuel v' x hroomy hdone j hj hne
    obtain ⟨base, live, bs, fl, hb⟩ := hst.backed
    have heff : Effect fs fuel c.vfs (.write fd buf len) v' := .written (vfsWrite_cases hdone)
    obtain ⟨hn, hbytes⟩ := (hb.effect hst.sizes heff hroomy).2 j hj fun _ => hne
    refine ⟨by rw [hn], ?_⟩
    unfold fileBytes
    rw [hn]
    refine List.map_congr_left fun k hk => ?_
    have := hst.sizes j
    exact hbytes k (by rw [List.mem_range] at hk; omega)

/-! ## Two files -/

/-- No condition on the calls. -/
def anyCall (_ : Vfs Nat) (_ : VfsOp) : Prop := True

/-- `/tmp/a` is opened to be written, `/tmp/b` gets ten bytes and then `/tmp/a` one: its block lies
behind the other's. A last write to `/tmp/b` has a length that wraps its end around to five. -/
theorem two_files : ∃ (c : Client Nat) (v₁ v₂ v₃ v₄ v₅ : Vfs Nat) (x : Xfer),
    Client.Reachable Client.zeroedFrames 0xFFFFC00000000000 (4 * 4096) c
      ∧ vfsOpen (vfsInit 0 shmInit c.heap) (cstr "/tmp/a") 14 = .done (v₁, 3)
      ∧ v₁.step zeroedService noInput 0 (.open (cstr "/tmp/b") 6) = .done v₂
      ∧ v₂.step zeroedService noInput 3 (.write 4 (fun _ => 0x42) 10) = .done v₃
      ∧ vfsWrite zeroedService 3 v₃ 3 (bufferOf [0x41]) 1 = .done (v₄, x)
      ∧ v₄.step zeroedService noInput 3 (.write 4 (fun _ => 0xFF) (2 ^ 64 - 5)) = .done v₅
      ∧ (v₁.nextInode ≤ 2 ^ 31 ∧ (v₁.fds 3).inode = 9 ∧ nodeGet v₁ 9 = some 9
        ∧ (v₁.nodes 9).type = .file)
      ∧ (v₂.nextInode ≤ 2 ^ 31 ∧ (v₂.fds 4).inode = 10 ∧ (v₂.fds 4).offset = 0)
      ∧ v₃.nextInode ≤ 2 ^ 31 ∧ (v₄.fds 4).inode = 10
      ∧ v₅.nextInode ≤ 2 ^ 31 ∧ nodeGet v₅ 9 = some 9 ∧ fileBytes v₅ 9 = [0xFF] := by
  have hgood : Client.GoodInit Client.zeroedFrames ⟨fun _ => 0, 0, 0, 64⟩ 0xFFFFC00000000000
      (4 * 4096) :=
    ⟨by decide, by decide, by decide, by decide, by decide⟩
  have hrun : (do
      let heap ← heapInit Client.zeroedFrames ⟨fun _ => 0, 0, 0, 64⟩ 0xFFFFC00000000000 (4 * 4096)
      let r ← vfsOpen (vfsInit 0 shmInit heap) (cstr "/tmp/a") 14
      let v₂ ← r.1.step zeroedService noInput 0 (.open (cstr "/tmp/b") 6)
      let v₃ ← v₂.step zeroedService noInput 3 (.write 4 (fun _ => 0x42) 10)
      let r₄ ← vfsWrite zeroedService 3 v₃ 3 (bufferOf [0x41]) 1
      let v₅ ← r₄.1.step zeroedService noInput 3 (.write 4 (fun _ => 0xFF) (2 ^ 64 - 5))
      return decide (r.2 = 3
        ∧ (r.1.nextInode ≤ 2 ^ 31 ∧ (r.1.fds 3).inode = 9 ∧ nodeGet r.1 9 = some 9
          ∧ (r.1.nodes 9).type = VFSNodeType.file)
        ∧ (v₂.nextInode ≤ 2 ^ 31 ∧ (v₂.fds 4).inode = 10 ∧ (v₂.fds 4).offset = 0)
        ∧ v₃.nextInode ≤ 2 ^ 31 ∧ (r₄.1.fds 4).inode = 10
        ∧ v₅.nextInode ≤ 2 ^ 31 ∧ nodeGet v₅ 9 = some 9 ∧ fileBytes v₅ 9 = [0xFF]))
            = .done true := by
    decide +kernel
  obtain ⟨heap, hheap, hrun⟩ := Outcome.bind_eq_done hrun
  obtain ⟨⟨v₁, r⟩, h₁, hrun⟩ := Outcome.bind_eq_done hrun
  obtain ⟨v₂, h₂, hrun⟩ := Outcome.bind_eq_done hrun
  obtain ⟨v₃, h₃, hrun⟩ := Outcome.bind_eq_done hrun
  obtain ⟨⟨v₄, x⟩, h₄, hrun⟩ := Outcome.bind_eq_done hrun
  obtain ⟨v₅, h₅, hrun⟩ := Outcome.bind_eq_done hrun
  obtain ⟨hr, hfacts⟩ := of_decide_eq_true (Outcome.done.inj hrun)
  cases hr
  exact ⟨⟨heap, []⟩, v₁, v₂, v₃, v₄, v₅, x, .init hgood hheap, h₁, h₂, h₃, h₄, h₅, hfacts⟩

/-- What `two_files` does before its last write, under any condition its calls meet. -/
theorem two_files_run (ok : Vfs Nat → VfsOp → Prop)
    (hopen : ∀ v path flags, ok v (.open path flags))
    (hwrite : ∀ v buf, (v.fds 4).offset = 0 → ok v (.write 4 buf 10)) :
    ∃ (c : FileRun Nat) (v₅ : Vfs Nat),
      Run.Reach (FileRun.Starts zeroedService ok 9) (FileRun.Step zeroedService ok 9) c
        ∧ c.text = [0x41] ∧ c.writer = some 3 ∧ c.got = (fun _ => none)
        ∧ c.vfs.step zeroedService noInput 3 (.write 4 (fun _ => 0xFF) (2 ^ 64 - 5)) = .done v₅
        ∧ (c.vfs.fds 4).inode = 10 ∧ v₅.nextInode ≤ 2 ^ 31 ∧ nodeGet v₅ 9 = some 9
        ∧ fileBytes v₅ 9 = [0xFF] := by
  obtain ⟨c, v₁, v₂, v₃, v₄, v₅, x, hc, h₁, h₂, h₃, h₄, h₅, ⟨hn1, hi1, hg1, ht1⟩, ⟨hn2, hi2, ho2⟩,
    hn3, hi4, hrest⟩ := two_files
  have hstart : FileRun.Starts zeroedService ok 9 ⟨v₁, [], some 3, fun _ => none⟩ :=
    ⟨_, _, 14, v₁, 3, .start ⟨0, shmInit, _, _, c, by decide, hc, Or.inl rfl⟩,
      h₁, by decide, by decide,
      by decide, hn1, hi1, ⟨9, hg1, ht1⟩, rfl⟩
  have hopened : FileRun.Step zeroedService ok 9 ⟨v₁, [], some 3, fun _ => none⟩
      ⟨v₂, [], some 3, fun _ => none⟩ :=
    .other h₂ (hopen _ _ _) (fun ht => absurd ht (by decide))
      (fun fd hfd => absurd hfd (by simp [VfsOp.target]))
      hn2
  have hother : FileRun.Step zeroedService ok 9 ⟨v₂, [], some 3, fun _ => none⟩
      ⟨v₃, [], some 3, fun _ => none⟩ := by
    refine .other h₃ (hwrite _ _ ho2) (fun _ => ?_) (fun fd hfd => ?_) hn3
    · show (v₂.fds 4).inode ≠ 9
      rw [hi2]; decide
    · cases hfd
      exact ⟨fun hc => absurd (Option.some.inj hc) (by decide), rfl⟩
  have hlen : ([] : List UInt8).length + [0x41].length < 2 ^ 31 := by decide
  have hwritten : FileRun.Step zeroedService ok 9 ⟨v₃, [], some 3, fun _ => none⟩
      ⟨v₄, [0x41], some 3, fun _ => none⟩ :=
    .write [0x41] rfl hlen h₄
  exact ⟨_, v₅, .next (.next (.next (.start hstart) hopened) hother) hwritten, rfl, rfl, rfl, h₅,
    hi4,
    hrest⟩

theorem FileRun.roomy_contents_two_files : ∃ c : FileRun Nat,
    Run.Reach (FileRun.Starts zeroedService Vfs.Roomy 9) (FileRun.Step zeroedService Vfs.Roomy 9) c
      ∧ c.text = [0x41] ∧ ∃ t, fileBytes c.vfs t = [0x41] := by
  obtain ⟨c, _, hreach, htext, _⟩ := two_files_run Vfs.Roomy (fun _ _ _ => trivial)
    (fun v buf ho i _ _ => by show (v.fds 4).offset + 10 + 256 + 32 + 2 * 4096 < 2 ^ 64; omega)
  obtain ⟨t, _, hbytes, _⟩ := FileRun.roomy_contents hreach
  exact ⟨c, hreach, htext, t, by rw [hbytes, htext]⟩

/-- **A write to one file overwrites another**: with `/tmp/a` holding one byte, a write of
`2 ^ 64 - 5` bytes at offset ten of `/tmp/b` is taken to end at five, needs no more room, and runs
over `/tmp/a`. -/
theorem FileRun.wrapped_write_overruns : ∃ c : FileRun Nat,
    Run.Reach (FileRun.Starts zeroedService anyCall 9) (FileRun.Step zeroedService anyCall 9) c
      ∧ c.text = [0x41] ∧ nodeGet c.vfs 9 = some 9 ∧ fileBytes c.vfs 9 = [0xFF] := by
  obtain ⟨c, v₅, hreach, htext, hw, hg, hstep, hin, hnum, hget, hbytes⟩ :=
    two_files_run anyCall (fun _ _ _ => trivial) (fun _ _ _ => trivial)
  refine ⟨{ c with vfs := v₅ }, .next hreach
    (.other hstep trivial (fun _ => ?_) (fun fd hfd => ?_) hnum),
    htext, hget, hbytes⟩
  · show (c.vfs.fds 4).inode ≠ 9
    rw [hin]; decide
  · cases hfd
    rw [hw, hg]
    exact ⟨by decide, rfl⟩

end VnlKernel
