import VnlKernel.Proof.VfsFds

/-!
# What a descriptor denotes

A descriptor holds an inode number; the node with that number is searched for at every
call, in a table whose slots are used again. Beside the table runs the slot of the node
that each descriptor was opened on, for as long as that node lives: it is dropped in the
very call that empties the slot.

Numbers are given out once, so the search finds that slot or, once the node is gone,
nothing.
-/

namespace VnlKernel

open ByteMem Bits

variable {σ : Type}

/-- The slot of the node that `vfs_open` resolves, or creates in the slot it takes. -/
def openTarget (v : Vfs σ) (path : CStr) (flags : Nat) : Option Nat :=
  match openLookup v path flags with
  | (v, .inl inode) => if inode < 0 then nodeAlloc v else nodeGet v (toU32 inode)
  | (_, .inr _) => none

/-- The node an opening is about. -/
def Vfs.target (v : Vfs σ) : VfsOp → Option Nat
  | .open path flags => openTarget v path flags
  | .openStd path _ _ => nodeGet v (toU32 (vfsResolve v path))
  | _ => none

/-- The file system, and for every descriptor the slot of the node it was opened on, until that node
is unlinked. -/
structure FdRun (σ : Type) where
  vfs : Vfs σ
  node : Nat → Option Nat

namespace FdRun

/-- Booted; no descriptor is open yet. -/
inductive Starts : FdRun σ → Prop
  | boot {v : Vfs σ} (h : v.Starts) (node : Nat → Option Nat) : Starts ⟨v, node⟩

/-- The slots after a call: a node is gone when its slot is no longer in use. -/
def after (c : FdRun σ) (op : VfsOp) (v' : Vfs σ) (r : Int) : FdRun σ :=
  ⟨v', fun k => (op.passOn r (c.vfs.target op) c.node k).filter fun i => (v'.nodes i).used⟩

/-- Any call, with fewer than `2 ^ 31` nodes ever created. -/
def Step (fs : FrameService σ) (c c' : FdRun σ) : Prop :=
  ∃ op input fuel v' r, c.vfs.call fs input fuel op = .done (v', r) ∧ v'.nextInode ≤ 2 ^ 31
    ∧ c' = c.after op v' r

theorem Step.of_call {fs : FrameService σ} {v v' : Vfs σ} {node : Nat → Option Nat} {op : VfsOp}
    {input : DevInput} {fuel : Nat} {r : Int} (hcall : v.call fs input fuel op = .done (v', r))
    (hnum : v'.nextInode ≤ 2 ^ 31) : Step fs ⟨v, node⟩ (FdRun.after ⟨v, node⟩ op v' r) :=
  ⟨op, input, fuel, v', r, hcall, hnum, rfl⟩

end FdRun

/-! ## Acting on one node -/

/-- The table with nothing in it but slot `i`. -/
def Vfs.alone (v : Vfs σ) (i : Nat) : Vfs σ :=
  { v with nodes := fun j => if j = i then v.nodes i else .zero }

/-- The call sees no other node than the one in slot `i`, and leaves all others as they are. -/
def ActsIn {α : Type} (i : Nat) (f : Vfs σ → Outcome (Vfs σ × α)) (v : Vfs σ) : Prop :=
  (f (v.alone i) = do
    let (v', a) ← f v
    return (v'.alone i, a))
  ∧ ∀ v' a, f v = .done (v', a) → ∀ j, j ≠ i → v'.nodes j = v.nodes j

/-- **All calls on `fd` act on the node in slot `i`.** -/
structure Denotes (fs : FrameService σ) (v : Vfs σ) (fd : Int) (i : Nat) : Prop where
  nodeFromFd : vfsNodeFromFd v fd = some i
  read : ∀ input len, ActsIn i (fun v => .done (vfsRead fs v input fd len)) v
  write : ∀ fuel buf len, ActsIn i (fun v => vfsWrite fs fuel v fd buf len) v
  ftruncate : ∀ fuel length, ActsIn i (fun v => vfsFtruncate fs fuel v fd length) v
  lseek : ∀ offset whence, ActsIn i (fun v => .done (vfsLseek v fd offset whence)) v
  ioctl : ∀ fb request arg, ActsIn i (fun v => .done (v, vfsIoctl fb v fd request arg)) v

/-- **All calls on `fd` fail** and change nothing. -/
structure Dangles (fs : FrameService σ) (v : Vfs σ) (fd : Int) : Prop where
  nodeFromFd : vfsNodeFromFd v fd = none
  read : ∀ input len, vfsRead fs v input fd len = (v, .fail (-1))
  write : ∀ fuel buf len, vfsWrite fs fuel v fd buf len = .done (v, .fail (-1))
  ftruncate : ∀ fuel length, vfsFtruncate fs fuel v fd length = .done (v, -ebadf)
  lseek : ∀ offset whence, vfsLseek v fd offset whence = (v, -ebadf)
  ioctl : ∀ fb request arg, vfsIoctl fb v fd request arg = (-enotty, .untouched)

section Alone

variable {v : Vfs σ} {i : Nat}

@[simp] theorem Vfs.alone_self : (v.alone i).nodes i = v.nodes i := if_pos rfl

@[simp] theorem Vfs.alone_fds : (v.alone i).fds = v.fds := rfl

@[simp] theorem Vfs.alone_heap : (v.alone i).heap = v.heap := rfl

@[simp] theorem Vfs.alone_shm : (v.alone i).shm = v.shm := rfl

theorem Vfs.alone_setNode (n : VFSNode) : (v.alone i).setNode i n = (v.setNode i n).alone i := by
  unfold Vfs.alone Vfs.setNode
  dsimp only
  congr 1
  funext j
  split
  · rw [if_pos rfl]
  · rfl

theorem putBytes_alone (fd : Nat) (e : FDEntry) (buf : Nat → UInt8) (len : Nat) :
    putBytes (v.alone i) i fd e buf len = (putBytes v i fd e buf len).alone i := by
  unfold putBytes
  simp only [Vfs.alone_self, Vfs.alone_heap]
  split
  · exact Vfs.alone_setNode (v := Vfs.setFd { v with heap := { v.heap with mem := _ } } fd _) _
  · rfl

theorem alone_nodeGet {inode : Nat} (h : nodeGet v inode = some i) :
    nodeGet (v.alone i) inode = some i := by
  obtain ⟨hlt, hused, hinode⟩ := nodeGet_some h
  refine Scan.first_unique hlt (by simp [hused, hinode]) fun j _ hj => ?_
  by_contra hne
  simp [Vfs.alone, hne, VFSNode.zero] at hj

theorem alone_nodeFromFd {fd : Int} (h : vfsNodeFromFd v fd = some i) :
    vfsNodeFromFd (v.alone i) fd = some i := by
  obtain ⟨ho, hget⟩ := vfsNodeFromFd_some h
  unfold vfsNodeFromFd
  rw [if_neg (by simpa [fdOpen] using ho)]
  exact alone_nodeGet hget

end Alone

section Acts

variable {fs : FrameService σ} {v : Vfs σ} {fd : Int} {i : Nat}

theorem read_actsIn (h : vfsNodeFromFd v fd = some i) (input : DevInput) (len : Nat) :
    ActsIn i (fun v => .done (vfsRead fs v input fd len)) v := by
  obtain ⟨ho, hget⟩ := vfsNodeFromFd_some h
  constructor
  · have ho' : fdOpen (v.alone i) fd = true := ho
    simp only [Outcome.bind_done, Outcome.pure_eq]
    unfold vfsRead
    simp only [ho, ho', hget, alone_nodeGet hget, Vfs.alone_fds, Vfs.alone_self, Bool.not_true,
      Bool.false_eq_true, if_false]
    split
    · rfl
    · split
      · rfl
      · split
        · rfl
        · rfl
  · intro v' a hdone j _
    have hv : (vfsRead fs v input fd len).1 = v' := congrArg Prod.fst (Outcome.done.inj hdone)
    rcases vfsRead_moves v fs input fd len with hm | ⟨e, hm⟩
    · rw [← hv, hm]
    · rw [← hv, hm]; rfl

theorem lseek_actsIn (h : vfsNodeFromFd v fd = some i) (offset whence : Int) :
    ActsIn i (fun v => .done (vfsLseek v fd offset whence)) v := by
  constructor
  · simp only [Outcome.bind_done, Outcome.pure_eq]
    unfold vfsLseek
    simp only [h, alone_nodeFromFd h, Vfs.alone_fds, Vfs.alone_self]
    split
    · rfl
    · generalize (if whence = 0 then _ else _ : Option Int) = target
      cases target with
      | none => rfl
      | some pos =>
          dsimp only
          split
          · rfl
          · rfl
  · intro v' a hdone j _
    have hv : (vfsLseek v fd offset whence).1 = v' := congrArg Prod.fst (Outcome.done.inj hdone)
    rcases vfsLseek_moves v fd offset whence with hm | ⟨e, hm⟩
    · rw [← hv, hm]
    · rw [← hv, hm]; rfl

theorem ioctl_actsIn (h : vfsNodeFromFd v fd = some i) (fb : Option FbRegion) (request arg : Nat) :
    ActsIn i (fun v => .done (v, vfsIoctl fb v fd request arg)) v := by
  obtain ⟨ho, hget⟩ := vfsNodeFromFd_some h
  constructor
  · have ho' : fdOpen (v.alone i) fd = true := ho
    simp only [Outcome.bind_done, Outcome.pure_eq]
    unfold vfsIoctl
    simp only [ho, ho', hget, alone_nodeGet hget, Vfs.alone_fds, Vfs.alone_self]
  · intro v' a hdone j _
    cases hdone
    rfl

theorem devfsChrWrite_alone (n : VFSNode) (buf : Nat → UInt8) (len off : Nat) :
    devfsChrWrite fs (v.alone i) n buf len off = ((devfsChrWrite fs v n buf len off).1.alone i,
      (devfsChrWrite fs v n buf len off).2) := by
  unfold devfsChrWrite
  simp only [Vfs.alone_heap, Vfs.alone_shm]
  split
  · rfl
  · split
    · rfl
    · split
      · rfl
      · rfl

/-- Nodes other than the one that the descriptor leads to. -/
theorem Written.others {fuel : Nat} {buf : Nat → UInt8} {len : Nat} {x : Xfer} {v' : Vfs σ}
    (h : Written fs fuel v fd buf len v' x) (hi : nodeGet v (v.fds fd.toNat).inode = some i)
    {j : Nat}
    (hj : j ≠ i) : v'.nodes j = v.nodes j := by
  cases h with
  | refused _ => rfl
  | device _ _ _ => rfl
  | full _ _ _ _ _ => rfl
  | file _ hi' _ hroom =>
      rw [hi] at hi'
      cases hi'
      rw [(putBytes_tables _ _ _ _ _).2.2.1 j hj]
      cases hroom with
      | fits _ => rfl
      | grown _ _ _ => exact Vfs.setNode_ne _ hj

theorem write_actsIn (h : vfsNodeFromFd v fd = some i) (fuel : Nat) (buf : Nat → UInt8)
    (len : Nat) :
    ActsIn i (fun v => vfsWrite fs fuel v fd buf len) v := by
  obtain ⟨ho, hget⟩ := vfsNodeFromFd_some h
  constructor
  · have ho' : fdOpen (v.alone i) fd = true := ho
    dsimp only
    unfold vfsWrite
    simp only [ho, ho', hget, alone_nodeGet hget, Vfs.alone_fds, Vfs.alone_self, Vfs.alone_heap,
      devfsChrWrite_alone, Bool.not_true, Bool.false_eq_true, if_false]
    split
    · rfl
    · split
      · rfl
      · split
        · rfl
        · split
          · rw [Outcome.bind_assoc]
            refine Outcome.bind_congr fun x hx => ?_
            by_cases h0 : x.2 = 0
            · rw [if_pos h0, if_pos h0]; rfl
            · rw [if_neg h0, if_neg h0]
              have hput := putBytes_alone (v := refill v i x.1 x.2
                (u64 (u64 ((v.fds fd.toNat).offset + len) + 256)) (v.nodes i).size)
                  (i := i) fd.toNat
                (v.fds fd.toNat) buf len
              unfold refill at hput
              rw [← Vfs.alone_setNode] at hput
              exact congrArg (fun w => Outcome.done (w,
                Xfer.mk (toInt32 len) (v.fds fd.toNat).offset len buf)) hput
          · exact congrArg (fun w => Outcome.done (w,
              Xfer.mk (toInt32 len) (v.fds fd.toNat).offset len buf))
                (putBytes_alone fd.toNat (v.fds fd.toNat) buf len)
  · intro v' a hdone j hj
    exact (vfsWrite_cases hdone).others hget hj

theorem ftruncate_actsIn (h : vfsNodeFromFd v fd = some i) (fuel : Nat) (length : Int) :
    ActsIn i (fun v => vfsFtruncate fs fuel v fd length) v := by
  constructor
  · dsimp only
    unfold vfsFtruncate
    simp only [h, alone_nodeFromFd h, Vfs.alone_self, Vfs.alone_heap, Vfs.alone_shm]
    split
    · rfl
    · split
      · split
        · rfl
        · split
          · rw [Outcome.bind_assoc]
            refine Outcome.bind_congr fun x hx => ?_
            by_cases h0 : x.2 = 0
            · rw [if_pos h0, if_pos h0]; rfl
            · rw [if_neg h0, if_neg h0]
              exact congrArg (fun w => Outcome.done (w, (0 : Int)))
                (Vfs.alone_setNode (v := { v with heap := x.1 })
                  { v.nodes i with data := x.2, capacity := _, size := toU64 length })
          · exact congrArg (fun w => Outcome.done (w, (0 : Int)))
              (Vfs.alone_setNode { v.nodes i with size := toU64 length })
      · rfl
  · intro v' a hdone j hj
    cases vfsFtruncate_cases hdone with
    | refused => rfl
    | shm _ => rfl
    | full _ _ _ _ _ => rfl
    | grown hi _ _ _ _ _ =>
        rw [h] at hi
        cases hi
        exact Vfs.setNode_ne _ hj
    | fits hi _ _ _ =>
        rw [h] at hi
        cases hi
        exact Vfs.setNode_ne _ hj

theorem denotes_of_nodeFromFd (h : vfsNodeFromFd v fd = some i) : Denotes fs v fd i where
  nodeFromFd := h
  read := read_actsIn h
  write := write_actsIn h
  ftruncate := ftruncate_actsIn h
  lseek := lseek_actsIn h
  ioctl := ioctl_actsIn h

theorem dangles_of_nodeFromFd (ho : fdOpen v fd = true) (h : vfsNodeFromFd v fd = none) :
    Dangles fs v fd where
  nodeFromFd := h
  read := by
    intro input len
    unfold vfsNodeFromFd at h
    rw [if_neg (by simp [ho])] at h
    unfold vfsRead
    simp only [h, ho, Bool.not_true, Bool.false_eq_true, ite_self]
  write := by
    intro fuel buf len
    unfold vfsNodeFromFd at h
    rw [if_neg (by simp [ho])] at h
    unfold vfsWrite
    simp only [h, ho, Bool.not_true, Bool.false_eq_true, ite_self]
  ftruncate := by
    intro fuel length
    unfold vfsFtruncate
    rw [h]
  lseek := by
    intro offset whence
    unfold vfsLseek
    rw [h]
  ioctl := by
    intro fb request arg
    unfold vfsNodeFromFd at h
    rw [if_neg (by simp [ho])] at h
    unfold vfsIoctl
    simp only [h, ho, Bool.not_true, Bool.false_eq_true, if_false]

end Acts

/-! ## Numbers are given out once -/

section Numbers

variable {v v' : Vfs σ}

/-- A number that was given out before is carried by the nodes that carried it. -/
theorem Created.old {path : CStr} {k : Nat} (hc : Created path k v v')
    (hnum : v.nextInode + k < 2 ^ 32)
    (hT : TreeInv v) {j : Nat} (hused : (v'.nodes j).used = true)
    (hold : (v'.nodes j).inode < v.nextInode) : v'.nodes j = v.nodes j := by
  induction hc with
  | none v => rfl
  | shm t _ ih => exact ih hnum hT hused hold
  | @node k v v₁ v₂ parent leaf type major minor inode hc _ _ _ hcreate ih =>
      obtain ⟨_, hn⟩ := hT.created hc (by omega)
      obtain ⟨p, i, _, _, _, _, rfl⟩ := createNode_some hcreate
      by_cases hj : j = i
      · rw [hj, show (addNode v₁ i _).nodes i = _ from Vfs.setNode_self _] at hold
        exact absurd hold (by show ¬ v₁.nextInode < v.nextInode; omega)
      · rw [show (addNode v₁ i _).nodes j = _ from Vfs.setNode_ne _ hj] at hused hold ⊢
        exact ih (by omega) hT hused hold

theorem Created.keeps {path : CStr} {k : Nat} (hc : Created path k v v') {j : Nat}
    (hused : (v.nodes j).used = true) : v'.nodes j = v.nodes j := by
  induction hc with
  | none v => rfl
  | shm t _ ih => exact ih hused
  | @node k v v₁ v₂ parent leaf type major minor inode hc _ _ _ hcreate ih =>
      obtain ⟨p, i, _, _, hi, _, rfl⟩ := createNode_some hcreate
      have hj : j ≠ i := by
        rintro rfl
        rw [← ih hused, (nodeAlloc_some hi).2] at hused
        exact absurd hused (by simp)
      rw [show (addNode v₁ i _).nodes j = _ from Vfs.setNode_ne _ hj]
      exact ih hused

/-- What a call does to the numbers: none goes back, and a node that has an old number after the
call had it before. -/
theorem TreeEdit.numbers {path : CStr} (he : TreeEdit path v v') (hT : TreeOk v) :
    v.nextInode ≤ v'.nextInode ∧ ∀ j, (v'.nodes j).used = true → (v'.nodes j).inode < v.nextInode →
      (v.nodes j).used = true ∧ (v.nodes j).inode = (v'.nodes j).inode := by
  obtain ⟨hT, hnum⟩ := hT
  cases he with
  | same hs =>
      refine ⟨by rw [hs.next], fun j hj _ => ?_⟩
      obtain ⟨h1, _, h3, _⟩ := hs.fields j
      exact ⟨h1 ▸ hj, h3.symm⟩
  | created hk hc hs =>
      obtain ⟨_, hn⟩ := hT.created hc (by omega)
      refine ⟨by rw [hs.next]; omega, fun j hj hold => ?_⟩
      obtain ⟨h1, _, h3, _⟩ := hs.fields j
      rw [h1] at hj
      rw [h3] at hold
      have hsame := hc.old (by omega) hT hj hold
      rw [h3, ← hsame]
      exact ⟨hj, rfl⟩
  | @removed i _ _ _ _ hs =>
      refine ⟨by rw [hs.next]; rfl, fun j hj _ => ?_⟩
      obtain ⟨h1, _, h3, _⟩ := hs.fields j
      have hji : j ≠ i := by
        rintro rfl
        rw [h1, Vfs.setNode_self] at hj
        exact absurd hj (by simp [VFSNode.zero])
      rw [Vfs.setNode_ne _ hji] at h1 h3
      exact ⟨h1 ▸ hj, h3.symm⟩

/-- A node that is still there after a call has the number it had. -/
theorem TreeEdit.stays {path : CStr} (he : TreeEdit path v v') {j : Nat}
    (hused : (v.nodes j).used = true) (hused' : (v'.nodes j).used = true) :
    (v'.nodes j).inode = (v.nodes j).inode := by
  cases he with
  | same hs => exact (hs.fields j).2.2.1
  | created _ hc hs => rw [(hs.fields j).2.2.1, hc.keeps hused]
  | @removed i _ _ _ _ hs =>
      obtain ⟨h1, _, h3, _⟩ := hs.fields j
      have hji : j ≠ i := by
        rintro rfl
        rw [h1, Vfs.setNode_self] at hused'
        exact absurd hused' (by simp [VFSNode.zero])
      rw [h3, Vfs.setNode_ne _ hji]

end Numbers

/-! ## Openings -/

section Openings

variable {v v' : Vfs σ} {path : CStr} {flags : Nat} {r : Int}

theorem openCreate_error {n e : Int} (h : openCreate v path flags n = (v', .inr e)) : e < 0 := by
  unfold openCreate at h
  split at h
  · split at h
    · cases h; omega
    · dsimp only at h
      split at h
      · cases h; omega
      · split at h
        · cases h; omega
        · exact absurd h (by simp)
  · exact absurd h (by simp)

/-- A file that is created is found under its number, in the slot it was given. -/
theorem openCreate_made {n : Int} (hT : TreeInv v) (hnum : v.nextInode + 1 < 2 ^ 32)
    (h : openCreate v path flags r = (v', .inl n)) (hr : r < 0) :
    ∃ i, nodeAlloc v = some i ∧ nodeGet v' (toU32 n) = some i := by
  unfold openCreate at h
  rw [if_pos hr] at h
  split at h
  · exact absurd h (by simp)
  · dsimp only at h
    split at h
    · exact absurd h (by simp)
    · split at h
      · exact absurd h (by simp)
      · next w m hcreate =>
        cases h
        obtain ⟨p, i, hp, hd, hi, rfl, rfl⟩ := createNode_some hcreate
        obtain ⟨_, hpu, hpi⟩ := nodeGet_some hp
        have hT' := hT.add (resolveParent v path).2 .file 0 0 hpu hd hi hnum
        rw [hpi] at hT'
        generalize hnode : freshNode v.nextInode (toU32 (resolveParent v path).1)
          (resolveParent v path).2 .file 0 0 = node at hT' ⊢
        have hself : (addNode v i node).nodes i = node := Vfs.setNode_self _
        have hget := hT'.nodeGet_self (i := i) (by rw [hself, ← hnode]; rfl)
        rw [hself, show node.inode = v.nextInode by rw [← hnode]; rfl] at hget
        have hback : toU32 (toInt32 v.nextInode) = v.nextInode := by
          unfold toU32 toInt32
          omega
        exact ⟨i, hi, by rw [hback]; exact hget⟩

/-- The last part of `vfs_open`. -/
theorem openInode_fills {fd i : Nat} {n : Int} (h : openInode v fd flags n = .done (v', r))
    (h0 : 0 ≤ r) (hi : nodeGet v (toU32 n) = some i) :
    (v'.nodes i).used = true ∧ (v'.nodes i).inode = (v'.fds r.toNat).inode := by
  rcases openInode_cases h with ⟨_, hr⟩ | ⟨i', hi', _, hr, hop⟩
  · omega
  · rw [hi] at hi'
    cases hi'
    obtain ⟨h1, _, h3, _⟩ := hop.sameTree.fields i
    obtain ⟨_, hused, hinode⟩ := nodeGet_some hi
    rw [h1, h3, hr, Int.toNat_natCast, hop.fds.2.1]
    exact ⟨hused, hinode⟩

/-- **The descriptor that `vfs_open` fills in leads to the node it resolved or created.** -/
theorem vfsOpen_target (hT : TreeOk v) (h : vfsOpen v path flags = .done (v', r)) (h0 : 0 ≤ r) :
    ∃ i, openTarget v path flags = some i ∧ (v'.nodes i).used = true
      ∧ (v'.nodes i).inode = (v'.fds r.toNat).inode := by
  obtain ⟨hT, hnum⟩ := hT
  unfold vfsOpen at h
  unfold openTarget
  split at h
  · cases h; omega
  · next fd _ =>
    obtain ⟨⟨k, hk, _, hc⟩, _, herr⟩ := openLookup_created v path flags
    cases hl : openLookup v path flags with
    | mk v₁ res =>
        rw [hl] at h hc herr
        dsimp only at h hc herr
        cases res with
        | inr e =>
            have := herr _ rfl
            cases h
            omega
        | inl inode =>
            dsimp only at h ⊢
            cases ho : openCreate v₁ path flags inode with
            | mk v₂ res' =>
                rw [ho] at h
                cases res' with
                | inr e =>
                    have hneg := openCreate_error ho
                    cases h
                    omega
                | inl n =>
                    dsimp only at h
                    by_cases hneg : inode < 0
                    · rw [if_pos hneg]
                      obtain ⟨hT₁, hn₁⟩ := hT.created hc (by omega)
                      obtain ⟨i, hi, hget⟩ := openCreate_made hT₁ (by omega) ho hneg
                      exact ⟨i, hi, openInode_fills h h0 hget⟩
                    · rw [if_neg hneg]
                      unfold openCreate at ho
                      rw [if_neg hneg] at ho
                      cases ho
                      cases hg : nodeGet v₁ (toU32 inode) with
                      | none =>
                          unfold openInode at h
                          rw [hg] at h
                          cases h
                          omega
                      | some i => exact ⟨i, rfl, openInode_fills h h0 hg⟩

theorem call_target {fs : FrameService σ} {input : DevInput} {fuel : Nat} {op : VfsOp}
    (hT : TreeOk v)
    (h : v.call fs input fuel op = .done (v', r)) (h0 : 0 ≤ r)
    (hop : op = .open path flags ∨ ∃ target, op = .openStd path flags target) :
    ∃ i, v.target op = some i ∧ (v'.nodes i).used = true
      ∧ (v'.nodes i).inode = (v'.fds r.toNat).inode := by
  rcases hop with rfl | ⟨target, rfl⟩
  · exact vfsOpen_target hT h h0
  · rcases vfsOpenStd_cases (Outcome.done.inj h) with ⟨_, hr⟩ | ⟨i, _, hr, _, hi, rfl⟩
    · omega
    · obtain ⟨_, hused, hinode⟩ := nodeGet_some hi
      refine ⟨i, hi, hused, ?_⟩
      rw [hr, Vfs.setFd_self]
      exact hinode

end Openings

/-! ## Runs -/

/-- The slot holds the node with number `n`; when there is none, no node has that number. -/
def Follows (v : Vfs σ) (n : Nat) : Option Nat → Prop
  | some i => (v.nodes i).used = true ∧ (v.nodes i).inode = n
  | none => ∀ j, (v.nodes j).used = true → (v.nodes j).inode ≠ n

structure FdRun.Inv (c : FdRun σ) : Prop where
  tree : TreeOk c.vfs
  given : ∀ k, (c.vfs.fds k).isOpen = true → (c.vfs.fds k).inode < c.vfs.nextInode
  follows : ∀ k, (c.vfs.fds k).isOpen = true → Follows c.vfs (c.vfs.fds k).inode (c.node k)

section Runs

variable {fs : FrameService σ} {v v' : Vfs σ} {c c' : FdRun σ}

theorem Follows.edit {path : CStr} {n : Nat} {slot : Option Nat} (h : Follows v n slot)
    (hT : TreeOk v)
    (he : TreeEdit path v v') (hn : n < v.nextInode) :
    Follows v' n (slot.filter fun i => (v'.nodes i).used) := by
  obtain ⟨_, hold⟩ := he.numbers hT
  cases slot with
  | none =>
      intro j hj hjn
      obtain ⟨hused, hinode⟩ := hold j hj (by omega)
      exact h j hused (hinode.trans hjn)
  | some i =>
      obtain ⟨hused, hinode⟩ := h
      by_cases halive : (v'.nodes i).used = true
      · rw [Option.filter_some, if_pos halive]
        exact ⟨halive, (he.stays hused halive).trans hinode⟩
      · rw [Option.filter_some, if_neg halive]
        intro j hj hjn
        -- whoever has the number now had it before, and only one node did
        obtain ⟨hjused, hjinode⟩ := hold j hj (by omega)
        have hji : j = i := hT.1.distinct j i hjused hused (by rw [hjinode, hjn, hinode])
        rw [hji] at hj
        exact halive hj

theorem FdRun.Inv.step (h : c.Inv) (hs : FdRun.Step fs c c') : c'.Inv := by
  obtain ⟨op, input, fuel, v', r, hcall, hnum, rfl⟩ := hs
  have hbefore := h.tree.2
  have he := step_treeEdit (step_of_call hcall)
  have hT' : TreeOk v' := ⟨h.tree.1.edit he (by omega), hnum⟩
  have hmono := (he.numbers h.tree).1
  -- the entry `k` after the call has the number and the note of the entry `j` before it
  have hkeep : ∀ {k j}, (c.vfs.fds j).isOpen = true → (v'.fds k).inode = (c.vfs.fds j).inode →
      op.passOn r (c.vfs.target op) c.node k = c.node j → (v'.fds k).inode < v'.nextInode
        ∧ Follows v' (v'.fds k).inode ((c.after op v' r).node k) := by
    intro k j hj hinode hnote
    have hgiven := h.given j hj
    refine ⟨by omega, ?_⟩
    unfold FdRun.after
    dsimp only
    rw [hnote, hinode]
    exact (h.follows j hj).edit h.tree he hgiven
  have hmain : ∀ k, (v'.fds k).isOpen = true → (v'.fds k).inode < v'.nextInode
      ∧ Follows v' (v'.fds k).inode ((c.after op v' r).node k) := by
    intro k ho
    cases call_fdFrom hcall ho with
    | kept hsame hnote =>
        obtain ⟨h1, h2, _⟩ := hsame
        exact hkeep (h1 ▸ ho) h2 (hnote _ _ _)
    | setfl hop hk hopen hset =>
        have hopen' : (c.vfs.fds k).isOpen = true := hk ▸ (fdOpen_iff.mp hopen).2.2
        exact hkeep hopen' (by rw [hset]) (by rw [hop]; exact congrFun (ite_self _) k)
    | copied hopen hcopy hnote =>
        exact hkeep (fdOpen_iff.mp hopen).2.2 (by rw [hcopy]) (hnote _ _ _)
    | opened hop h0 hr _ =>
        obtain ⟨i, htarget, hused, hinode⟩ := call_target h.tree hcall h0 hop
        rw [hr] at hinode
        refine ⟨by rw [← hinode]; exact hT'.1.below i hused, ?_⟩
        have hnote : op.passOn r (c.vfs.target op) c.node k = some i := by
          rw [← htarget, VfsOp.passOn_opened (by
            rcases hop with hop | ⟨_, hop⟩
            · exact Or.inl ⟨_, _, hop⟩
            · exact Or.inr ⟨_, _, _, hop⟩) h0]
          exact if_pos hr.symm
        unfold FdRun.after
        dsimp only
        rw [hnote, Option.filter_some, if_pos hused]
        exact ⟨hused, hinode⟩
  exact ⟨hT', fun k ho => (hmain k ho).1, fun k ho => (hmain k ho).2⟩

theorem FdRun.inv_reach (h : Run.Reach FdRun.Starts (FdRun.Step fs) c) : c.Inv := by
  refine h.invariant (fun s hs => ?_) fun _ _ hc hs => hc.step hs
  cases hs with
  | @boot v hv node =>
      have hclosed : ∀ k, ¬ (v.fds k).isOpen = true := fun k => by
        rw [starts_fds hv k]; simp
      exact ⟨treeOk_start hv, fun k ho => absurd ho (hclosed k), fun k ho => absurd ho (hclosed k)⟩

/-- **A descriptor never changes the file it denotes.** -/
theorem FdRun.descriptor_denotes (h : Run.Reach FdRun.Starts (FdRun.Step fs) c) :
    (∀ path flags v' r, vfsOpen c.vfs path flags = .done (v', r) → 0 ≤ r →
        ∃ i, openTarget c.vfs path flags = some i ∧ (v'.nodes i).used = true) ∧
      ∀ fd, fdOpen c.vfs fd = true →
        (∀ i, c.node fd.toNat = some i → Denotes fs c.vfs fd i)
          ∧ (c.node fd.toNat = none → Dangles fs c.vfs fd) := by
  have hinv := FdRun.inv_reach h
  refine ⟨fun path flags v' r hopen h0 => ?_, fun fd ho => ⟨fun i hi => ?_, fun hnone => ?_⟩⟩
  · obtain ⟨i, hi, hused, _⟩ := vfsOpen_target hinv.tree hopen h0
    exact ⟨i, hi, hused⟩
  · have hfollows := hinv.follows fd.toNat (fdOpen_iff.mp ho).2.2
    rw [hi] at hfollows
    obtain ⟨hused, hinode⟩ := hfollows
    refine denotes_of_nodeFromFd ?_
    unfold vfsNodeFromFd
    rw [if_neg (by simp [ho]), ← hinode]
    exact hinv.tree.1.nodeGet_self hused
  · have hfollows := hinv.follows fd.toNat (fdOpen_iff.mp ho).2.2
    rw [hnone] at hfollows
    refine dangles_of_nodeFromFd ho ?_
    unfold vfsNodeFromFd
    rw [if_neg (by simp [ho])]
    cases hg : nodeGet c.vfs (c.vfs.fds fd.toNat).inode with
    | none => rfl
    | some j =>
        obtain ⟨_, hused, hinode⟩ := nodeGet_some hg
        exact absurd hinode (hfollows j hused)

/-- A file is unlinked while it is open, and its slot goes to a new one: the old descriptor leads
nowhere, the new one to the new file. -/
theorem FdRun.descriptor_denotes_reused : ∃ c : FdRun Nat,
    Run.Reach FdRun.Starts (FdRun.Step zeroedService) c
      ∧ fdOpen c.vfs 3 = true ∧ Dangles zeroedService c.vfs 3
      ∧ fdOpen c.vfs 4 = true ∧ Denotes zeroedService c.vfs 4 9 := by
  obtain ⟨⟨v₁, r₁⟩, hopen, hrest⟩ := Outcome.of_get?
    (x := bootVfs.call zeroedService noInput 0 (.open (cstr "/tmp/a") 5))
    (f := fun (x : Vfs Nat × Int) => decide (x.2 = 3 ∧ x.1.nextInode ≤ 2 ^ 31
      ∧ openTarget bootVfs (cstr "/tmp/a") 5 = some 9 ∧ (x.1.nodes 9).used = true
      ∧ (x.1.call zeroedService noInput 0 (.unlink (cstr "/tmp/a"))).get?.map
        (fun (y : Vfs Nat × Int) => decide (y.2 = 0 ∧ y.1.nextInode ≤ 2 ^ 31
          ∧ (y.1.nodes 9).used = false
          ∧ (y.1.call zeroedService noInput 0 (.open (cstr "/tmp/b") 5)).get?.map
            (fun (z : Vfs Nat × Int) => decide (z.2 = 4 ∧ z.1.nextInode ≤ 2 ^ 31
              ∧ openTarget y.1 (cstr "/tmp/b") 5 = some 9 ∧ (z.1.nodes 9).used = true
              ∧ fdOpen z.1 3 = true ∧ fdOpen z.1 4 = true))
            = some true)) = some true))
    (b := true) (by decide +kernel)
  obtain ⟨hr₁, hnum₁, htarget₁, hused₁, hunlink⟩ := of_decide_eq_true hrest
  obtain ⟨⟨v₂, r₂⟩, hunlink, hfacts⟩ := Outcome.of_get? hunlink
  obtain ⟨hr₂, hnum₂, hused₂, hagain⟩ := of_decide_eq_true hfacts
  obtain ⟨⟨v₃, r₃⟩, hagain, hfacts⟩ := Outcome.of_get? hagain
  obtain ⟨hr₃, hnum₃, htarget₃, hused₃, ho₃, ho₄⟩ := of_decide_eq_true hfacts
  dsimp only at hr₁ hr₂ hr₃ hnum₁ hnum₂ hnum₃ hused₁ hused₂ hused₃ htarget₃ hunlink hagain ho₃ ho₄
  subst hr₁ hr₂ hr₃
  -- the three calls
  have hreach := Run.Reach.next (.next (.next
    (.start (FdRun.Starts.boot bootVfs_starts fun _ => none))
    (FdRun.Step.of_call hopen hnum₁)) (FdRun.Step.of_call hunlink hnum₂))
    (FdRun.Step.of_call hagain hnum₃)
  obtain ⟨_, hden⟩ := FdRun.descriptor_denotes hreach
  refine ⟨_, hreach, ho₃, (hden 3 ho₃).2 ?_, ho₄, (hden 4 ho₄).1 9 ?_⟩
  · simp [FdRun.after, VfsOp.passOn, Vfs.target, htarget₁, hused₁, hused₂]
  · simp [FdRun.after, VfsOp.passOn, Vfs.target, htarget₃, hused₃]

end Runs

end VnlKernel
