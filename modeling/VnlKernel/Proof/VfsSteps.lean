import VnlKernel.Fs.Vfs
import VnlKernel.Lib.Run

/-!
# What a call into the file system can do

`VfsOp` is one call, with its arguments. For each kind of call one lemma says every
way it can come out, guards included; what later modules prove about runs they prove
from these lemmas and not from the code.

Most calls only move descriptors about. Creating is the part that two calls share and
one of them does twice: `vfs_open` on a path below `/dev/shm` may make a device node
and, when the path still does not resolve, a file as well. `Created` is any number of
such creations from one path.
-/

namespace VnlKernel

open ByteMem Bits

variable {σ : Type}

/-- A call. `setCwd` takes any inode number. -/
inductive VfsOp where
  | open (path : CStr) (flags : Nat)
  | openStd (path : CStr) (flags : Nat) (target : Int)
  | mkdir (path : CStr)
  | mknodChr (path : CStr) (major minor : Nat)
  | unlink (path : CStr)
  | setCwd (inode : Nat)
  | close (fd : Int)
  | dup (fd : Int)
  | dup2 (fd newfd : Int)
  | read (fd : Int) (len : Nat)
  | write (fd : Int) (buf : Nat → UInt8) (len : Nat)
  | lseek (fd offset whence : Int)
  | ftruncate (fd length : Int)
  | fcntl (fd cmd : Int) (arg : Nat)

/-- The path a creating call was given. -/
def VfsOp.path : VfsOp → CStr
  | .open path _ => path
  | .mkdir path => path
  | .mknodChr path _ _ => path
  | _ => []

/-- The file system after a call. -/
def Vfs.step (fs : FrameService σ) (input : DevInput) (fuel : Nat) (v : Vfs σ) :
    VfsOp → Outcome (Vfs σ)
  | .open path flags => do
      let (v, _) ← vfsOpen v path flags
      return v
  | .openStd path flags target => .done (vfsOpenStd v path flags target).1
  | .mkdir path => .done (vfsMkdir v path).1
  | .mknodChr path major minor => .done (vfsMknodChr v path major minor).1
  | .unlink path => do
      let (v, _) ← vfsUnlink fs v path
      return v
  | .setCwd inode => .done (vfsSetCwd v (u32 inode))
  | .close fd => .done (vfsClose v fd).1
  | .dup fd => .done (vfsDup v fd).1
  | .dup2 fd newfd => .done (vfsDup2 v fd newfd).1
  | .read fd len => .done (vfsRead fs v input fd len).1
  | .write fd buf len => do
      let (v, _) ← vfsWrite fs fuel v fd buf len
      return v
  | .lseek fd offset whence => .done (vfsLseek v fd offset whence).1
  | .ftruncate fd length => do
      let (v, _) ← vfsFtruncate fs fuel v fd length
      return v
  | .fcntl fd cmd arg => .done (vfsFcntl v fd cmd arg).1

/-! ## Tables -/

section Tables

variable {v : Vfs σ} {i j : Nat}

@[simp] theorem Vfs.setNode_self (n : VFSNode) : (v.setNode i n).nodes i = n := if_pos rfl

theorem Vfs.setNode_ne (n : VFSNode) (h : j ≠ i) : (v.setNode i n).nodes j = v.nodes j := if_neg h

@[simp] theorem Vfs.setFd_self (e : FDEntry) : (v.setFd i e).fds i = e := if_pos rfl

theorem Vfs.setFd_ne (e : FDEntry) (h : j ≠ i) : (v.setFd i e).fds j = v.fds j := if_neg h

theorem nodeGet_some {inode : Nat} (h : nodeGet v inode = some i) :
    i < vfsMaxNodes ∧ (v.nodes i).used = true ∧ (v.nodes i).inode = inode := by
  obtain ⟨hp, _, hlt, _⟩ := Scan.first_some h
  simp only [Bool.and_eq_true, decide_eq_true_eq] at hp
  exact ⟨by omega, hp.1, hp.2⟩

theorem nodeAlloc_some (h : nodeAlloc v = some i) :
    i < vfsMaxNodes ∧ (v.nodes i).used = false := by
  obtain ⟨hp, _, hlt, _⟩ := Scan.first_some h
  exact ⟨by omega, by simpa using hp⟩

theorem findChild_some {cur : Nat} {name : CStr} (h : findChild v cur name = some i) :
    i < vfsMaxNodes ∧ (v.nodes i).used = true ∧ (v.nodes i).parent = cur
      ∧ (v.nodes i).name = name := by
  obtain ⟨hp, _, hlt, _⟩ := Scan.first_some h
  simp only [Bool.and_eq_true, decide_eq_true_eq] at hp
  exact ⟨by omega, hp.1.1, hp.1.2, hp.2⟩

theorem findChild_none {cur : Nat} {name : CStr} (h : findChild v cur name = none)
    (hi : i < vfsMaxNodes) (hu : (v.nodes i).used = true) (hp : (v.nodes i).parent = cur) :
    (v.nodes i).name ≠ name := by
  intro hn
  have := Scan.first_none h i (Nat.zero_le _) (by omega)
  simp [hu, hp, hn] at this

theorem freeFd_some {fd : Nat} (h : freeFd v = some fd) :
    3 ≤ fd ∧ fd < vfsMaxFds ∧ (v.fds fd).isOpen = false := by
  obtain ⟨hp, hle, hlt, _⟩ := Scan.first_some h
  refine ⟨hle, ?_, by simpa using hp⟩
  unfold vfsMaxFds at hlt ⊢
  omega

theorem fdOpen_iff {fd : Int} : fdOpen v fd = true ↔
    0 ≤ fd ∧ fd < vfsMaxFds ∧ (v.fds fd.toNat).isOpen = true := by
  unfold fdOpen
  simp [and_assoc]

end Tables

/-! ## Creating -/

/-- The node that the creating calls fill in. -/
def freshNode (inode parent : Nat) (leaf : CStr) (type : VFSNodeType) (major minor : Nat) : VFSNode :=
  { VFSNode.zero with
    used := true, type := type, inode := inode, parent := parent, devMajor := major,
    devMinor := minor, name := leaf.take (vfsNameMax - 1) }

/-- The file system with a node more, in slot `i`. -/
def addNode (v : Vfs σ) (i : Nat) (n : VFSNode) : Vfs σ :=
  { v.setNode i n with nextInode := u32 (v.nextInode + 1) }

theorem createNode_some {v v' : Vfs σ} {parent : Int} {leaf : CStr} {type : VFSNodeType}
    {major minor inode : Nat} (h : createNode v parent leaf type major minor = some (v', inode)) :
    ∃ p i, nodeGet v (toU32 parent) = some p ∧ (v.nodes p).type = .dir ∧ nodeAlloc v = some i
      ∧ inode = v.nextInode
      ∧ v' = addNode v i (freshNode v.nextInode (toU32 parent) leaf type major minor) := by
  unfold createNode at h
  split at h
  · exact absurd h (by simp)
  · next p hp =>
    split at h
    · exact absurd h (by simp)
    · next hd =>
      split at h
      · exact absurd h (by simp)
      · next i hi =>
        simp only [Option.some.injEq, Prod.mk.injEq] at h
        obtain ⟨hv, hn⟩ := h
        exact ⟨p, i, hp, not_not.mp hd, hi, hn.symm, hv.symm⟩

/-- `Created path k v v'`: from `v`, a call on `path` made `k` nodes, each of them while the path
did not resolve; the shared memory table may be another. -/
inductive Created (path : CStr) : Nat → Vfs σ → Vfs σ → Prop
  | none (v : Vfs σ) : Created path 0 v v
  | shm {k : Nat} {v v' : Vfs σ} (t : ShmTable) :
      Created path k v v' → Created path k v { v' with shm := t }
  | node {k : Nat} {v v' v'' : Vfs σ} {parent : Int} {leaf : CStr} {type : VFSNodeType}
      {major minor inode : Nat} :
      Created path k v v' → vfsResolve v' path < 0 → resolveParent v' path = (parent, leaf) →
      0 ≤ parent → createNode v' parent leaf type major minor = some (v'', inode) →
      Created path (k + 1) v v''

theorem makeNode_cases (v : Vfs σ) (path : CStr) (type : VFSNodeType) (major minor : Nat) :
    (makeNode v path type major minor).1 = v ∨
      ∃ parent leaf inode, vfsResolve v path < 0 ∧ resolveParent v path = (parent, leaf)
        ∧ 0 ≤ parent
        ∧ leaf ≠ [] ∧ createNode v parent leaf type major minor
          = some ((makeNode v path type major minor).1, inode) := by
  unfold makeNode
  split
  · exact Or.inl rfl
  · next hres =>
    cases hp : resolveParent v path with
    | mk parent leaf =>
        dsimp only
        split
        · exact Or.inl rfl
        · next hok =>
          rw [not_or] at hok
          cases hc : createNode v parent leaf type major minor with
          | none => exact Or.inl rfl
          | some r =>
              obtain ⟨v', inode⟩ := r
              exact Or.inr ⟨parent, leaf, inode, by omega, rfl, by omega, hok.2, hc⟩

/-- A creating call that succeeds. -/
theorem makeNode_done {v v' : Vfs σ} {path : CStr} {type : VFSNodeType} {major minor : Nat}
    {r : Int}
    (h : makeNode v path type major minor = (v', r)) (h0 : 0 ≤ r) :
    ∃ parent leaf inode, vfsResolve v path < 0 ∧ resolveParent v path = (parent, leaf) ∧ 0 ≤ parent
      ∧ createNode v parent leaf type major minor = some (v', inode) := by
  unfold makeNode at h
  split at h
  · cases h; omega
  · next hres =>
    cases hp : resolveParent v path with
    | mk parent leaf =>
        rw [hp] at h
        dsimp only at h
        split at h
        · cases h; omega
        · next hok =>
          cases hc : createNode v parent leaf type major minor with
          | none => rw [hc] at h; cases h; omega
          | some x =>
              obtain ⟨w, inode⟩ := x
              rw [hc] at h
              cases h
              exact ⟨parent, leaf, inode, by omega, rfl, by omega, hc⟩

/-- A creating call makes at most one node. -/
theorem makeNode_created (v : Vfs σ) (path : CStr) (type : VFSNodeType) (major minor : Nat) :
    ∃ k, k ≤ 1 ∧ Created path k v (makeNode v path type major minor).1 := by
  rcases makeNode_cases v path type major minor with h | ⟨parent, leaf, inode, h1, h2, h3, _, h4⟩
  · exact ⟨0, Nat.zero_le _, by rw [h]; exact .none v⟩
  · exact ⟨1, Nat.le_refl _, .node (.none v) h1 h2 h3 h4⟩

/-! ## Opening -/

theorem openLookup_created (v : Vfs σ) (path : CStr) (flags : Nat) :
    (∃ k, k ≤ 1 ∧ (hasFlag flags vfsOCreate = false → k = 0)
        ∧ Created path k v (openLookup v path flags).1)
      ∧ (∀ inode, (openLookup v path flags).2 = .inl inode →
          inode = vfsResolve (openLookup v path flags).1 path)
      ∧ ∀ e, (openLookup v path flags).2 = .inr e → e < 0 := by
  unfold openLookup
  split
  · cases hs : shmOpenObject v.shm (path.drop 9) with
    | mk shm idx =>
        dsimp only
        have hshm : Created path 0 v { v with shm := shm } := .shm shm (.none v)
        split
        · next hidx => exact ⟨⟨0, Nat.zero_le _, fun _ => rfl, .none v⟩, by simp, by simpa using hidx⟩
        · split
          · split
            · exact ⟨⟨0, Nat.zero_le _, fun _ => rfl, hshm⟩, by simp, by simp⟩
            · next hflag =>
              -- the device node
              have hmk : ∃ k, k ≤ 1 ∧ (hasFlag flags vfsOCreate = false → k = 0) ∧ Created path k v
                  (vfsMknodChr { v with shm := shm } path devShmMajor idx.toNat).1 := by
                rcases makeNode_cases { v with shm := shm } path .chr (devShmMajor % 2 ^ 16)
                  (idx.toNat % 2 ^ 16) with h | ⟨parent, leaf, inode, h1, h2, h3, _, h4⟩
                · exact ⟨0, Nat.zero_le _, fun _ => rfl, by unfold vfsMknodChr; rw [h]; exact hshm⟩
                · exact ⟨1, Nat.le_refl _, fun hf => absurd hf (by simpa using hflag),
                    .node hshm h1 h2 h3 h4⟩
              cases hm : vfsMknodChr { v with shm := shm } path devShmMajor idx.toNat with
              | mk v' r =>
                  rw [hm] at hmk
                  dsimp only
                  split
                  · exact ⟨hmk, by simp, by simp⟩
                  · exact ⟨hmk, by simp, by simp⟩
          · exact ⟨⟨0, Nat.zero_le _, fun _ => rfl, hshm⟩, by simp, by simp⟩
  · exact ⟨⟨0, Nat.zero_le _, fun _ => rfl, .none v⟩, by simp, by simp⟩

theorem openCreate_created {v₀ v : Vfs σ} {path : CStr} {k : Nat} (flags : Nat)
    (h : Created path k v₀ v) :
    (∃ k', k' ≤ k + 1 ∧ (hasFlag flags vfsOCreate = false → k' = k)
        ∧ Created path k' v₀ (openCreate v path flags (vfsResolve v path)).1)
      ∧ ∀ e, (openCreate v path flags (vfsResolve v path)).2 = .inr e → e < 0 := by
  unfold openCreate
  split
  · next hres =>
    split
    · exact ⟨⟨k, by omega, fun _ => rfl, h⟩, by simp⟩
    · next hflag =>
      cases hp : resolveParent v path with
      | mk parent leaf =>
          dsimp only
          split
          · exact ⟨⟨k, by omega, fun _ => rfl, h⟩, by simp⟩
          · next hpar =>
            cases hc : createNode v parent leaf .file 0 0 with
            | none => exact ⟨⟨k, by omega, fun _ => rfl, h⟩, by simp⟩
            | some r =>
                obtain ⟨v', inode⟩ := r
                exact ⟨⟨k + 1, Nat.le_refl _, fun hf => absurd hf (by simpa using hflag),
                  .node h hres hp (by omega) hc⟩, by simp⟩
  · exact ⟨⟨k, by omega, fun _ => rfl, h⟩, by simp⟩

/-- The file system with slot `i` emptied of its contents. -/
def clearNode (v : Vfs σ) (i : Nat) (heap : Heap σ) : Vfs σ :=
  { v.setNode i { v.nodes i with data := 0, size := 0, capacity := 0 } with heap := heap }

/-- The two ways the last part of `vfs_open` can succeed: without truncating, and with. -/
inductive Opened (v : Vfs σ) (fd i flags inode : Nat) : Vfs σ → Prop
  | plain (h : ¬ (hasFlag flags vfsOTrunc = true ∧ (v.nodes i).type = .file)) :
      Opened v fd i flags inode (v.setFd fd ⟨true, inode,
        if hasFlag flags vfsOWrite ∧ !hasFlag flags vfsOTrunc then (v.nodes i).size else 0, flags⟩)
  | trunc (ht : hasFlag flags vfsOTrunc = true) (hf : (v.nodes i).type = .file) {heap : Heap σ}
      (hk : kfree v.heap (v.nodes i).data = .done heap) :
      Opened v fd i flags inode ((clearNode v i heap).setFd fd ⟨true, inode, 0, flags⟩)

theorem openInode_cases {v v' : Vfs σ} {fd flags : Nat} {inode r : Int}
    (h : openInode v fd flags inode = .done (v', r)) :
    (v' = v ∧ r = -1) ∨ ∃ i, nodeGet v (toU32 inode) = some i ∧ (v.nodes i).type ≠ .dir ∧ r = fd
      ∧ Opened v fd i flags (toU32 inode) v' := by
  unfold openInode at h
  split at h
  · cases h; exact Or.inl ⟨rfl, rfl⟩
  · next i hi =>
    split at h
    · cases h; exact Or.inl ⟨rfl, rfl⟩
    · next hd =>
      right
      dsimp only at h
      split at h
      · next ht =>
        obtain ⟨heap, hk, h⟩ := Outcome.bind_eq_done h
        cases h
        refine ⟨i, hi, hd, rfl, ?_⟩
        rw [if_neg (by simp [ht.1])]
        exact .trunc ht.1 ht.2 hk
      · next ht =>
        cases h
        exact ⟨i, hi, hd, rfl, .plain ht⟩

/-- **What `vfs_open` does**: it makes at most two nodes, none unless asked to, and then fails or
fills a free descriptor in. -/
theorem vfsOpen_cases {v v' : Vfs σ} {path : CStr} {flags : Nat} {r : Int}
    (h : vfsOpen v path flags = .done (v', r)) :
    ∃ k v₁, k ≤ 2 ∧ (hasFlag flags vfsOCreate = false → k = 0) ∧ Created path k v v₁
      ∧ ((v' = v₁ ∧ r < 0) ∨
        ∃ fd i inode, freeFd v = some fd ∧ nodeGet v₁ inode = some i ∧ (v₁.nodes i).type ≠ .dir
          ∧ r = fd ∧ Opened v₁ fd i flags inode v') := by
  unfold vfsOpen at h
  split at h
  · cases h
    exact ⟨0, v, by omega, fun _ => rfl, .none v, Or.inl ⟨rfl, by omega⟩⟩
  · next fd hfd =>
    obtain ⟨⟨k, hk, hkf, hc⟩, hres, herr⟩ := openLookup_created v path flags
    cases hl : openLookup v path flags with
    | mk v₁ res =>
        rw [hl] at h hc hres herr
        cases res with
        | inr e =>
            cases h
            exact ⟨k, _, by omega, hkf, hc, Or.inl ⟨rfl, herr _ rfl⟩⟩
        | inl inode =>
            obtain ⟨⟨k', hk', hkf', hc'⟩, herr'⟩ := openCreate_created flags hc
            have hin : inode = vfsResolve v₁ path := hres inode rfl
            have hkf'' : hasFlag flags vfsOCreate = false → k' = 0 :=
              fun hf => (hkf' hf).trans (hkf hf)
            subst hin
            dsimp only at h
            cases ho : openCreate v₁ path flags (vfsResolve v₁ path) with
            | mk v₂ res' =>
                rw [ho] at h hc' herr'
                cases res' with
                | inr e =>
                    cases h
                    exact ⟨k', _, by omega, hkf'', hc', Or.inl ⟨rfl, herr' _ rfl⟩⟩
                | inl inode' =>
                    refine ⟨k', v₂, by omega, hkf'', hc', ?_⟩
                    rcases openInode_cases h with ⟨hv, hr⟩ | ⟨i, hi, hd, hr, hop⟩
                    · exact Or.inl ⟨hv, by omega⟩
                    · exact Or.inr ⟨fd, i, toU32 inode', hfd, hi, hd, hr, hop⟩

/-! ## Shared memory takes no pages from the heap -/

section Supply

variable (fs : FrameService σ)

theorem shmFreePages_supply : ∀ (n i : Nat) (s : σ) (pages : Nat → Nat),
    fs.supply (shmFreePages fs s pages n i).1 ≤ fs.supply s
  | 0, _, _, _ => Nat.le_refl _
  | n + 1, i, s, pages => by
      rw [shmFreePages]
      split
      · exact Nat.le_trans (shmFreePages_supply n _ _ _) (fs.supply_free _ _)
      · exact shmFreePages_supply n _ _ _

theorem shmUndoPages_supply : ∀ (n i : Nat) (s : σ) (pages : Nat → Nat),
    fs.supply (shmUndoPages fs s pages n i).1 ≤ fs.supply s
  | 0, _, _, _ => Nat.le_refl _
  | n + 1, _, _, _ => Nat.le_trans (shmUndoPages_supply n _ _ _) (fs.supply_free _ _)

theorem shmGrowPages_supply (old : Nat) : ∀ (n i : Nat) (s : σ) (pages : Nat → Nat),
    fs.supply (shmGrowPages fs old s pages n i).1 ≤ fs.supply s
  | 0, _, _, _ => Nat.le_refl _
  | n + 1, i, s, pages => by
      rw [shmGrowPages]
      dsimp only
      split
      · exact Nat.le_trans (shmUndoPages_supply fs _ _ _ _) (fs.supply_alloc s)
      · exact Nat.le_trans (shmGrowPages_supply old n _ _ _)
          (Nat.le_trans (fs.supply_setPhys _ _) (fs.supply_alloc s))

theorem shmTruncate_supply (s : σ) (t : ShmTable) (idx : Int) (length : Nat) :
    fs.supply (shmTruncate fs s t idx length).1 ≤ fs.supply s := by
  unfold shmTruncate
  dsimp only
  split
  · exact Nat.le_refl _
  · split
    · exact Nat.le_refl _
    · split
      · exact shmGrowPages_supply fs _ _ _ _ _
      · exact Nat.le_trans (shmFreePages_supply fs _ _ _ _) (shmGrowPages_supply fs _ _ _ _ _)

theorem shmWrite_supply (s : σ) (t : ShmTable) (idx : Int) (buf : Nat → UInt8) (len off : Nat) :
    fs.supply (shmWrite fs s t idx buf len off).1 ≤ fs.supply s := by
  unfold shmWrite
  dsimp only
  split
  · exact Nat.le_refl _
  · have htrunc : fs.supply (if u64 (off + len) > (t idx.toNat).size then
        shmTruncate fs s t idx (u64 (off + len)) else (s, t, 0)).1 ≤ fs.supply s := by
      split
      · exact shmTruncate_supply fs _ _ _ _
      · exact Nat.le_refl _
    generalize (if u64 (off + len) > (t idx.toNat).size then
      shmTruncate fs s t idx (u64 (off + len)) else (s, t, 0)) = g at htrunc ⊢
    split
    · exact htrunc
    · split
      · exact Nat.le_trans (fs.supply_setPhys _ _) htrunc
      · exact Nat.le_trans (fs.supply_setPhys _ _) htrunc

theorem shmDestroy_supply (s : σ) (t : ShmTable) (idx : Int) :
    fs.supply (shmDestroy fs s t idx).1 ≤ fs.supply s := by
  unfold shmDestroy
  dsimp only
  split
  · exact Nat.le_refl _
  · exact shmFreePages_supply fs _ _ _ _

end Supply

/-! ## Removing -/

/-- The file system with other frames and shared memory below it. -/
def Vfs.withFrames (v : Vfs σ) (s : σ) (shm : ShmTable) : Vfs σ := { v.setFrames s with shm := shm }

/-- The file system without the node in slot `i`. -/
def dropNode (v : Vfs σ) (i : Nat) (heap : Heap σ) : Vfs σ :=
  { v.setNode i .zero with heap := heap }

/-- **What `vfs_unlink` does**: it fails, or it removes a node that is neither the root nor a
directory with something in it. -/
theorem vfsUnlink_cases {fs : FrameService σ} {v v' : Vfs σ} {path : CStr} {r : Int}
    (h : vfsUnlink fs v path = .done (v', r)) :
    v' = v ∨ ∃ i s shm heap, nodeGet v (toU32 (vfsResolve v path)) = some i
      ∧ (v.nodes i).inode ≠ vfsInodeRoot
      ∧ ((v.nodes i).type = .dir → ∀ j, j < vfsMaxNodes → (v.nodes j).used = true →
          (v.nodes j).parent ≠ (v.nodes i).inode)
      ∧ fs.supply s ≤ fs.supply v.heap.pages
      ∧ kfree { v.heap with pages := s } (v.nodes i).data = .done heap
      ∧ v' = dropNode (v.withFrames s shm) i heap := by
  unfold vfsUnlink at h
  dsimp only at h
  split at h
  · cases h; exact Or.inl rfl
  · split at h
    · cases h; exact Or.inl rfl
    · next hroot =>
      split at h
      · cases h; exact Or.inl rfl
      · next i hi =>
        have hin := (nodeGet_some hi).2.2
        split at h
        · cases h; exact Or.inl rfl
        · next hdir =>
          right
          have hchild : (v.nodes i).type = .dir → ∀ j, j < vfsMaxNodes → (v.nodes j).used = true →
              (v.nodes j).parent ≠ (v.nodes i).inode := by
            intro ht j hj hu hp
            have hnone : Scan.first (fun j => (v.nodes j).used &&
                (v.nodes j).parent = toU32 (vfsResolve v path)) vfsMaxNodes 0 = none := by
              rw [not_and, Option.not_isSome_iff_eq_none] at hdir
              exact hdir ht
            have := Scan.first_none hnone j (Nat.zero_le _) (by omega)
            simp [hu, hp, hin] at this
          rw [← hin] at hroot
          split at h
          · next hshm =>
            obtain ⟨heap, hk, h⟩ := Outcome.bind_eq_done h
            cases h
            exact ⟨i, _, _, heap, hi, hroot, hchild, shmDestroy_supply fs _ _ _, hk, rfl⟩
          · obtain ⟨heap, hk, h⟩ := Outcome.bind_eq_done h
            cases h
            exact ⟨i, v.heap.pages, v.shm, heap, hi, hroot, hchild, Nat.le_refl _, hk, rfl⟩

/-! ## Writing -/

/-- The file system with slot `i`'s contents in another block and at another size. -/
def refill (v : Vfs σ) (i : Nat) (heap : Heap σ) (data cap size : Nat) : Vfs σ :=
  { v with heap := heap }.setNode i { v.nodes i with data := data, size := size, capacity := cap }

/-- The end of `vfs_write`: copy, advance the descriptor, and let the file grow with it. -/
def putBytes (v : Vfs σ) (i fd : Nat) (e : FDEntry) (buf : Nat → UInt8) (len : Nat) : Vfs σ :=
  let n := v.nodes i
  let v := { v with
    heap := { v.heap with mem := copyIn v.heap.mem (u64 (n.data + e.offset)) buf len } }
  let v := v.setFd fd { e with offset := u64 (e.offset + len) }
  if u64 (e.offset + len) > n.size then v.setNode i { n with size := u64 (e.offset + len) } else v

/-- Make room for a file that is to end at `newEnd`. -/
inductive Roomed (fs : FrameService σ) (fuel : Nat) (v : Vfs σ) (i newEnd : Nat) : Vfs σ → Prop
  | fits (h : newEnd ≤ (v.nodes i).capacity) : Roomed fs fuel v i newEnd v
  | grown (h : (v.nodes i).capacity < newEnd) {heap : Heap σ} {data : Nat}
      (hk : krealloc fs.toPager fuel v.heap (v.nodes i).data (u64 (newEnd + 256)) = .done (heap, data))
      (h0 : data ≠ 0) :
      Roomed fs fuel v i newEnd (refill v i heap data (u64 (newEnd + 256)) (v.nodes i).size)

/-- The ways a write can end. -/
inductive Written (fs : FrameService σ) (fuel : Nat) (v : Vfs σ) (fd : Int) (buf : Nat → UInt8)
    (len : Nat) : Vfs σ → Xfer → Prop
  | refused (h : ∀ i, fdOpen v fd = true → hasFlag (v.fds fd.toNat).flags vfsOWrite = true →
        nodeGet v (v.fds fd.toNat).inode = some i → (v.nodes i).type ≠ .file) :
      Written fs fuel v fd buf len v (.fail (-1))
  | device {i : Nat} {s : σ} {shm : ShmTable} {off : Nat} {r : Int}
      (hi : nodeGet v (v.fds fd.toNat).inode = some i) (ht : (v.nodes i).type = .chr)
      (hs : fs.supply s ≤ fs.supply v.heap.pages) :
      Written fs fuel v fd buf len
        ((v.withFrames s shm).setFd fd.toNat { v.fds fd.toNat with offset := off }) (.fail r)
  | full {i : Nat} {heap : Heap σ} (ho : fdOpen v fd = true)
      (hi : nodeGet v (v.fds fd.toNat).inode = some i) (ht : (v.nodes i).type = .file)
      (h : (v.nodes i).capacity < u64 ((v.fds fd.toNat).offset + len))
      (hk : krealloc fs.toPager fuel v.heap (v.nodes i).data
        (u64 (u64 ((v.fds fd.toNat).offset + len) + 256)) = .done (heap, 0)) :
      Written fs fuel v fd buf len { v with heap := heap } (.fail (-1))
  | file {i : Nat} {v₁ : Vfs σ} (ho : fdOpen v fd = true)
      (hi : nodeGet v (v.fds fd.toNat).inode = some i) (ht : (v.nodes i).type = .file)
      (hroom : Roomed fs fuel v i (u64 ((v.fds fd.toNat).offset + len)) v₁) :
      Written fs fuel v fd buf len (putBytes v₁ i fd.toNat (v.fds fd.toNat) buf len)
        ⟨toInt32 len, (v.fds fd.toNat).offset, len, buf⟩

theorem devfsChrWrite_frames (fs : FrameService σ) (v : Vfs σ) (n : VFSNode) (buf : Nat → UInt8)
    (len off : Nat) : ∃ s shm, (devfsChrWrite fs v n buf len off).1 = v.withFrames s shm
      ∧ fs.supply s ≤ fs.supply v.heap.pages := by
  unfold devfsChrWrite
  dsimp only
  split
  · exact ⟨v.heap.pages, v.shm, rfl, Nat.le_refl _⟩
  · split
    · exact ⟨v.heap.pages, v.shm, rfl, Nat.le_refl _⟩
    · split
      · exact ⟨_, _, rfl, shmWrite_supply fs _ _ _ _ _ _⟩
      · exact ⟨v.heap.pages, v.shm, rfl, Nat.le_refl _⟩

/-- **What `vfs_write` does.** -/
theorem vfsWrite_cases {fs : FrameService σ} {fuel : Nat} {v v' : Vfs σ} {fd : Int}
    {buf : Nat → UInt8} {len : Nat} {x : Xfer} (h : vfsWrite fs fuel v fd buf len = .done (v', x)) :
    Written fs fuel v fd buf len v' x := by
  unfold vfsWrite at h
  dsimp only at h
  split at h
  · next ho =>
    cases h
    exact .refused fun i hc => absurd hc (by simpa using ho)
  · next ho =>
    have ho : fdOpen v fd = true := by simpa using ho
    split at h
    · next hflag =>
      cases h
      exact .refused fun i _ hc => absurd hc (by simpa using hflag)
    · split at h
      · next hnone =>
        cases h
        exact .refused fun i _ _ hc => absurd (hnone.symm.trans hc) (by simp)
      · next i hi =>
        split at h
        · next hchr =>
          -- a device, whatever its number
          obtain ⟨s, shm, hv, hs⟩ := devfsChrWrite_frames fs v (v.nodes i) buf len
            (v.fds fd.toNat).offset
          cases h
          rw [hv]
          exact .device hi hchr hs
        · split at h
          · next hdir =>
            cases h
            refine .refused fun j _ _ hj => ?_
            rw [hi] at hj
            cases hj
            exact hdir
          · next hfile =>
            have hfile : (v.nodes i).type = .file := not_not.mp hfile
            split at h
            · next hcap =>
              -- a file that has to grow: there is a new array, or no room for it
              obtain ⟨⟨heap, data⟩, hk, h⟩ := Outcome.bind_eq_done h
              dsimp only at h
              by_cases h0 : data = 0
              · subst h0
                cases h
                exact .full ho hi hfile hcap hk
              · rw [if_neg h0] at h
                cases h
                exact .file ho hi hfile (.grown hcap hk h0)
            · next hcap =>
              cases h
              exact .file ho hi hfile (.fits (Nat.le_of_not_lt hcap))

/-- The ways `vfs_ftruncate` can end. -/
inductive Truncated (fs : FrameService σ) (fuel : Nat) (v : Vfs σ) (fd length : Int) : Vfs σ → Prop
  | refused : Truncated fs fuel v fd length v
  | shm {s : σ} {shm : ShmTable} (hs : fs.supply s ≤ fs.supply v.heap.pages) :
      Truncated fs fuel v fd length (v.withFrames s shm)
  | full {i : Nat} {heap : Heap σ} (hi : vfsNodeFromFd v fd = some i) (ht : (v.nodes i).type = .file)
      (hlen : 0 ≤ length) (h : (v.nodes i).capacity < toU64 length)
      (hk : krealloc fs.toPager fuel v.heap (v.nodes i).data
        (alignUpPage (u64 (toU64 length + 256))) = .done (heap, 0)) :
      Truncated fs fuel v fd length { v with heap := heap }
  | grown {i : Nat} {heap : Heap σ} {data : Nat} (hi : vfsNodeFromFd v fd = some i)
      (ht : (v.nodes i).type = .file) (hlen : 0 ≤ length) (h : (v.nodes i).capacity < toU64 length)
      (hk : krealloc fs.toPager fuel v.heap (v.nodes i).data
        (alignUpPage (u64 (toU64 length + 256))) = .done (heap, data)) (h0 : data ≠ 0) :
      Truncated fs fuel v fd length
        (refill v i heap data (alignUpPage (u64 (toU64 length + 256))) (toU64 length))
  | fits {i : Nat} (hi : vfsNodeFromFd v fd = some i) (ht : (v.nodes i).type = .file)
      (hlen : 0 ≤ length) (h : toU64 length ≤ (v.nodes i).capacity) :
      Truncated fs fuel v fd length
        (refill v i v.heap (v.nodes i).data (v.nodes i).capacity (toU64 length))

/-- **What `vfs_ftruncate` does.** -/
theorem vfsFtruncate_cases {fs : FrameService σ} {fuel : Nat} {v v' : Vfs σ} {fd length r : Int}
    (h : vfsFtruncate fs fuel v fd length = .done (v', r)) : Truncated fs fuel v fd length v' := by
  unfold vfsFtruncate at h
  dsimp only at h
  split at h
  · cases h; exact .refused
  · next i hi =>
    split at h
    · cases h
      exact .shm (shmTruncate_supply fs _ _ _ _)
    · split at h
      · next hfile =>
        split at h
        · cases h; exact .refused
        · next hlen =>
          split at h
          · next hcap =>
            obtain ⟨⟨heap, data⟩, hk, h⟩ := Outcome.bind_eq_done h
            dsimp only at h
            by_cases h0 : data = 0
            · subst h0
              cases h
              exact .full hi hfile (by omega) hcap hk
            · rw [if_neg h0] at h
              cases h
              exact .grown hi hfile (by omega) hcap hk h0
          · next hcap =>
            cases h
            exact .fits hi hfile (by omega) (Nat.le_of_not_lt hcap)
      · cases h; exact .refused

/-! ## Descriptors -/

/-- At most the descriptor `k` has changed. -/
def Moves (v : Vfs σ) (k : Nat) (v' : Vfs σ) : Prop := v' = v ∨ ∃ e, v' = v.setFd k e

/-- The descriptor a call names as the one to change. -/
def VfsOp.target : VfsOp → Option Int
  | .close fd => some fd
  | .dup2 _ newfd => some newfd
  | .read fd _ => some fd
  | .write fd _ _ => some fd
  | .lseek fd _ _ => some fd
  | .fcntl fd _ _ => some fd
  | _ => none

/-- The descriptors a call may change: the one it names, or one that was free. -/
def VfsOp.MayMove (v : Vfs σ) (op : VfsOp) (k : Nat) : Prop :=
  (v.fds k).isOpen = false ∨ ∃ fd, op.target = some fd ∧ fd.toNat = k

section Moves

variable (v : Vfs σ)

theorem vfsOpenStd_moves (path : CStr) (flags : Nat) (target : Int) :
    (vfsOpenStd v path flags target).1 = v ∨
      (v.fds target.toNat).isOpen = false
        ∧ ∃ e, (vfsOpenStd v path flags target).1 = v.setFd target.toNat e := by
  unfold vfsOpenStd
  dsimp only
  split
  · exact Or.inl rfl
  · split
    · exact Or.inl rfl
    · next hfree =>
      split
      · exact Or.inl rfl
      · split
        · exact Or.inl rfl
        · split
          · exact Or.inl rfl
          · exact Or.inr ⟨by simpa using hfree, _, rfl⟩

theorem vfsClose_moves (fd : Int) : Moves v fd.toNat (vfsClose v fd).1 := by
  unfold vfsClose
  split
  · exact Or.inl rfl
  · exact Or.inr ⟨_, rfl⟩

theorem vfsDup_moves (fd : Int) : (vfsDup v fd).1 = v ∨
    ∃ k, freeFd v = some k ∧ (vfsDup v fd).1 = v.setFd k (v.fds fd.toNat) := by
  unfold vfsDup
  split
  · exact Or.inl rfl
  · split
    · exact Or.inl rfl
    · next k hk => exact Or.inr ⟨k, hk, rfl⟩

theorem vfsDup2_moves (fd newfd : Int) : Moves v newfd.toNat (vfsDup2 v fd newfd).1 := by
  unfold vfsDup2
  split
  · exact Or.inl rfl
  · split
    · exact Or.inl rfl
    · split
      · exact Or.inl rfl
      · exact Or.inr ⟨_, rfl⟩

theorem vfsRead_moves (fs : FrameService σ) (input : DevInput) (fd : Int) (len : Nat) :
    Moves v fd.toNat (vfsRead fs v input fd len).1 := by
  unfold vfsRead
  dsimp only
  split
  · exact Or.inl rfl
  · split
    · exact Or.inl rfl
    · split
      · exact Or.inl rfl
      · split
        · exact Or.inr ⟨_, rfl⟩
        · split
          · exact Or.inl rfl
          · exact Or.inr ⟨_, rfl⟩

theorem vfsLseek_moves (fd offset whence : Int) :
    Moves v fd.toNat (vfsLseek v fd offset whence).1 := by
  unfold vfsLseek
  dsimp only
  split
  · exact Or.inl rfl
  · split
    · exact Or.inl rfl
    · generalize (if whence = 0 then _ else _ : Option Int) = target
      cases target with
      | none => exact Or.inl rfl
      | some pos =>
          dsimp only
          split
          · exact Or.inl rfl
          · exact Or.inr ⟨_, rfl⟩

theorem vfsFcntl_moves (fd cmd : Int) (arg : Nat) : Moves v fd.toNat (vfsFcntl v fd cmd arg).1 := by
  unfold vfsFcntl
  split
  · exact Or.inl rfl
  · split
    · exact Or.inl rfl
    · split
      · exact Or.inr ⟨_, rfl⟩
      · exact Or.inl rfl

end Moves

/-! ## All calls -/

/-- **Everything a call can do.** -/
inductive Effect (fs : FrameService σ) (fuel : Nat) (v : Vfs σ) : VfsOp → Vfs σ → Prop
  | idle (op : VfsOp) : Effect fs fuel v op v
  | moves {op : VfsOp} {k : Nat} {v' : Vfs σ} (hk : op.MayMove v k) (h : Moves v k v') :
      Effect fs fuel v op v'
  | cwd (inode : Nat) : Effect fs fuel v (.setCwd inode) (vfsSetCwd v (u32 inode))
  | madeDir {path : CStr} {k : Nat} (hk : k ≤ 1) (h : Created path k v (vfsMkdir v path).1) :
      Effect fs fuel v (.mkdir path) (vfsMkdir v path).1
  | madeChr {path : CStr} {major minor k : Nat} (hk : k ≤ 1)
      (h : Created path k v (vfsMknodChr v path major minor).1) :
      Effect fs fuel v (.mknodChr path major minor) (vfsMknodChr v path major minor).1
  | failed {path : CStr} {flags k : Nat} {v' : Vfs σ} (hk : k ≤ 2)
      (hflag : hasFlag flags vfsOCreate = false → k = 0) (h : Created path k v v') :
      Effect fs fuel v (.open path flags) v'
  | opened {path : CStr} {flags k fd i inode : Nat} {v₁ v' : Vfs σ} (hk : k ≤ 2)
      (hflag : hasFlag flags vfsOCreate = false → k = 0) (h : Created path k v v₁)
      (hfd : freeFd v = some fd) (hi : nodeGet v₁ inode = some i) (ht : (v₁.nodes i).type ≠ .dir)
      (ho : Opened v₁ fd i flags inode v') : Effect fs fuel v (.open path flags) v'
  | removed {path : CStr} {i : Nat} {s : σ} {shm : ShmTable} {heap : Heap σ}
      (hi : nodeGet v (toU32 (vfsResolve v path)) = some i)
      (hroot : (v.nodes i).inode ≠ vfsInodeRoot)
      (hempty : (v.nodes i).type = .dir → ∀ j, j < vfsMaxNodes → (v.nodes j).used = true →
        (v.nodes j).parent ≠ (v.nodes i).inode)
      (hs : fs.supply s ≤ fs.supply v.heap.pages)
      (hk : kfree { v.heap with pages := s } (v.nodes i).data = .done heap) :
      Effect fs fuel v (.unlink path) (dropNode (v.withFrames s shm) i heap)
  | written {fd : Int} {buf : Nat → UInt8} {len : Nat} {x : Xfer} {v' : Vfs σ}
      (h : Written fs fuel v fd buf len v' x) : Effect fs fuel v (.write fd buf len) v'
  | truncated {fd length : Int} {v' : Vfs σ} (h : Truncated fs fuel v fd length v') :
      Effect fs fuel v (.ftruncate fd length) v'

theorem step_effect {fs : FrameService σ} {input : DevInput} {fuel : Nat} {v v' : Vfs σ}
    {op : VfsOp}
    (h : v.step fs input fuel op = .done v') : Effect fs fuel v op v' := by
  -- a call on a descriptor of its own choice
  have hself : ∀ {op : VfsOp} {fd : Int} {v' : Vfs σ}, op.target = some fd → Moves v fd.toNat v' →
      Effect fs fuel v op v' := fun ht hm => .moves (Or.inr ⟨_, ht, rfl⟩) hm
  cases op with
  | «open» path flags =>
      obtain ⟨⟨w, r⟩, ho, h⟩ := Outcome.bind_eq_done h
      cases h
      obtain ⟨k, v₁, hk, hflag, hc, hend⟩ := vfsOpen_cases ho
      rcases hend with ⟨hv, _⟩ | ⟨fd, i, inode, hfd, hi, ht, _, hop⟩
      · rw [hv]; exact .failed hk hflag hc
      · exact .opened hk hflag hc hfd hi ht hop
  | openStd path flags target =>
      cases h
      rcases vfsOpenStd_moves v path flags target with hv | ⟨hfree, e, hv⟩
      · rw [hv]; exact .idle _
      · rw [hv]; exact .moves (Or.inl hfree) (Or.inr ⟨e, rfl⟩)
  | mkdir path =>
      cases h
      obtain ⟨k, hk, hc⟩ := makeNode_created v path .dir 0 0
      exact .madeDir hk hc
  | mknodChr path major minor =>
      cases h
      obtain ⟨k, hk, hc⟩ := makeNode_created v path .chr (major % 2 ^ 16) (minor % 2 ^ 16)
      exact .madeChr hk hc
  | unlink path =>
      obtain ⟨⟨w, r⟩, hu, h⟩ := Outcome.bind_eq_done h
      cases h
      rcases vfsUnlink_cases hu with hv | ⟨i, s, shm, heap, hi, hroot, hempty, hs, hk, hv⟩
      · rw [hv]; exact .idle _
      · rw [hv]; exact .removed hi hroot hempty hs hk
  | setCwd inode => cases h; exact .cwd inode
  | close fd => cases h; exact hself rfl (vfsClose_moves v fd)
  | dup fd =>
      cases h
      rcases vfsDup_moves v fd with hv | ⟨k, hk, hv⟩
      · rw [hv]; exact .idle _
      · rw [hv]; exact .moves (Or.inl (freeFd_some hk).2.2) (Or.inr ⟨_, rfl⟩)
  | dup2 fd newfd => cases h; exact hself rfl (vfsDup2_moves v fd newfd)
  | read fd len => cases h; exact hself rfl (vfsRead_moves v fs input fd len)
  | write fd buf len =>
      obtain ⟨⟨w, x⟩, hw, h⟩ := Outcome.bind_eq_done h
      cases h
      exact .written (vfsWrite_cases hw)
  | lseek fd offset whence => cases h; exact hself rfl (vfsLseek_moves v fd offset whence)
  | ftruncate fd length =>
      obtain ⟨⟨w, r⟩, ht, h⟩ := Outcome.bind_eq_done h
      cases h
      exact .truncated (vfsFtruncate_cases ht)
  | fcntl fd cmd arg => cases h; exact hself rfl (vfsFcntl_moves v fd cmd arg)

end VnlKernel
