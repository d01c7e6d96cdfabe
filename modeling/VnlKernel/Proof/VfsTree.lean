import Mathlib.Logic.Function.Iterate
import VnlKernel.Proof.HeapRun
import VnlKernel.Proof.VfsSteps

/-!
# The tree of nodes

The tree is spelled out in a flat table by parent inode numbers. A node is created
below a directory that is there and gets a number larger than any before it, and a
node is removed only when nothing is below it. So numbers fall strictly along every
parent chain, and the chain ends at the root.
-/

namespace VnlKernel

open Bits

variable {σ : Type}

/-- The tree in shape. -/
structure TreeInv (v : Vfs σ) : Prop where
  bound : ∀ i, (v.nodes i).used = true → i < vfsMaxNodes
  root : (v.nodes 0).used = true ∧ (v.nodes 0).type = .dir ∧ (v.nodes 0).inode = vfsInodeRoot
    ∧ (v.nodes 0).parent = vfsInodeRoot
  /-- Numbers in use are below the next one. -/
  below : ∀ i, (v.nodes i).used = true → (v.nodes i).inode < v.nextInode
  distinct : ∀ i j, (v.nodes i).used = true → (v.nodes j).used = true →
    (v.nodes i).inode = (v.nodes j).inode → i = j
  /-- Every node but the root hangs below a directory with a smaller number. -/
  attached : ∀ i, (v.nodes i).used = true → i ≠ 0 → ∃ p, (v.nodes p).used = true
    ∧ (v.nodes p).type = .dir ∧ (v.nodes p).inode = (v.nodes i).parent
    ∧ (v.nodes p).inode < (v.nodes i).inode

/-- The parent's number, of a node that is there. -/
def parentOf (v : Vfs σ) (inode : Nat) : Nat :=
  match nodeGet v inode with
  | some i => (v.nodes i).parent
  | none => inode

/-- What a node says about its place in the tree. -/
def VFSNode.place (n : VFSNode) : Bool × VFSNodeType × Nat × Nat × CStr :=
  (n.used, n.type, n.inode, n.parent, n.name)

/-- Nothing has moved, appeared or gone; the working directory may be another inode number. -/
structure SameTree (v v' : Vfs σ) : Prop where
  next : v'.nextInode = v.nextInode
  cwd : v.cwd < 2 ^ 32 → v'.cwd < 2 ^ 32
  place : ∀ i, (v'.nodes i).place = (v.nodes i).place

section Same

variable {v v' v'' : Vfs σ}

theorem SameTree.refl (v : Vfs σ) : SameTree v v := ⟨rfl, id, fun _ => rfl⟩

theorem SameTree.trans (h : SameTree v v') (h' : SameTree v' v'') : SameTree v v'' :=
  ⟨h'.next.trans h.next, fun hc => h'.cwd (h.cwd hc), fun i => (h'.place i).trans (h.place i)⟩

theorem SameTree.fields (h : SameTree v v') (i : Nat) :
    (v'.nodes i).used = (v.nodes i).used ∧ (v'.nodes i).type = (v.nodes i).type
      ∧ (v'.nodes i).inode = (v.nodes i).inode ∧ (v'.nodes i).parent = (v.nodes i).parent
      ∧ (v'.nodes i).name = (v.nodes i).name := by
  have := h.place i
  simp only [VFSNode.place, Prod.mk.injEq] at this
  exact this

/-- The same nodes. -/
theorem SameTree.of_nodes (hn : v'.nodes = v.nodes) (hx : v'.nextInode = v.nextInode)
    (hc : v'.cwd = v.cwd) : SameTree v v' :=
  ⟨hx, fun h => hc ▸ h, fun i => by rw [hn]⟩

/-- A node rewritten in place. -/
theorem SameTree.of_setNode {i : Nat} {n : VFSNode} (hn : v'.nodes = (v.setNode i n).nodes)
    (hp : n.place = (v.nodes i).place) (hx : v'.nextInode = v.nextInode) (hc : v'.cwd = v.cwd) :
    SameTree v v' := by
  refine ⟨hx, fun h => hc ▸ h, fun j => ?_⟩
  rw [hn]
  by_cases hj : j = i
  · rw [hj, Vfs.setNode_self, hp]
  · rw [Vfs.setNode_ne _ hj]

theorem sameTree_refill (v : Vfs σ) (i : Nat) (heap : Heap σ) (data cap size : Nat) :
    SameTree v (refill v i heap data cap size) := .of_setNode rfl rfl rfl rfl

theorem Moves.sameTree {k : Nat} (h : Moves v k v') : SameTree v v' := by
  rcases h with rfl | ⟨e, rfl⟩
  · exact .refl _
  · exact .of_nodes rfl rfl rfl

theorem sameTree_putBytes (i fd : Nat) (e : FDEntry) (buf : Nat → UInt8) (len : Nat) :
    SameTree v (putBytes v i fd e buf len) := by
  unfold putBytes
  dsimp only
  split
  · exact .of_setNode rfl rfl rfl rfl
  · exact .of_nodes rfl rfl rfl

theorem Written.sameTree {fs : FrameService σ} {fuel : Nat} {fd : Int} {buf : Nat → UInt8}
    {len : Nat}
    {x : Xfer} (h : Written fs fuel v fd buf len v' x) : SameTree v v' := by
  cases h with
  | refused _ => exact .refl v
  | device _ _ _ => exact .of_nodes rfl rfl rfl
  | full _ _ _ _ _ => exact .of_nodes rfl rfl rfl
  | file _ _ _ hroom =>
      cases hroom with
      | fits _ => exact sameTree_putBytes _ _ _ _ _
      | grown _ _ _ => exact (sameTree_refill _ _ _ _ _ _).trans (sameTree_putBytes _ _ _ _ _)

theorem Truncated.sameTree {fs : FrameService σ} {fuel : Nat} {fd length : Int}
    (h : Truncated fs fuel v fd length v') : SameTree v v' := by
  cases h with
  | refused => exact .refl v
  | shm _ => exact .of_nodes rfl rfl rfl
  | full _ _ _ _ _ => exact .of_nodes rfl rfl rfl
  | grown _ _ _ _ _ _ => exact sameTree_refill _ _ _ _ _ _
  | fits _ _ _ _ => exact sameTree_refill _ _ _ _ _ _

theorem Opened.sameTree {fd i flags inode : Nat} (h : Opened v fd i flags inode v') :
    SameTree v v' := by
  cases h with
  | plain _ => exact .of_nodes rfl rfl rfl
  | trunc _ _ _ => exact .of_setNode rfl rfl rfl rfl

end Same

/-! ## What a step does to the tree -/

/-- The three things that happen to the tree. -/
inductive TreeEdit (path : CStr) (v v' : Vfs σ) : Prop
  | same (h : SameTree v v')
  | created {k : Nat} {v₁ : Vfs σ} (hk : k ≤ 2) (hc : Created path k v v₁) (h : SameTree v₁ v')
  | removed {i : Nat} (hi : i < vfsMaxNodes) (hu : (v.nodes i).used = true)
      (hroot : (v.nodes i).inode ≠ vfsInodeRoot)
      (hempty : (v.nodes i).type = .dir → ∀ j, j < vfsMaxNodes → (v.nodes j).used = true →
        (v.nodes j).parent ≠ (v.nodes i).inode)
      (h : SameTree (v.setNode i .zero) v')

/-- **Every call makes one of them.** -/
theorem step_treeEdit {fs : FrameService σ} {input : DevInput} {fuel : Nat} {v v' : Vfs σ}
    {op : VfsOp}
    (h : v.step fs input fuel op = .done v') : TreeEdit op.path v v' := by
  cases step_effect h with
  | idle => exact .same (.refl v)
  | moves _ hm => exact .same hm.sameTree
  | cwd inode => exact .same ⟨rfl, fun _ => Nat.mod_lt _ (by decide), fun _ => rfl⟩
  | madeDir hk hc => exact .created (by omega) hc (.refl _)
  | madeChr hk hc => exact .created (by omega) hc (.refl _)
  | failed hk _ hc => exact .created hk hc (.refl _)
  | opened hk _ hc _ _ _ ho => exact .created hk hc ho.sameTree
  | removed hi hroot hempty _ _ =>
      obtain ⟨hlt, hused, _⟩ := nodeGet_some hi
      exact .removed hlt hused hroot hempty (.of_nodes rfl rfl rfl)
  | written hw => exact .same hw.sameTree
  | truncated ht => exact .same ht.sameTree

/-! ## The invariant -/

section Inv

variable {v v' : Vfs σ}

theorem TreeInv.same (h : TreeInv v) (hs : SameTree v v') : TreeInv v' where
  bound := by
    intro i hu
    rw [(hs.fields i).1] at hu
    exact h.bound i hu
  root := by
    obtain ⟨h1, h2, h3, h4, _⟩ := hs.fields 0
    rw [h1, h2, h3, h4]
    exact h.root
  below := by
    intro i hu
    obtain ⟨h1, _, h3, _⟩ := hs.fields i
    rw [h1] at hu
    rw [h3, hs.next]
    exact h.below i hu
  distinct := by
    intro i j hi hj he
    rw [(hs.fields i).1] at hi
    rw [(hs.fields j).1] at hj
    rw [(hs.fields i).2.2.1, (hs.fields j).2.2.1] at he
    exact h.distinct i j hi hj he
  attached := by
    intro i hu hne
    obtain ⟨h1, _, h3, h4, _⟩ := hs.fields i
    rw [h1] at hu
    obtain ⟨p, hp1, hp2, hp3, hp4⟩ := h.attached i hu hne
    obtain ⟨q1, q2, q3, _⟩ := hs.fields p
    exact ⟨p, by rw [q1]; exact hp1, by rw [q2]; exact hp2, by rw [q3, h4]; exact hp3,
      by rw [q3, h3]; exact hp4⟩

/-- Only the root has the root's number. -/
theorem TreeInv.root_slot (h : TreeInv v) {i : Nat} (hu : (v.nodes i).used = true) :
    (v.nodes i).inode = vfsInodeRoot ↔ i = 0 := by
  constructor
  · intro hi
    exact h.distinct i 0 hu h.root.1 (by rw [hi, h.root.2.2.1])
  · rintro rfl
    exact h.root.2.2.1

/-- A number leads to the one node that has it. -/
theorem TreeInv.nodeGet_self (h : TreeInv v) {i : Nat} (hu : (v.nodes i).used = true) :
    nodeGet v (v.nodes i).inode = some i := by
  refine Scan.first_unique (h.bound i hu) (by simp [hu]) fun j _ hj => ?_
  simp only [Bool.and_eq_true, decide_eq_true_eq] at hj
  exact h.distinct j i hj.1 hu hj.2

/-- A new node, with the next number, below a directory. -/
theorem TreeInv.add (h : TreeInv v) {p i : Nat} (leaf : CStr) (type : VFSNodeType)
    (major minor : Nat)
    (hp : (v.nodes p).used = true) (hd : (v.nodes p).type = .dir) (hi : nodeAlloc v = some i)
    (hnum : v.nextInode + 1 < 2 ^ 32) :
    TreeInv (addNode v i (freshNode v.nextInode (v.nodes p).inode leaf type major minor)) := by
  obtain ⟨hlt, hfree⟩ := nodeAlloc_some hi
  generalize hn : freshNode v.nextInode (v.nodes p).inode leaf type major minor = n
  have hself : (addNode v i n).nodes i = n := Vfs.setNode_self n
  have hother : ∀ {j}, j ≠ i → (addNode v i n).nodes j = v.nodes j := fun hj => Vfs.setNode_ne n hj
  have hnext : (addNode v i n).nextInode = v.nextInode + 1 := Nat.mod_eq_of_lt hnum
  have hused : ∀ {j}, (v.nodes j).used = true → j ≠ i := by
    rintro j hj rfl
    rw [hfree] at hj
    exact absurd hj (by simp)
  have hinode : n.inode = v.nextInode := by rw [← hn]; rfl
  have hpar : n.parent = (v.nodes p).inode := by rw [← hn]; rfl
  have hp' := hused hp
  -- the nodes that were there keep number and parent; the new one has the next number
  constructor
  · intro j hj
    by_cases hji : j = i
    · omega
    · rw [hother hji] at hj; exact h.bound j hj
  · rw [hother (hused h.root.1)]; exact h.root
  · intro j hj
    rw [hnext]
    by_cases hji : j = i
    · rw [hji, hself, hinode]; omega
    · rw [hother hji] at hj ⊢
      have := h.below j hj
      omega
  · intro j k hj hk he
    by_cases hji : j = i
    · by_cases hki : k = i
      · rw [hji, hki]
      · rw [hji, hself, hinode, hother hki] at he
        rw [hother hki] at hk
        have := h.below k hk
        omega
    · rw [hother hji] at hj he
      by_cases hki : k = i
      · rw [hki, hself, hinode] at he
        have := h.below j hj
        omega
      · rw [hother hki] at hk he
        exact h.distinct j k hj hk he
  · intro j hj h0
    by_cases hji : j = i
    · refine ⟨p, ?_⟩
      rw [hji, hself, hother hp', hinode, hpar]
      exact ⟨hp, hd, rfl, h.below p hp⟩
    · rw [hother hji] at hj ⊢
      obtain ⟨q, hq, hrest⟩ := h.attached j hj h0
      exact ⟨q, by rw [hother (hused hq)]; exact ⟨hq, hrest⟩⟩

theorem TreeInv.created {path : CStr} {k : Nat} (h : TreeInv v) (hc : Created path k v v')
    (hnum : v.nextInode + k < 2 ^ 32) : TreeInv v' ∧ v'.nextInode = v.nextInode + k := by
  induction hc with
  | none v => exact ⟨h, rfl⟩
  | shm t _ ih =>
      obtain ⟨h', hn⟩ := ih h hnum
      exact ⟨h'.same (.of_nodes rfl rfl rfl), hn⟩
  | @node k v v' v'' parent leaf type major minor inode _ hres hpar h0 hcreate ih =>
      obtain ⟨h', hn⟩ := ih h (by omega)
      obtain ⟨p, i, hp, hd, hi, _, rfl⟩ := createNode_some hcreate
      obtain ⟨_, hpu, hpi⟩ := nodeGet_some hp
      rw [← hpi]
      refine ⟨h'.add leaf type major minor hpu hd hi (by omega), ?_⟩
      show u32 (v'.nextInode + 1) = _
      rw [hn, show u32 (v.nextInode + k + 1) = v.nextInode + k + 1 from Nat.mod_eq_of_lt (by omega)]
      omega

/-- Nothing hangs below a node that may be removed. -/
theorem TreeInv.remove (h : TreeInv v) {i : Nat} (hu : (v.nodes i).used = true)
    (hroot : (v.nodes i).inode ≠ vfsInodeRoot)
    (hempty : (v.nodes i).type = .dir → ∀ j, j < vfsMaxNodes → (v.nodes j).used = true →
      (v.nodes j).parent ≠ (v.nodes i).inode) : TreeInv (v.setNode i .zero) := by
  have hgone : ¬ ((v.setNode i .zero).nodes i).used = true := by
    rw [Vfs.setNode_self]; simp [VFSNode.zero]
  have hne : ∀ {j}, ((v.setNode i .zero).nodes j).used = true → j ≠ i := by
    rintro j hj rfl
    exact hgone hj
  have hkeep : ∀ {j}, j ≠ i → (v.setNode i .zero).nodes j = v.nodes j :=
    fun hj => Vfs.setNode_ne _ hj
  have h0 : 0 ≠ i := by
    rintro rfl
    exact hroot h.root.2.2.1
  constructor
  · intro j hj
    have hji := hne hj
    rw [hkeep hji] at hj
    exact h.bound j hj
  · rw [hkeep h0]; exact h.root
  · intro j hj
    have hji := hne hj
    rw [hkeep hji] at hj ⊢
    exact h.below j hj
  · intro j k hj hk he
    have hji := hne hj
    have hki := hne hk
    rw [hkeep hji] at hj he
    rw [hkeep hki] at hk he
    exact h.distinct j k hj hk he
  · intro j hj hj0
    have hji := hne hj
    rw [hkeep hji] at hj ⊢
    obtain ⟨p, hp, hd, hpi, hlt⟩ := h.attached j hj hj0
    have hpne : p ≠ i := by
      rintro rfl
      exact hempty hd j (h.bound j hj) hj hpi.symm
    exact ⟨p, by rw [hkeep hpne]; exact ⟨hp, hd, hpi, hlt⟩⟩

/-- **Every call keeps the tree in shape**, as long as numbers do not run out. -/
theorem TreeInv.edit {path : CStr} (h : TreeInv v) (he : TreeEdit path v v')
    (hnum : v.nextInode + 2 < 2 ^ 32) : TreeInv v' := by
  cases he with
  | same hs => exact h.same hs
  | created hk hc hs => exact (h.created hc (by omega)).1.same hs
  | removed _ hu hroot hempty hs => exact (h.remove hu hroot hempty).same hs

end Inv

/-! ## Runs -/

/-- The states that booting leaves the file system in: after `vfs_init`, and after `devfs_init`. -/
def Vfs.Starts (v : Vfs σ) : Prop :=
  ∃ cwd shm heap, cwd < 2 ^ 32
    ∧ (v = vfsInit cwd shm heap ∨ v = devfsInit (vfsInit cwd shm heap))

/-- A call, with fewer than `2 ^ 31` nodes ever created: the counter starts at one and counts them.
-/
def Vfs.Steps (fs : FrameService σ) (v v' : Vfs σ) : Prop :=
  ∃ op input fuel, v.step fs input fuel op = .done v' ∧ v'.nextInode ≤ 2 ^ 31

section Starts

variable {P : Nat → Vfs σ → Prop}

/-- What the two calls keep, a list of them keeps; `P` may count them. -/
theorem mkdirs_induct : ∀ {paths : List CStr} {n m : Nat} {v : Vfs σ},
    (∀ n v, ∀ path ∈ paths, P n v → P (n + 1) (vfsMkdir v path).1) → P n v →
    n + paths.length = m → P m (mkdirs v paths)
  | [], _, _, _, _, h, hm => hm ▸ h
  | path :: paths, n, m, v, hP, h, hm => by
      rw [mkdirs]
      rw [List.length_cons] at hm
      exact mkdirs_induct (fun n v p hp => hP n v p (List.mem_cons_of_mem _ hp))
        (hP n v path List.mem_cons_self h) (by omega)

theorem mknods_induct : ∀ {devs : List (CStr × Nat × Nat)} {n m : Nat} {v : Vfs σ},
    (∀ n v, ∀ d ∈ devs, P n v → P (n + 1) (vfsMknodChr v d.1 d.2.1 d.2.2).1) → P n v →
    n + devs.length = m → P m (mknods v devs)
  | [], _, _, _, _, h, hm => hm ▸ h
  | d :: devs, n, m, v, hP, h, hm => by
      rw [mknods]
      rw [List.length_cons] at hm
      exact mknods_induct (fun n v d hd => hP n v d (List.mem_cons_of_mem _ hd))
        (hP n v d List.mem_cons_self h) (by omega)

/-- The root directory alone. -/
def bareRoot (cwd : Nat) (shm : ShmTable) (heap : Heap σ) : Vfs σ where
  nodes := fun i =>
    if i = 0 then { VFSNode.zero with used := true, type := .dir, name := [slash] } else .zero
  nextInode := 1
  cwd := cwd
  fds := fun _ => .zero
  shm := shm
  heap := heap

/-- The paths that booting creates from. -/
def bootPaths : List CStr :=
  [cstr "/bin", cstr "/etc", cstr "/tmp", cstr "/home", cstr "/usr", cstr "/usr/bin", cstr "/var",
    cstr "/var/cache", cstr "/dev", cstr "/dev/shm", cstr "/dev/input", cstr "/dev/fb0",
    cstr "/dev/null", cstr "/dev/input/keyboard", cstr "/dev/input/mouse", cstr "/dev/ttyS0"]

/-- **Whatever holds of a bare root and is kept by the creating calls holds after booting.** -/
theorem boot_induct {v : Vfs σ} {cwd : Nat} {shm : ShmTable} {heap : Heap σ}
    (hv : v = vfsInit cwd shm heap ∨ v = devfsInit (vfsInit cwd shm heap))
    (h0 : P 1 (bareRoot cwd shm heap))
    (hmake : ∀ n v, ∀ path ∈ bootPaths, ∀ type major minor, P n v →
      P (n + 1) (makeNode v path type major minor).1) : ∃ n, n ≤ 17 ∧ P n v := by
  have hmk : ∀ {paths : List CStr}, paths ⊆ bootPaths → ∀ n v, ∀ path ∈ paths, P n v →
      P (n + 1) (vfsMkdir v path).1 := fun hsub n v path hp => hmake n v path (hsub hp) .dir 0 0
  have hnod : ∀ {devs : List (CStr × Nat × Nat)}, devs.map (·.1) ⊆ bootPaths → ∀ n v, ∀ d ∈ devs,
      P n v → P (n + 1) (vfsMknodChr v d.1 d.2.1 d.2.2).1 := fun hsub n v d hd =>
    hmake n v d.1 (hsub (List.mem_map_of_mem hd)) .chr _ _
  have hinit : P 9 (vfsInit cwd shm heap) := by
    unfold vfsInit
    exact mkdirs_induct (hmk (by decide +kernel)) h0 rfl
  generalize vfsInit cwd shm heap = v₀ at hinit hv
  rcases hv with rfl | rfl
  · exact ⟨9, by omega, hinit⟩
  · unfold devfsInit
    dsimp only
    split
    · refine ⟨17, by omega, mknods_induct (hnod (by decide +kernel))
        (mkdirs_induct (hmk (by decide +kernel)) (hmake 9 _ _ ?_ .dir 0 0 hinit) rfl) rfl⟩
      decide +kernel
    · exact ⟨16, by omega, mknods_induct (hnod (by decide +kernel))
        (mkdirs_induct (hmk (by decide +kernel)) hinit rfl) rfl⟩

theorem starts_induct {v : Vfs σ} (h : v.Starts)
    (h0 : ∀ cwd shm heap, cwd < 2 ^ 32 → P 1 (bareRoot cwd shm heap))
    (hmake : ∀ n v, ∀ path ∈ bootPaths, ∀ type major minor, P n v →
      P (n + 1) (makeNode v path type major minor).1) : ∃ n, n ≤ 17 ∧ P n v := by
  obtain ⟨cwd, shm, heap, hcwd, hv⟩ := h
  exact boot_induct hv (h0 cwd shm heap hcwd) hmake

end Starts

/-- The tree in shape, and numbers that are still non-negative as an `int`. -/
def TreeOk (v : Vfs σ) : Prop := TreeInv v ∧ v.nextInode ≤ 2 ^ 31

theorem treeInv_bareRoot (cwd : Nat) (shm : ShmTable) (heap : Heap σ) :
    TreeInv (bareRoot cwd shm heap) := by
  have honly : ∀ i, ((bareRoot cwd shm heap).nodes i).used = true → i = 0 := by
    intro i hu
    by_contra hi
    simp [bareRoot, hi, VFSNode.zero] at hu
  constructor
  · intro i hu; rw [honly i hu]; decide
  · exact ⟨rfl, rfl, rfl, rfl⟩
  · intro i hu; rw [honly i hu]; exact Nat.zero_lt_one
  · intro i j hi hj _; rw [honly i hi, honly j hj]
  · intro i hu hne; exact absurd (honly i hu) hne

/-- The creating calls, which boot consists of. -/
theorem makeNode_tree {v : Vfs σ} {n : Nat} (h : TreeInv v ∧ v.nextInode ≤ n) (hn : n < 2 ^ 31)
    (path : CStr) (type : VFSNodeType) (major minor : Nat) :
    TreeInv (makeNode v path type major minor).1
      ∧ (makeNode v path type major minor).1.nextInode ≤ n + 1 := by
  obtain ⟨k, hk, hc⟩ := makeNode_created v path type major minor
  obtain ⟨h', hnext⟩ := h.1.created hc (by omega)
  exact ⟨h', by omega⟩

theorem treeOk_start {v : Vfs σ} (h : v.Starts) : TreeOk v := by
  obtain ⟨n, hn, hP⟩ := starts_induct (P := fun n v => n < 20 → TreeInv v ∧ v.nextInode ≤ n) h
    (fun cwd shm heap _ _ => ⟨treeInv_bareRoot cwd shm heap, Nat.le_refl _⟩)
    (fun n v path _ type major minor hP hn =>
      makeNode_tree (hP (by omega)) (by omega) path type major minor)
  obtain ⟨hT, hnum⟩ := hP (by omega)
  exact ⟨hT, by omega⟩

section Reach

variable {fs : FrameService σ} {v : Vfs σ}

theorem treeOk_reach (h : Run.Reach Vfs.Starts (Vfs.Steps fs) v) : TreeOk v := by
  refine h.invariant (fun _ => treeOk_start) fun s s' hs hstep => ?_
  obtain ⟨op, input, fuel, hdone, hnum⟩ := hstep
  have hbefore := hs.2
  exact ⟨hs.1.edit (step_treeEdit hdone) (by omega), hnum⟩

/-- Numbers fall along the parent chain, so it ends, and it can end only at the root. -/
theorem TreeInv.chain (h : TreeInv v) : ∀ (n i : Nat), (v.nodes i).used = true
    → (v.nodes i).inode ≤ n →
    ∃ k, (parentOf v)^[k] (v.nodes i).inode = vfsInodeRoot := by
  intro n
  induction n with
  | zero => intro i _ hle; exact ⟨0, Nat.le_zero.mp hle⟩
  | succ n ih =>
      intro i hu hle
      by_cases hi : i = 0
      · exact ⟨0, by rw [hi]; exact h.root.2.2.1⟩
      · obtain ⟨p, hp, _, hpi, hlt⟩ := h.attached i hu hi
        obtain ⟨k, hk⟩ := ih p hp (by omega)
        refine ⟨k + 1, ?_⟩
        rw [Function.iterate_succ_apply, show parentOf v (v.nodes i).inode = (v.nodes p).inode by
          rw [parentOf, h.nodeGet_self hu, hpi], hk]

/-- Files and devices have nothing below them. -/
theorem TreeInv.leaf (h : TreeInv v) {i j : Nat} (hi : (v.nodes i).used = true)
    (hd : (v.nodes i).type ≠ .dir) (hj : (v.nodes j).used = true) :
    (v.nodes j).parent ≠ (v.nodes i).inode := by
  intro hp
  by_cases hj0 : j = 0
  · rw [hj0, h.root.2.2.2] at hp
    rw [(h.root_slot hi).mp hp.symm] at hd
    exact hd h.root.2.1
  · obtain ⟨p, hpu, hpd, hpi, _⟩ := h.attached j hj hj0
    rw [h.distinct p i hpu hi (by rw [hpi, hp])] at hpd
    exact hd hpd

/-- **The tree invariant.** In every state that calls lead to with fewer than `2 ^ 31` nodes ever
created, the tree is in shape, every parent chain ends at the root, and nothing hangs below a file
or a device. -/
theorem Vfs.reachable_tree (h : Run.Reach Vfs.Starts (Vfs.Steps fs) v) :
    TreeInv v
      ∧ (∀ i, (v.nodes i).used = true → ∃ k, (parentOf v)^[k] (v.nodes i).inode = vfsInodeRoot)
      ∧ ∀ i j, (v.nodes i).used = true → (v.nodes i).type ≠ .dir → (v.nodes j).used = true →
          (v.nodes j).parent ≠ (v.nodes i).inode := by
  have hT := (treeOk_reach h).1
  exact ⟨hT, fun i hu => hT.chain _ i hu (Nat.le_refl _), fun i j hi hd hj => hT.leaf hi hd hj⟩

/-- A machine with zeroed pages for the heap and none for shared memory. -/
def zeroedService : FrameService Nat :=
  { Client.zeroedFrames with
    alloc := fun s => (s, 0)
    free := fun s _ => s
    phys := fun _ _ => 0
    setPhys := fun s _ => s
    supply_alloc := fun _ => Nat.le_refl _
    supply_free := fun _ _ => Nat.le_refl _
    supply_setPhys := fun _ _ => Nat.le_refl _ }

/-- The file system as `vfs_init` leaves it, over an untouched heap. -/
def bootVfs : Vfs Nat := vfsInit 0 shmInit ⟨fun _ => 0, 0, 0, 64⟩

theorem bootVfs_starts : bootVfs.Starts := ⟨0, shmInit, _, by decide, Or.inl rfl⟩

/-- A directory made after boot sits in slot 9, two steps below the root. -/
theorem Vfs.reachable_tree_mkdir : ∃ v : Vfs Nat, Run.Reach Vfs.Starts (Vfs.Steps zeroedService) v
    ∧ (v.nodes 9).name = cstr "a" ∧ (parentOf v)^[2] (v.nodes 9).inode = vfsInodeRoot ∧ TreeInv v := by
  have hr : Run.Reach Vfs.Starts (Vfs.Steps zeroedService) (vfsMkdir bootVfs (cstr "/tmp/a")).1 :=
    .next (.start bootVfs_starts)
      ⟨.mkdir (cstr "/tmp/a"), fun _ _ => (0, fun _ => 0), 0, rfl, by decide +kernel⟩
  exact ⟨_, hr, by decide +kernel, by decide +kernel, (Vfs.reachable_tree hr).1⟩

end Reach

end VnlKernel
