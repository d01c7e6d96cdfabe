import VnlKernel.Proof.VfsFound

/-!
# Opens that fail

Below `/dev/shm` an open may make three things before it knows that it succeeds: an object with
the rest of the path as its name, a device node for it, and, when the path does not resolve even
then, a file. Nothing is taken back. An object is left behind by every such open without
`VFS_O_CREATE`, for one. Elsewhere a file is the only thing that is made, and it is opened.
-/

namespace VnlKernel

open ByteMem Bits

variable {σ : Type}

/-! ## What an open makes -/

/-- The inode number leads to something that can be opened. -/
def OpensTo (v : Vfs σ) (inode : Int) : Prop :=
  ∃ i, nodeGet v (toU32 inode) = some i ∧ (v.nodes i).type ≠ .dir

/-- There is a directory to make the path in, and a slot for the node. -/
def CanCreate (v : Vfs σ) (path : CStr) : Prop :=
  0 ≤ (resolveParent v path).1
    ∧ (∃ p, nodeGet v (toU32 (resolveParent v path).1) = some p ∧ (v.nodes p).type = .dir)
    ∧ ∃ i < vfsMaxNodes, (v.nodes i).used = false

/-- There is a file at the path, or there is nothing and a file can be made. -/
def OpensFile (v : Vfs σ) (path : CStr) (flags : Nat) : Prop :=
  (0 ≤ vfsResolve v path ∧ OpensTo v (vfsResolve v path))
    ∨ (vfsResolve v path < 0 ∧ hasFlag flags vfsOCreate = true ∧ CanCreate v path)

/-- The object behind a path below `/dev/shm`. -/
def objectOf (v : Vfs σ) (path : CStr) : Int := (shmOpenObject v.shm (path.drop 9)).2

/-- The file system once that object is there. -/
def withObject (v : Vfs σ) (path : CStr) : Vfs σ := { v with shm := (shmOpenObject v.shm (path.drop 9)).1 }

/-- The file system once there is a device node for the object. -/
def withDevice (v : Vfs σ) (path : CStr) : Vfs σ :=
  (vfsMknodChr (withObject v path) path devShmMajor (objectOf v path).toNat).1

/-- The path is one of an object, and there is such an object or room for it. -/
def ReachesObject (v : Vfs σ) (path : CStr) : Prop :=
  (∃ fd, freeFd v = some fd) ∧ path.take 9 = devShmPrefix ∧ 0 ≤ objectOf v path

/-- No object has the name, so one is made. -/
def MakesObject (v : Vfs σ) (path : CStr) : Prop :=
  ReachesObject v path ∧ ∀ i < shmMaxObjects, (v.shm i).used = true → (v.shm i).name ≠ path.drop 9

/-- Nothing is at the path, and a device node is made. -/
def MakesDevice (v : Vfs σ) (path : CStr) (flags : Nat) : Prop :=
  ReachesObject v path ∧ vfsResolve v path < 0 ∧ hasFlag flags vfsOCreate = true
    ∧ (resolveParent v path).2 ≠ [] ∧ CanCreate v path

/-- What the path leads to once the object and the node are there. -/
def OpensObject (v : Vfs σ) (path : CStr) (flags : Nat) : Prop :=
  (MakesDevice v path flags ∧ OpensFile (withDevice v path) path flags)
    ∨ (0 ≤ vfsResolve v path ∧ OpensTo v (vfsResolve v path))

/-- **`vfs_open` returns a descriptor.** -/
def OpenSucceeds (v : Vfs σ) (path : CStr) (flags : Nat) : Prop :=
  (∃ fd, freeFd v = some fd) ∧ if path.take 9 = devShmPrefix then 0 ≤ objectOf v path ∧ OpensObject v path flags
    else OpensFile v path flags

/-- Nothing is made in vain: where an object or a device node is made, the path leads to a file. -/
def OpenSpares (v : Vfs σ) (path : CStr) (flags : Nat) : Prop :=
  MakesObject v path ∨ MakesDevice v path flags → OpensObject v path flags

section Stages

variable {v v' : Vfs σ} {path : CStr} {flags fd : Nat} {inode r : Int}

theorem openInode_fails (h : ¬ OpensTo v inode) : openInode v fd flags inode = .done (v, -1) := by
  unfold openInode
  cases hg : nodeGet v (toU32 inode) with
  | none => rfl
  | some i =>
      dsimp only
      by_cases hd : (v.nodes i).type = .dir
      · rw [if_pos hd]
      · exact absurd ⟨i, hg, hd⟩ h

theorem openInode_opens (h : OpensTo v inode) (ho : openInode v fd flags inode = .done (v', r)) :
    0 ≤ r := by
  obtain ⟨i, hg, hd⟩ := h
  unfold openInode at ho
  rw [hg] at ho
  dsimp only at ho
  rw [if_neg hd] at ho
  split at ho
  · obtain ⟨heap, _, ho⟩ := Outcome.bind_eq_done ho
    cases ho
    omega
  · cases ho
    omega

theorem nodeAlloc_isSome : (∃ i, nodeAlloc v = some i) ↔ ∃ i < vfsMaxNodes,
    (v.nodes i).used = false := by
  constructor
  · rintro ⟨i, hi⟩
    exact ⟨i, nodeAlloc_some hi⟩
  · rintro ⟨i, hlt, hu⟩
    cases ha : nodeAlloc v with
    | some j => exact ⟨j, rfl⟩
    | none =>
        have := Scan.first_none ha i (Nat.zero_le _) (by omega)
        simp [hu] at this

/-- A node is made exactly where one can be made. -/
theorem createNode_isSome (h0 : 0 ≤ (resolveParent v path).1) (type : VFSNodeType)
    (major minor : Nat) :
    (∃ x, createNode v (resolveParent v path).1 (resolveParent v path).2 type major minor = some x)
      ↔ CanCreate v path := by
  unfold createNode
  constructor
  · rintro ⟨x, hx⟩
    cases hg : nodeGet v (toU32 (resolveParent v path).1) with
    | none => simp [hg] at hx
    | some p =>
        rw [hg] at hx
        dsimp only at hx
        by_cases hd : (v.nodes p).type = .dir
        · rw [if_neg (not_not.mpr hd)] at hx
          cases ha : nodeAlloc v with
          | none => simp [ha] at hx
          | some i => exact ⟨h0, ⟨p, hg, hd⟩, nodeAlloc_isSome.mp ⟨i, ha⟩⟩
        · simp [hd] at hx
  · rintro ⟨_, ⟨p, hg, hd⟩, hfree⟩
    obtain ⟨i, hi⟩ := nodeAlloc_isSome.mpr hfree
    rw [hg]
    dsimp only
    rw [if_neg (not_not.mpr hd), hi]
    exact ⟨_, rfl⟩

/-- What was made last is found by its number. -/
theorem createNode_found (hT : TreeInv v) (hn : v.nextInode + 1 < 2 ^ 32) {parent : Int}
    {leaf : CStr}
    {type : VFSNodeType} {major minor n : Nat}
    (h : createNode v parent leaf type major minor = some (v', n)) :
    TreeInv v' ∧ ∃ i, nodeGet v' n = some i ∧ (v'.nodes i).type = type ∧ n < 2 ^ 32 := by
  obtain ⟨p, i, hp, hd, hi, rfl, rfl⟩ := createNode_some h
  obtain ⟨_, hpu, hpi⟩ := nodeGet_some hp
  have hT' := hT.add leaf type major minor hpu hd hi hn
  rw [hpi] at hT'
  have hself : (addNode v i (freshNode v.nextInode (toU32 parent) leaf type major minor)).nodes i
      = freshNode v.nextInode (toU32 parent) leaf type major minor := Vfs.setNode_self _
  have hget := hT'.nodeGet_self (i := i) (by rw [hself]; rfl)
  rw [hself] at hget
  exact ⟨hT', i, hget, by rw [hself]; rfl, by omega⟩

theorem openCreate_opens (hT : TreeInv v) (hn : v.nextInode + 1 < 2 ^ 32)
    (h : OpensFile v path flags) :
    ∃ v₁ n, openCreate v path flags (vfsResolve v path) = (v₁, .inl n) ∧ OpensTo v₁ n := by
  unfold openCreate
  rcases h with ⟨h0, ho⟩ | ⟨h0, hflag, hc⟩
  · rw [if_neg (by omega)]
    exact ⟨v, _, rfl, ho⟩
  · obtain ⟨⟨v₁, n⟩, hx⟩ := (createNode_isSome hc.1 .file 0 0).mpr hc
    obtain ⟨hT', i, hget, htype, hlt⟩ := createNode_found hT hn hx
    rw [if_pos h0, hflag, Bool.not_true, if_neg (by decide)]
    dsimp only
    rw [if_neg (Int.not_lt.mpr hc.1), hx]
    refine ⟨v₁, _, rfl, i, ?_, ?_⟩
    · rw [toU32_toInt32 hlt]
      exact hget
    · rw [htype]
      decide

theorem openCreate_fails (h : ¬ OpensFile v path flags) :
    openCreate v path flags (vfsResolve v path) = (v, .inr (-1))
      ∨ (openCreate v path flags (vfsResolve v path) = (v, .inl (vfsResolve v path))
        ∧ ¬ OpensTo v (vfsResolve v path)) := by
  unfold openCreate
  by_cases h0 : vfsResolve v path < 0
  · left
    rw [if_pos h0]
    by_cases hflag : hasFlag flags vfsOCreate = true
    · rw [hflag, Bool.not_true, if_neg (by decide)]
      dsimp only
      by_cases hp : (resolveParent v path).1 < 0
      · rw [if_pos hp]
      · rw [if_neg hp]
        cases hc : createNode v (resolveParent v path).1 (resolveParent v path).2 .file 0 0 with
        | none => rfl
        | some x =>
            exact absurd (Or.inr ⟨h0, hflag, (createNode_isSome (by omega) .file 0 0).mp ⟨x, hc⟩⟩) h
    · rw [if_pos (by simpa using hflag)]
  · right
    rw [if_neg h0]
    exact ⟨rfl, fun ho => h (Or.inl ⟨by omega, ho⟩)⟩

/-- A creating call that works. -/
theorem makeNode_makes (h0 : vfsResolve v path < 0) (hleaf : (resolveParent v path).2 ≠ [])
    (hc : CanCreate v path) (type : VFSNodeType) (major minor : Nat) :
    (makeNode v path type major minor).2 = 0
      ∧ ∃ n, createNode v (resolveParent v path).1 (resolveParent v path).2 type major minor
        = some ((makeNode v path type major minor).1, n) := by
  obtain ⟨⟨v₁, n⟩, hx⟩ := (createNode_isSome hc.1 type major minor).mpr hc
  have hmake : makeNode v path type major minor = (v₁, 0) := by
    unfold makeNode
    rw [if_neg (by omega)]
    dsimp only
    rw [if_neg (not_or.mpr ⟨Int.not_lt.mpr hc.1, hleaf⟩), hx]
  rw [hmake]
  exact ⟨rfl, n, hx⟩

/-- A creating call that does not. -/
theorem makeNode_refuses (h : ¬ (vfsResolve v path < 0 ∧ (resolveParent v path).2 ≠ []
    ∧ CanCreate v path))
    (type : VFSNodeType) (major minor : Nat) : makeNode v path type major minor = (v, -1) := by
  unfold makeNode
  by_cases h0 : vfsResolve v path < 0
  · rw [if_neg (by omega)]
    dsimp only
    by_cases hok : (resolveParent v path).1 < 0 ∨ (resolveParent v path).2 = []
    · rw [if_pos hok]
    · rw [if_neg hok]
      rw [not_or] at hok
      cases hc : createNode v (resolveParent v path).1
        (resolveParent v path).2 type major minor with
      | none => rfl
      | some x => exact absurd ⟨h0, hok.2, (createNode_isSome (by omega) type major minor).mp ⟨x, hc⟩⟩ h
  · rw [if_pos (by omega)]

end Stages

/-! ## Paths of objects -/

section Objects

variable {v v' : Vfs σ} {path : CStr} {flags : Nat} {r : Int}

theorem withObject_sameTree (v : Vfs σ) (path : CStr) : SameTree v (withObject v path) :=
  .of_nodes rfl rfl rfl

theorem withObject_resolve : vfsResolve (withObject v path) path = vfsResolve v path :=
  (withObject_sameTree v path).resolve_eq rfl path

theorem withObject_resolveParent : resolveParent (withObject v path) path = resolveParent v path :=
  (withObject_sameTree v path).resolveParent_eq rfl path

theorem withObject_canCreate : CanCreate (withObject v path) path ↔ CanCreate v path := by
  unfold CanCreate
  rw [withObject_resolveParent]
  exact Iff.rfl

/-- The device node is made. -/
theorem withDevice_made (hm : MakesDevice v path flags) :
    (vfsMknodChr (withObject v path) path devShmMajor (objectOf v path).toNat).2 = 0
      ∧ ∃ n, createNode (withObject v path) (resolveParent v path).1 (resolveParent v path).2 .chr
        (devShmMajor % 2 ^ 16) ((objectOf v path).toNat % 2 ^ 16)
          = some (withDevice v path, n) := by
  obtain ⟨_, h0, _, hleaf, hc⟩ := hm
  rw [← withObject_resolveParent]
  exact makeNode_makes (by rw [withObject_resolve]; exact h0)
    (by rw [withObject_resolveParent]; exact hleaf)
    (withObject_canCreate.mpr hc) .chr _ _

/-- **The first part of `vfs_open`** on the path of an object that there is, or is room for. -/
theorem openLookup_object (ho : ReachesObject v path) :
    (MakesDevice v path flags ∧ openLookup v path flags
        = (withDevice v path, .inl (vfsResolve (withDevice v path) path)))
      ∨ (¬ MakesDevice v path flags ∧ 0 ≤ vfsResolve v path
        ∧ openLookup v path flags = (withObject v path, .inl (vfsResolve v path)))
      ∨ (¬ MakesDevice v path flags ∧ vfsResolve v path < 0
        ∧ openLookup v path flags = (withObject v path, .inr (-1))) := by
  obtain ⟨_, hp, hidx⟩ := id ho
  have hlookup : openLookup v path flags = if vfsResolve v path < 0 then
        if !hasFlag flags vfsOCreate then (withObject v path, .inr (-1))
        else if (vfsMknodChr (withObject v path) path devShmMajor (objectOf v path).toNat).2 < 0 then
          ((vfsMknodChr (withObject v path) path devShmMajor (objectOf v path).toNat).1, .inr (-1))
        else
          ((vfsMknodChr (withObject v path) path devShmMajor (objectOf v path).toNat).1,
            .inl (vfsResolve (vfsMknodChr (withObject v path) path devShmMajor
              (objectOf v path).toNat).1 path))
      else (withObject v path, .inl (vfsResolve v path)) := by
    rw [← withObject_resolve]
    unfold openLookup
    rw [if_pos hp]
    exact if_neg (Int.not_lt.mpr hidx)
  rw [hlookup]
  by_cases h0 : vfsResolve v path < 0
  · rw [if_pos h0]
    by_cases hflag : hasFlag flags vfsOCreate = true
    · rw [hflag, Bool.not_true, if_neg (by decide)]
      by_cases hmake : (resolveParent v path).2 ≠ [] ∧ CanCreate v path
      · have hm : MakesDevice v path flags := ⟨ho, h0, hflag, hmake.1, hmake.2⟩
        left
        refine ⟨hm, ?_⟩
        rw [(withDevice_made hm).1, if_neg (by decide)]
        rfl
      · have hrefused : vfsMknodChr (withObject v path) path devShmMajor (objectOf v path).toNat
            = (withObject v path, -1) := by
          refine makeNode_refuses (fun h => hmake ?_) .chr _ _
          rw [withObject_resolveParent, withObject_canCreate] at h
          exact h.2
        right; right
        refine ⟨fun hm => hmake ⟨hm.2.2.2.1, hm.2.2.2.2⟩, h0, ?_⟩
        rw [hrefused]
        rfl
    · right; right
      exact ⟨fun hm => hflag hm.2.2.1, h0, by rw [if_pos (by simpa using hflag)]⟩
  · right; left
    exact ⟨fun hm => h0 hm.2.1, by omega, by rw [if_neg h0]⟩

/-- What the first part leaves. -/
structure LeftBehind (v : Vfs σ) (path : CStr) (flags : Nat) (v' : Vfs σ) : Prop where
  device : MakesDevice v path flags → v' = withDevice v path
  object : ReachesObject v path → ¬ MakesDevice v path flags → v' = withObject v path
  nothing : ¬ ReachesObject v path → v' = v

/-- **An open that fails** leaves what the first part has made. -/
theorem vfsOpen_fails (h : ¬ OpenSucceeds v path flags) :
    ∃ v' r, vfsOpen v path flags = .done (v', r) ∧ r < 0 ∧ LeftBehind v path flags v' := by
  unfold vfsOpen
  cases hfd : freeFd v with
  | none =>
      have hno : ¬ ReachesObject v path := fun ho => by
        obtain ⟨fd, hsome⟩ := ho.1
        rw [hfd] at hsome
        cases hsome
      exact ⟨v, -1, rfl, by decide, fun hm => absurd hm.1 hno, fun ho => absurd ho hno, fun _ => rfl⟩
  | some fd =>
      dsimp only
      by_cases hp : path.take 9 = devShmPrefix
      · -- a name of the shared memory, whose object is there or could be made
        by_cases hidx : 0 ≤ objectOf v path
        · have ho : ReachesObject v path := ⟨⟨fd, hfd⟩, hp, hidx⟩
          have hno : ¬ OpensObject v path flags := fun hopens => by
            refine h ⟨⟨fd, hfd⟩, ?_⟩
            rw [if_pos hp]
            exact ⟨hidx, hopens⟩
          -- its device file is missing, is there, or cannot be had
          rcases openLookup_object ho with ⟨hm, hl⟩ | ⟨hm, h0, hl⟩ | ⟨hm, h0, hl⟩
          · rw [hl]
            have hleft : LeftBehind v path flags (withDevice v path) :=
              ⟨fun _ => rfl, fun _ hn => absurd hm hn, fun hn => absurd ho hn⟩
            have hfile : ¬ OpensFile (withDevice v path) path flags :=
              fun hf => hno (Or.inl ⟨hm, hf⟩)
            rcases openCreate_fails hfile with hc | ⟨hc, hopen⟩
            · dsimp only
              rw [hc]
              exact ⟨_, _, rfl, by decide, hleft⟩
            · dsimp only
              rw [hc]
              dsimp only
              rw [openInode_fails hopen]
              exact ⟨_, _, rfl, by decide, hleft⟩
          · rw [hl]
            dsimp only
            -- the path resolves, so nothing is created
            have hcreate : openCreate (withObject v path) path flags (vfsResolve v path)
                = (withObject v path, .inl (vfsResolve v path)) := if_neg (by omega)
            have hopen : ¬ OpensTo (withObject v path) (vfsResolve v path) := fun hopen =>
              hno (Or.inr ⟨h0, hopen⟩)
            rw [hcreate]
            dsimp only
            rw [openInode_fails hopen]
            exact ⟨_, _, rfl, by decide, fun hd => absurd hd hm, fun _ _ => rfl, fun hn => absurd ho hn⟩
          · rw [hl]
            exact ⟨_, _, rfl, by decide, fun hd => absurd hd hm, fun _ _ => rfl, fun hn => absurd ho hn⟩
        · have hno : ¬ ReachesObject v path := fun ho => hidx ho.2.2
          have hl : openLookup v path flags = (v, .inr (objectOf v path)) := by
            unfold openLookup
            rw [if_pos hp]
            dsimp only
            exact if_pos (Int.not_le.mp hidx)
          rw [hl]
          exact ⟨_, _, rfl, by omega, fun hm => absurd hm.1 hno, fun ho => absurd ho hno, fun _ => rfl⟩
      · have hno : ¬ ReachesObject v path := fun ho => hp ho.2.1
        -- a path of the file tree: the first part makes nothing
        have hleft : LeftBehind v path flags v :=
          ⟨fun hm => absurd hm.1 hno, fun ho => absurd ho hno, fun _ => rfl⟩
        have hl : openLookup v path flags = (v, .inl (vfsResolve v path)) := if_neg hp
        have hfile : ¬ OpensFile v path flags := fun hf => by
          refine h ⟨⟨fd, hfd⟩, ?_⟩
          rw [if_neg hp]
          exact hf
        rw [hl]
        rcases openCreate_fails hfile with hc | ⟨hc, hopen⟩
        · dsimp only
          rw [hc]
          exact ⟨_, _, rfl, by decide, hleft⟩
        · dsimp only
          rw [hc]
          dsimp only
          rw [openInode_fails hopen]
          exact ⟨_, _, rfl, by decide, hleft⟩

/-- **An open that has what it needs** succeeds. -/
theorem vfsOpen_opens (hT : TreeInv v) (hn : v.nextInode + 2 < 2 ^ 32)
    (h : OpenSucceeds v path flags)
    (ho : vfsOpen v path flags = .done (v', r)) : 0 ≤ r := by
  obtain ⟨⟨fd, hfd⟩, h⟩ := h
  unfold vfsOpen at ho
  rw [hfd] at ho
  dsimp only at ho
  by_cases hp : path.take 9 = devShmPrefix
  · rw [if_pos hp] at h
    obtain ⟨hidx, hopens⟩ := h
    have hreaches : ReachesObject v path := ⟨⟨fd, hfd⟩, hp, hidx⟩
    rcases @openLookup_object _ _ path flags hreaches with ⟨hm, hl⟩ | ⟨hm, h0, hl⟩ | ⟨hm, h0, hl⟩
    · rw [hl] at ho
      -- the node that was made keeps the tree in shape
      obtain ⟨n, hmade⟩ := (withDevice_made hm).2
      obtain ⟨p, i, _, _, _, _, hadd⟩ := createNode_some hmade
      have hTobj : TreeInv (withObject v path) := hT.same (withObject_sameTree v path)
      have hnext : (withDevice v path).nextInode = u32 (v.nextInode + 1) := by
        rw [hadd]
        rfl
      have hT₁ := (createNode_found hTobj (by show v.nextInode + 1 < 2 ^ 32; omega) hmade).1
      have hfile : OpensFile (withDevice v path) path flags := by
        rcases hopens with ⟨_, hf⟩ | ⟨h0, _⟩
        · exact hf
        · exact absurd hm.2.1 (by omega)
      have hn₁ : (withDevice v path).nextInode + 1 < 2 ^ 32 := by
        rw [hnext, show u32 (v.nextInode + 1) = v.nextInode + 1 from Nat.mod_eq_of_lt (by omega)]
        omega
      obtain ⟨v₂, m, hc, hopen⟩ := openCreate_opens hT₁ hn₁ hfile
      dsimp only at ho
      rw [hc] at ho
      exact openInode_opens hopen ho
    · rw [hl] at ho
      have hfile : OpensFile (withObject v path) path flags := by
        rcases hopens with ⟨hd, _⟩ | ⟨_, hopen⟩
        · exact absurd hd hm
        · refine Or.inl ?_
          rw [withObject_resolve]
          exact ⟨h0, hopen⟩
      obtain ⟨v₁, m, hc, hopen⟩ := openCreate_opens (hT.same (withObject_sameTree v path))
        (by show v.nextInode + 1 < 2 ^ 32; omega) hfile
      rw [withObject_resolve] at hc
      dsimp only at ho
      rw [hc] at ho
      exact openInode_opens hopen ho
    · rcases hopens with ⟨hd, _⟩ | ⟨hres, _⟩
      · exact absurd hd hm
      · omega
  · rw [if_neg hp] at h
    have hl : openLookup v path flags = (v, .inl (vfsResolve v path)) := if_neg hp
    obtain ⟨v₁, m, hc, hopen⟩ := openCreate_opens hT (by omega) h
    rw [hl] at ho
    dsimp only at ho
    rw [hc] at ho
    exact openInode_opens hopen ho

end Objects

/-! ## Leaving everything as it was -/

/-- An open that fails leaves the tables alone. -/
def FailedOpenKeeps (v : Vfs σ) (path : CStr) (flags : Nat) : Prop :=
  ∀ v' r, vfsOpen v path flags = .done (v', r) → r < 0 →
    v'.nodes = v.nodes ∧ v'.nextInode = v.nextInode ∧ v'.fds = v.fds ∧ v'.shm = v.shm

/-- An open that makes nothing in vain, and fails. -/
def FailsSparing (v v' : Vfs σ) : Prop :=
  ∃ path flags r, OpenSpares v path flags ∧ vfsOpen v path flags = .done (v', r) ∧ r < 0

section Tables

variable {v v' : Vfs σ} {path : CStr} {flags : Nat} {r : Int}

/-- An object that is there already changes nothing. -/
theorem withObject_found (ho : ReachesObject v path) (h : ¬ MakesObject v path) :
    withObject v path = v := by
  obtain ⟨i, hi, hu, hname⟩ : ∃ i < shmMaxObjects, (v.shm i).used = true
      ∧ (v.shm i).name = path.drop 9 := by
    by_contra hnone
    exact h ⟨ho, fun i hi hu hn => hnone ⟨i, hi, hu, hn⟩⟩
  have hshm : (shmOpenObject v.shm (path.drop 9)).1 = v.shm := by
    unfold shmOpenObject
    cases hs : Scan.first (fun i => (v.shm i).used && (v.shm i).name = path.drop 9) shmMaxObjects 0
      with
    | some j => rfl
    | none =>
        have := Scan.first_none hs i (Nat.zero_le _) (by omega)
        simp [hu, hname] at this
  unfold withObject
  rw [hshm]

/-- An object that is made is one more. -/
theorem withObject_made (h : MakesObject v path) : (withObject v path).shm ≠ v.shm := by
  obtain ⟨⟨_, _, hidx⟩, hnone⟩ := h
  unfold objectOf at hidx
  unfold withObject
  unfold shmOpenObject at hidx ⊢
  have hnot : Scan.first (fun i => (v.shm i).used && (v.shm i).name = path.drop 9) shmMaxObjects 0
      = none := by
    cases hs : Scan.first (fun i => (v.shm i).used && (v.shm i).name = path.drop 9) shmMaxObjects 0
      with
    | none => rfl
    | some j =>
        obtain ⟨hp, _, hlt, _⟩ := Scan.first_some hs
        simp only [Bool.and_eq_true, decide_eq_true_eq] at hp
        exact absurd hp.2 (hnone j (by omega) hp.1)
  rw [hnot] at hidx ⊢
  cases hfree : Scan.first (fun i => !(v.shm i).used) shmMaxObjects 0 with
  | none =>
      rw [hfree] at hidx
      dsimp only at hidx
      exact absurd hidx (by decide)
  | some j =>
      obtain ⟨hp, _, _, _⟩ := Scan.first_some hfree
      intro hsame
      have hj := congrArg ShmObject.used (congrFun hsame j)
      simp only [Bool.not_eq_true'] at hp
      simp [ShmTable.set, hp] at hj

/-- A device node that is made is one more. -/
theorem withDevice_nodes (h : MakesDevice v path flags) : (withDevice v path).nodes ≠ v.nodes := by
  obtain ⟨n, hmade⟩ := (withDevice_made h).2
  obtain ⟨p, i, _, _, hi, _, hadd⟩ := createNode_some hmade
  have hfree : (v.nodes i).used = false := (nodeAlloc_some hi).2
  intro hsame
  have hi := congrArg VFSNode.used (congrFun hsame i)
  rw [hadd, hfree] at hi
  have hself : ((addNode (withObject v path) i (freshNode (withObject v path).nextInode
      (toU32 (resolveParent v path).1) (resolveParent v path).2 .chr (devShmMajor % 2 ^ 16)
      ((objectOf v path).toNat % 2 ^ 16))).nodes i).used = true :=
    congrArg VFSNode.used (Vfs.setNode_self _)
  rw [hself] at hi
  cases hi

/-- What leads to a file is opened. -/
theorem OpensObject.succeeds (ho : ReachesObject v path) (h : OpensObject v path flags) :
    OpenSucceeds v path flags := by
  refine ⟨ho.1, ?_⟩
  rw [if_pos ho.2.1]
  exact ⟨ho.2.2, h⟩

/-- An open that makes nothing in vain changes nothing when it fails. -/
theorem vfsOpen_spares (hT : TreeOk v) (hs : OpenSpares v path flags)
    (h : vfsOpen v path flags = .done (v', r)) (hr : r < 0) : v' = v := by
  have hno : ¬ OpenSucceeds v path flags := fun hyes => by
    have hnum := hT.2
    have := vfsOpen_opens hT.1 (by omega) hyes h
    omega
  have hreach : MakesObject v path ∨ MakesDevice v path flags → ReachesObject v path := by
    rintro (hm | hm)
    · exact hm.1
    · exact hm.1
  have hnone : ¬ (MakesObject v path ∨ MakesDevice v path flags) :=
    fun hm => hno ((hs hm).succeeds (hreach hm))
  rw [not_or] at hnone
  obtain ⟨v₁, r₁, hfail, _, hleft⟩ := vfsOpen_fails hno
  rw [h] at hfail
  cases hfail
  by_cases ho : ReachesObject v path
  · rw [hleft.object ho hnone.2, withObject_found ho hnone.1]
  · exact hleft.nothing ho

theorem failedOpenKeeps_iff (hT : TreeOk v) : FailedOpenKeeps v path flags
    ↔ OpenSpares v path flags := by
  constructor
  · intro hkeeps hmakes
    by_contra hno
    have ho : ReachesObject v path := by
      rcases hmakes with hm | hm
      · exact hm.1
      · exact hm.1
    have hfails : ¬ OpenSucceeds v path flags := by
      rintro ⟨_, h⟩
      rw [if_pos ho.2.1] at h
      exact hno h.2
    obtain ⟨v', r, hopen, hr, hleft⟩ := vfsOpen_fails hfails
    obtain ⟨hnodes, _, _, hshm⟩ := hkeeps v' r hopen hr
    by_cases hd : MakesDevice v path flags
    · -- the device node stays
      rw [hleft.device hd] at hnodes
      exact withDevice_nodes hd hnodes
    · -- the object stays
      rw [hleft.object ho hd] at hshm
      rcases hmakes with hm | hm
      · exact withObject_made hm hshm
      · exact hd hm
  · intro hs v' r h hr
    rw [vfsOpen_spares hT hs h hr]
    exact ⟨rfl, rfl, rfl, rfl⟩

end Tables

/-- **A failed open changes nothing** exactly where nothing is made in vain. Any number of such
opens leave the file system as it is. -/
theorem Vfs.failed_open_keeps_iff {fs : FrameService σ} {v : Vfs σ}
    (h : Run.Reach Vfs.Starts (Vfs.Steps fs) v) :
    (∀ path flags, FailedOpenKeeps v path flags ↔ OpenSpares v path flags)
      ∧ ∀ v', Run.Reach (fun w => w = v) FailsSparing v' → v' = v := by
  have hT := treeOk_reach h
  refine ⟨fun path flags => failedOpenKeeps_iff hT, fun v' hr => ?_⟩
  induction hr with
  | start hv => exact hv
  | next _ hstep ih =>
      obtain ⟨path, flags, r, hs, hopen, hneg⟩ := hstep
      rw [ih] at hs hopen
      exact vfsOpen_spares hT hs hopen hneg

/-- A file that there is not, in the file system as it starts: the open fails, and makes nothing. -/
theorem Vfs.failed_open_keeps_boot : FailsSparing bootVfs bootVfs ∧ FailedOpenKeeps bootVfs (cstr "/none/x") vfsORead
    ∧ ∀ v', Run.Reach (fun w => w = bootVfs) FailsSparing v' → v' = bootVfs := by
  have hspares : OpenSpares bootVfs (cstr "/none/x") vfsORead := by
    intro hmakes
    have hprefix : (cstr "/none/x").take 9 ≠ devShmPrefix := by decide
    rcases hmakes with h | h
    · exact absurd h.1.2.1 hprefix
    · exact absurd h.1.2.1 hprefix
  have hboth := Vfs.failed_open_keeps_iff (.start bootVfs_starts : Run.Reach Vfs.Starts
    (Vfs.Steps zeroedService) bootVfs)
  obtain ⟨⟨v', r⟩, hopen, hr⟩ := Outcome.of_get? (x := vfsOpen bootVfs (cstr "/none/x") vfsORead)
    (f := fun x => x.2) (b := -1) (by decide +kernel)
  dsimp only at hr
  subst hr
  have hsame : v' = bootVfs := hboth.2 v' (.next (.start rfl) ⟨_, _, -1, hspares, hopen, by decide⟩)
  rw [hsame] at hopen
  exact ⟨⟨_, _, -1, hspares, hopen, by decide⟩, (hboth.1 _ _).mpr hspares, hboth.2⟩

/-- Opening `/dev/shm/x` for reading, with no such object: there is one afterwards. -/
theorem Vfs.failed_open_leaks : Run.Reach Vfs.Starts (Vfs.Steps zeroedService) (devfsInit bootVfs)
    ∧ ∃ v', vfsOpen (devfsInit bootVfs) (cstr "/dev/shm/x") vfsORead = .done (v', -1)
      ∧ ((devfsInit bootVfs).shm 0).used = false ∧ (v'.shm 0).used = true
      ∧ ¬ FailedOpenKeeps (devfsInit bootVfs) (cstr "/dev/shm/x") vfsORead := by
  obtain ⟨⟨v', r⟩, hopen, hfacts⟩ := Outcome.of_get?
    (x := vfsOpen (devfsInit bootVfs) (cstr "/dev/shm/x") vfsORead)
    (f := fun (x : Vfs Nat × Int) => decide (x.2 = -1 ∧ ((devfsInit bootVfs).shm 0).used = false
      ∧ (x.1.shm 0).used = true))
    (b := true) (by decide +kernel)
  obtain ⟨hr, hfree, hused⟩ := of_decide_eq_true hfacts
  dsimp only at hr hused
  subst hr
  refine ⟨.start ⟨0, shmInit, _, by decide, Or.inr rfl⟩, v', hopen, hfree, hused, fun hkeeps => ?_⟩
  obtain ⟨_, _, _, hshm⟩ := hkeeps v' (-1) hopen (by decide)
  rw [hshm, hfree] at hused
  cases hused

end VnlKernel
