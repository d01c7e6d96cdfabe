import VnlKernel.Proof.ShmFlat
import VnlKernel.Proof.VfsDenote
import VnlKernel.Proof.VfsNames

/-!
# The name of a shared memory object

`vfs_open` on `/dev/shm/name` looks the name up twice: among the objects, and in the
directory. The descriptor follows the directory entry, whose minor number says which
object it is. So descriptors opened on one name share an object as long as the path leads
to one entry, and it does while no other entry of that name is created in front of it.

Where the two path parsers agree no such entry is created. Beside the file system runs
which descriptors were opened on the name since it was last unlinked.
-/

namespace VnlKernel

open Bits

variable {σ : Type}

def shmPath (name : CStr) : CStr := devShmPrefix ++ name

/-- The text `"dev"`. -/
def devDirName : CStr := [0x64, 0x65, 0x76]

/-- The text `"shm"`. -/
def shmDirName : CStr := [0x73, 0x68, 0x6D]

/-- Slots `d` and `s` are `/dev` and `/dev/shm`. -/
structure OnWay (v : Vfs σ) (d s : Nat) : Prop where
  dev : (v.nodes d).used = true ∧ (v.nodes d).parent = vfsInodeRoot ∧ (v.nodes d).name = devDirName
  shm : (v.nodes s).used = true ∧ (v.nodes s).parent = (v.nodes d).inode
    ∧ (v.nodes s).name = shmDirName

/-- The path leads to slot `i`, by way of the two directories. -/
inductive Leads (v : Vfs σ) (name : CStr) (i : Nat) : Prop
  | here {d : Nat} (h : OnWay v d i) (hn : name = [] ∨ name = dot)
  | below {d s : Nat} (h : OnWay v d s) (hn : ProperName name)
      (hi : (v.nodes i).used = true ∧ (v.nodes i).parent = (v.nodes s).inode ∧ (v.nodes i).name = name)

section Resolve

variable {v v' : Vfs σ} {name : CStr} {d s i : Nat}

theorem Leads.used (h : Leads v name i) : (v.nodes i).used = true := by
  cases h with
  | here h _ => exact h.shm.1
  | below _ _ hi => exact hi.1

theorem properName_dev : ProperName devDirName := by
  unfold ProperName
  decide

theorem properName_shm : ProperName shmDirName := by
  unfold ProperName
  decide

/-- The number of `/dev/shm`, as the walk finds it. -/
def shmDirOf (v : Vfs σ) : Option Nat :=
  (advance v vfsInodeRoot devDirName).bind fun dev => advance v dev shmDirName

theorem vfsResolve_shmDir (v : Vfs σ) :
    vfsResolve v (devShmPrefix.take 8) = ((shmDirOf v).map toInt32).getD (-1) := by
  have h1 : walk v vfsInodeRoot (devDirName ++ slash :: shmDirName) = shmDirOf v := by
    rw [walk_through v shmDirName _ devDirName _ (Nat.le_refl _) (by decide) (by decide),
      walk_leaf v _ (by decide) (by decide) (by decide)]
    unfold shmDirOf
    congr 1
    funext dev
    exact walk_leaf v _ (by decide) (by decide) (by decide)
  rw [← h1]
  exact vfsResolve_walk v slash (devDirName ++ slash :: shmDirName)

theorem vfsResolve_shmPath (v : Vfs σ) (name : CStr) : vfsResolve v (shmPath name)
    = (((shmDirOf v).bind fun s => walk v s name).map toInt32).getD (-1) := by
  have h1 : walk v vfsInodeRoot (devDirName ++ slash :: (shmDirName ++ slash :: name))
      = (shmDirOf v).bind fun s => walk v s name := by
    rw [walk_through v _ _ devDirName _ (Nat.le_refl _) (by decide) (by decide),
      walk_leaf v _ (by decide) (by decide) (by decide)]
    unfold shmDirOf
    rw [Option.bind_assoc]
    congr 1
    funext dev
    rw [walk_through v name _ shmDirName _ (Nat.le_refl _) (by decide) (by decide),
      walk_leaf v _ (by decide) (by decide) (by decide)]
  rw [← h1]
  exact vfsResolve_walk v slash (devDirName ++ slash :: (shmDirName ++ slash :: name))

theorem OnWay.shmDirOf_eq (h : OnWay v d s) (hN : NameInv v) :
    shmDirOf v = some (v.nodes s).inode := by
  obtain ⟨hd, hdp, hdn⟩ := h.dev
  obtain ⟨hs, hsp, hsn⟩ := h.shm
  have h1 := hN.named.findChild_self hN.tree.1 hd
  have h2 := hN.named.findChild_self hN.tree.1 hs
  rw [hdp, hdn] at h1
  rw [hsp, hsn] at h2
  unfold shmDirOf
  rw [advance_proper v _ properName_dev, h1]
  show advance v (v.nodes d).inode shmDirName = _
  rw [advance_proper v _ properName_shm, h2]
  rfl

theorem shmDirOf_some {n : Nat} (h : shmDirOf v = some n) :
    ∃ d s, OnWay v d s ∧ (v.nodes s).inode = n := by
  unfold shmDirOf at h
  obtain ⟨dev, h1, h2⟩ := Option.bind_eq_some_iff.mp h
  rw [advance_proper v _ properName_dev] at h1
  rw [advance_proper v _ properName_shm] at h2
  obtain ⟨d, hd, rfl⟩ := Option.map_eq_some_iff.mp h1
  obtain ⟨s, hs, rfl⟩ := Option.map_eq_some_iff.mp h2
  obtain ⟨_, hd1, hd2, hd3⟩ := findChild_some hd
  obtain ⟨_, hs1, hs2, hs3⟩ := findChild_some hs
  exact ⟨d, s, ⟨⟨hd1, hd2, hd3⟩, hs1, hs2, hs3⟩, rfl⟩

/-- **The path resolves to what it leads to.** -/
theorem Leads.resolve (h : Leads v name i) (hN : NameInv v) (hsl : slash ∉ name)
    (hlen : name.length ≤ 63) : vfsResolve v (shmPath name) = ((v.nodes i).inode : Nat) := by
  have hlt : (v.nodes i).inode < 2 ^ 31 := Nat.lt_of_lt_of_le (hN.tree.1.below i h.used) hN.tree.2
  rw [vfsResolve_shmPath]
  cases h with
  | here h hn =>
      rw [h.shmDirOf_eq hN]
      have hstay : walk v (v.nodes i).inode name = some (v.nodes i).inode := by
        rcases hn with rfl | rfl
        · exact resolveLoop_nil v _ _
        · rw [walk_leaf v _ (by decide) (by decide) (by decide)]
          rfl
      show ((walk v (v.nodes i).inode name).map toInt32).getD (-1) = _
      rw [hstay]
      exact toInt32_of_lt hlt
  | @below d s h hn hi =>
      obtain ⟨hu, hp, hname⟩ := hi
      have hchild := hN.named.findChild_self hN.tree.1 hu
      rw [hp, hname] at hchild
      rw [h.shmDirOf_eq hN]
      show ((walk v (v.nodes s).inode name).map toInt32).getD (-1) = _
      rw [walk_leaf v _ hn.1 hsl hlen, advance_proper v _ hn, hchild]
      exact toInt32_of_lt hlt

/-- A path that resolves to something other than a directory leads to it. -/
theorem leads_of_resolve (hN : NameInv v) (hsl : slash ∉ name) (hlen : name.length ≤ 63)
    (h0 : 0 ≤ vfsResolve v (shmPath name))
    (hi : nodeGet v (toU32 (vfsResolve v (shmPath name))) = some i)
    (hd : (v.nodes i).type ≠ .dir) : Leads v name i := by
  obtain ⟨_, hused, hinode⟩ := nodeGet_some hi
  have hlt : ∀ j, (v.nodes j).used = true → (v.nodes j).inode < 2 ^ 31 := fun j hj =>
    Nat.lt_of_lt_of_le (hN.tree.1.below j hj) hN.tree.2
  rw [vfsResolve_shmPath] at h0 hinode
  cases hdir : shmDirOf v with
  | none =>
      rw [hdir] at h0
      change (0 : Int) ≤ -1 at h0
      omega
  | some n =>
      obtain ⟨d, s, hway, rfl⟩ := shmDirOf_some hdir
      rw [hdir] at h0 hinode
      change 0 ≤ ((walk v (v.nodes s).inode name).map toInt32).getD (-1) at h0
      change (v.nodes i).inode = toU32 (((walk v (v.nodes s).inode name).map toInt32).getD (-1))
        at hinode
      -- a slot with the number that the walk comes to
      have hslot : ∀ j, (v.nodes j).used = true →
          walk v (v.nodes s).inode name = some (v.nodes j).inode → i = j := by
        intro j hj hw
        rw [hw] at hinode
        refine hN.tree.1.distinct i j hused hj (hinode.trans ?_)
        show toU32 (toInt32 (v.nodes j).inode) = _
        exact toU32_toInt32 (Nat.lt_trans (hlt j hj) (by decide))
      by_cases hnil : name = []
      · have := hslot s hway.shm.1 (by rw [hnil]; exact resolveLoop_nil v _ _)
        rw [this]
        exact .here hway (Or.inl hnil)
      · rw [walk_leaf v _ hnil hsl hlen] at hslot h0
        by_cases hdot : name = dot
        · have := hslot s hway.shm.1 (by rw [hdot]; rfl)
          rw [this]
          exact .here hway (Or.inr hdot)
        · by_cases hdd : name = dotdot
          · -- `/dev` is a directory
            have hsd := hslot d hway.dev.1 (by
              unfold advance
              rw [if_neg hdot, if_pos hdd, hN.tree.1.nodeGet_self hway.shm.1, ← hway.shm.2.1])
            rw [hsd] at hd
            exact absurd hway.shm.2.1 (hN.tree.1.leaf hway.dev.1 hd hway.shm.1)
          · have hproper : ProperName name := ⟨hnil, hsl, hdot, hdd⟩
            rw [advance_proper v _ hproper] at hslot h0
            cases hc : findChild v (v.nodes s).inode name with
            | none =>
                rw [hc] at h0
                change (0 : Int) ≤ -1 at h0
                omega
            | some j =>
                obtain ⟨_, hj, hjp, hjn⟩ := findChild_some hc
                have := hslot j hj (by rw [hc]; rfl)
                rw [this]
                exact .below hway hproper ⟨hj, hjp, hjn⟩

end Resolve

/-! ## Steps -/

section Steps

variable {v v' : Vfs σ} {name : CStr} {i j : Nat}

/-- A node that is still there is where it was. -/
theorem TreeEdit.place_kept {path : CStr} (he : TreeEdit path v v')
    (hused : (v.nodes j).used = true)
    (hused' : (v'.nodes j).used = true) : (v'.nodes j).place = (v.nodes j).place := by
  cases he with
  | same hs => exact hs.place j
  | created _ hc hs => rw [hs.place j, hc.keeps hused]
  | @removed i _ _ _ _ hs =>
      have hji : j ≠ i := by
        rintro rfl
        rw [(hs.fields j).1, Vfs.setNode_self] at hused'
        exact absurd hused' (by simp [VFSNode.zero])
      rw [hs.place j, Vfs.setNode_ne _ hji]

/-- A directory with a node in it stays. -/
theorem TreeEdit.parent_stays {path : CStr} (he : TreeEdit path v v') (hT : TreeInv v) {p : Nat}
    (hp : (v.nodes p).used = true) (hj : (v.nodes j).used = true)
    (hpar : (v.nodes j).parent = (v.nodes p).inode) : (v'.nodes p).used = true := by
  cases he with
  | same hs => rw [(hs.fields p).1]; exact hp
  | created _ hc hs => rw [(hs.fields p).1, hc.keeps hp]; exact hp
  | @removed x _ hx hroot hempty hs =>
      rw [(hs.fields p).1]
      by_cases hpx : p = x
      · subst hpx
        by_cases hdir : (v.nodes p).type = .dir
        · exact absurd hpar (hempty hdir j (hT.bound j hj) hj)
        · exact absurd hpar (hT.leaf hp hdir hj)
      · rw [Vfs.setNode_ne _ hpx]; exact hp

theorem OnWay.edit {path : CStr} {d s : Nat} (h : OnWay v d s) (hT : TreeInv v)
    (he : TreeEdit path v v') (hs : (v'.nodes s).used = true) : OnWay v' d s := by
  obtain ⟨hd1, hd2, hd3⟩ := h.dev
  obtain ⟨hs1, hs2, hs3⟩ := h.shm
  have hd' := he.parent_stays hT hd1 hs1 hs2
  have hplace := he.place_kept hs1 hs
  have hplace' := he.place_kept hd1 hd'
  simp only [VFSNode.place, Prod.mk.injEq] at hplace hplace'
  obtain ⟨_, _, _, hp, hn⟩ := hplace
  obtain ⟨_, _, hi', hp', hn'⟩ := hplace'
  exact ⟨⟨hd', by rw [hp', hd2], by rw [hn', hd3]⟩, hs, by rw [hp, hi', hs2], by rw [hn, hs3]⟩

/-- **The path goes on leading to a node until that node is unlinked.** -/
theorem Leads.edit {path : CStr} (h : Leads v name i) (hT : TreeInv v) (he : TreeEdit path v v')
    (hi : (v'.nodes i).used = true) : Leads v' name i := by
  cases h with
  | here hway hn => exact .here (hway.edit hT he hi) hn
  | @below d s hway hn hentry =>
      obtain ⟨hu, hp, hname⟩ := hentry
      have hs' := he.parent_stays hT hway.shm.1 hu hp
      have hplace := he.place_kept hu hi
      have hplace' := he.place_kept hway.shm.1 hs'
      simp only [VFSNode.place, Prod.mk.injEq] at hplace hplace'
      obtain ⟨_, _, _, hpar, hnm⟩ := hplace
      obtain ⟨_, _, hino, _, _⟩ := hplace'
      exact .below (hway.edit hT he hs') hn ⟨hi, by rw [hpar, hino, hp], by rw [hnm, hname]⟩

end Steps

/-! ## Opening the path -/

section Opening

variable {v v' : Vfs σ} {name : CStr}

theorem lastSlash_shmPath (hsl : slash ∉ name) : lastSlash (shmPath name) = some 8 := by
  have hnone := lastSlash_of_notMem hsl
  simp [shmPath, devShmPrefix, lastSlash, hnone, slash]

theorem plain_shmPath (hsl : slash ∉ name) (hlen : name.length ≤ 63) : Plain (shmPath name) := by
  unfold Plain
  rw [lastSlash_shmPath hsl]
  refine ⟨by omega, ?_, ?_⟩
  · show (List.take 8 (devShmPrefix ++ name)).getLast? ≠ some slash
    rw [List.take_append_of_le_length (by decide)]
    decide
  · show (List.drop 9 (devShmPrefix ++ name)).length ≤ 63
    rw [List.drop_append_of_le_length (by decide)]
    simpa [devShmPrefix] using hlen

theorem resolveParent_shmPath (hsl : slash ∉ name) (hlen : name.length ≤ 63) :
    resolveParent v (shmPath name) = (vfsResolve v (devShmPrefix.take 8), name) := by
  unfold resolveParent
  rw [lastSlash_shmPath hsl]
  dsimp only
  rw [if_neg (by decide), if_neg (by decide)]
  have htake : (shmPath name).take 8 = devShmPrefix.take 8 := by
    unfold shmPath
    rw [List.take_append_of_le_length (by decide)]
  have hdrop : (shmPath name).drop (8 + 1) = name := by
    unfold shmPath
    rw [List.drop_append_of_le_length (by decide)]
    rfl
  have hname : name.take (vfsNameMax - 1) = name := List.take_of_length_le hlen
  rw [htake, hdrop, hname]

/-- The entry that is created is the one the path leads to. -/
theorem created_leads {major minor inode : Nat} (hN : NameInv v) (hsl : slash ∉ name)
    (hlen : name.length ≤ 63) (hres : vfsResolve v (shmPath name) < 0)
    (h0 : 0 ≤ vfsResolve v (devShmPrefix.take 8)) (hnum : v.nextInode + 1 ≤ 2 ^ 31)
    (hc : createNode v (vfsResolve v (devShmPrefix.take 8)) name .chr major minor = some
      (v', inode)) :
    NameInv v' ∧ ∃ i, Leads v' name i ∧ (v'.nodes i).type = .chr := by
  obtain ⟨p, i, hp, hd, hi, _, rfl⟩ := createNode_some hc
  obtain ⟨htake, hslash, hne, hdot, hdd, habs⟩ :=
    create_fresh hN.tree hN.cwd (plain_shmPath hsl hlen) hres
    (resolveParent_shmPath hsl hlen) h0
  have hproper : ProperName name := ⟨hne, hslash, hdot, hdd⟩
  obtain ⟨_, hpu, hpi⟩ := nodeGet_some hp
  rw [← hpi] at habs
  have hN' : NameInv (addNode v i (freshNode v.nextInode
      (v.nodes p).inode name .chr major minor)) :=
    hN.add hpu hd hi hnum htake hproper habs
  rw [hpi] at hN'
  generalize hnode : freshNode v.nextInode (toU32 (vfsResolve v (devShmPrefix.take 8))) name .chr
    major minor = node at hN'
  have hself : (addNode v i node).nodes i = node := Vfs.setNode_self _
  have hkeep : ∀ j, (v.nodes j).used = true → (addNode v i node).nodes j = v.nodes j := by
    intro j hj
    refine Vfs.setNode_ne _ ?_
    rintro rfl
    rw [(nodeAlloc_some hi).2] at hj
    exact absurd hj (by simp)
  refine ⟨hN', i, ?_, by rw [hself, ← hnode]; rfl⟩
  -- the directory is `/dev/shm`
  cases hdir : shmDirOf v with
  | none =>
      rw [vfsResolve_shmDir, hdir] at h0
      change (0 : Int) ≤ -1 at h0
      omega
  | some n =>
      obtain ⟨d, s, hway, rfl⟩ := shmDirOf_some hdir
      have hback : toU32 (vfsResolve v (devShmPrefix.take 8)) = (v.nodes s).inode := by
        rw [vfsResolve_shmDir, hdir]
        have := hN.tree.1.below s hway.shm.1
        have := hN.tree.2
        exact toU32_toInt32 (by omega)
      refine .below (d := d) (s := s) ⟨?_, ?_⟩ hproper ?_
      · rw [hkeep d hway.dev.1]; exact hway.dev
      · rw [hkeep d hway.dev.1, hkeep s hway.shm.1]; exact hway.shm
      · rw [hself, hkeep s hway.shm.1, ← hback, ← hnode]
        exact ⟨rfl, rfl, htake⟩

/-- The first part of `vfs_open` on such a path fails, or resolves the path. -/
theorem openLookup_shmPath {flags : Nat} {n : Int} (hN : NameInv v) (hsl : slash ∉ name)
    (hlen : name.length ≤ 63) (h : openLookup v (shmPath name) flags = (v', .inl n))
    (hnum : v'.nextInode ≤ 2 ^ 31) :
    NameInv v' ∧ n = vfsResolve v' (shmPath name) ∧ 0 ≤ n := by
  have htake : (shmPath name).take 9 = devShmPrefix := by
    unfold shmPath
    rw [List.take_append_of_le_length (by decide)]
    rfl
  unfold openLookup at h
  rw [if_pos htake] at h
  cases hs : shmOpenObject v.shm ((shmPath name).drop 9) with
  | mk shm idx =>
      rw [hs] at h
      dsimp only at h
      have hN₀ : NameInv { v with shm := shm } := hN.same (.of_nodes rfl rfl rfl)
      split at h
      · exact absurd h (by simp)
      · split at h
        · next hres =>
          split at h
          · exact absurd h (by simp)
          · cases hmk : vfsMknodChr { v with shm := shm } (shmPath name) devShmMajor idx.toNat with
            | mk w r =>
                rw [hmk] at h
                dsimp only at h
                split at h
                · exact absurd h (by simp)
                · next hr =>
                  cases h
                  obtain ⟨parent, leaf, inode, _, hpar, h0, hcreate⟩ := makeNode_done hmk (by omega)
                  rw [resolveParent_shmPath hsl hlen] at hpar
                  cases hpar
                  have hcount : v'.nextInode = u32 (v.nextInode + 1) := by
                    obtain ⟨_, _, _, _, _, _, rfl⟩ := createNode_some hcreate
                    rfl
                  have hbefore := hN.tree.2
                  have hu32 : u32 (v.nextInode + 1) = v.nextInode + 1 := Nat.mod_eq_of_lt (by omega)
                  obtain ⟨hN', i, hleads, _⟩ := created_leads hN₀ hsl hlen hres h0
                    (show v.nextInode + 1 ≤ 2 ^ 31 by omega) hcreate
                  exact ⟨hN', rfl, by rw [hleads.resolve hN' hsl hlen]; omega⟩
        · next hres =>
          cases h
          exact ⟨hN₀, rfl, by omega⟩

theorem openCreate_next {path : CStr} {flags : Nat} {n : Int} {res : Int ⊕ Int}
    (hnum : v.nextInode + 1 < 2 ^ 32) (h : openCreate v path flags n = (v', res)) :
    v.nextInode ≤ v'.nextInode := by
  unfold openCreate at h
  split at h
  · split at h
    · cases h; exact Nat.le_refl _
    · dsimp only at h
      split at h
      · cases h; exact Nat.le_refl _
      · split at h
        · cases h; exact Nat.le_refl _
        · next w m hcreate =>
          cases h
          obtain ⟨_, _, _, _, _, _, rfl⟩ := createNode_some hcreate
          show v.nextInode ≤ u32 (v.nextInode + 1)
          rw [show u32 (v.nextInode + 1) = v.nextInode + 1 from Nat.mod_eq_of_lt hnum]
          omega
  · cases h; exact Nat.le_refl _

/-- **Opening the path gives a descriptor for what it leads to.** -/
theorem vfsOpen_leads {flags : Nat} {r : Int} (hN : NameInv v) (hsl : slash ∉ name)
    (hlen : name.length ≤ 63) (h : vfsOpen v (shmPath name) flags = .done (v', r)) (h0 : 0 ≤ r)
    (hnum : v'.nextInode ≤ 2 ^ 31) :
    ∃ i, Leads v' name i ∧ (v'.nodes i).inode = (v'.fds r.toNat).inode := by
  unfold vfsOpen at h
  split at h
  · cases h; omega
  · next fd _ =>
    obtain ⟨⟨k, hk, _, hc⟩, _, herr⟩ := openLookup_created v (shmPath name) flags
    cases hl : openLookup v (shmPath name) flags with
    | mk v₁ res =>
        rw [hl] at h herr hc
        dsimp only at h herr hc
        have hbefore := hN.tree.2
        have hbound : v₁.nextInode + 1 < 2 ^ 32 := by
          have := (hN.tree.1.created hc (by omega)).2
          omega
        cases res with
        | inr e =>
            have := herr _ rfl
            cases h
            omega
        | inl n =>
            dsimp only at h
            cases ho : openCreate v₁ (shmPath name) flags n with
            | mk v₂ res =>
                rw [ho] at h
                cases res with
                | inr e =>
                    have := openCreate_error ho
                    cases h
                    omega
                | inl m =>
                    rcases openInode_cases h with ⟨_, hr⟩ | ⟨i, hi, hd, hr, hop⟩
                    · omega
                    · have hsame := hop.sameTree
                      have hnext := openCreate_next hbound ho
                      obtain ⟨hN₁, hn, hpos⟩ := openLookup_shmPath hN hsl hlen hl
                        (by rw [hsame.next] at hnum; omega)
                      -- the path resolves, so nothing is created
                      unfold openCreate at ho
                      rw [if_neg (by omega)] at ho
                      cases ho
                      obtain ⟨_, hused, hinode⟩ := nodeGet_some hi
                      obtain ⟨h1, _, h3, _⟩ := hsame.fields i
                      rw [hn] at hi hpos
                      have hleads := leads_of_resolve hN₁ hsl hlen hpos hi hd
                      have hedit : TreeEdit (shmPath name) v₁ v' := .same hsame
                      refine ⟨i, hleads.edit hN₁.tree.1 hedit (by rw [h1]; exact hused), ?_⟩
                      rw [h3, hr, Int.toNat_natCast, hop.fds.2.1]
                      exact hinode

end Opening

/-! ## Runs -/

/-- The file system, and which descriptors were opened on the name since it was last unlinked. -/
structure NameRun (σ : Type) where
  vfs : Vfs σ
  since : Nat → Bool

namespace NameRun

/-- Booted; no descriptor is open yet. -/
inductive Starts : NameRun σ → Prop
  | boot {v : Vfs σ} (h : v.Starts) (since : Nat → Bool) : Starts ⟨v, since⟩

/-- Is this an opening of the path? -/
def opens (path : CStr) : VfsOp → Bool
  | .open path' _ => path' = path
  | _ => false

/-- Has the call removed the node that the path led to? -/
def gone (v v' : Vfs σ) (path : CStr) : Bool :=
  match nodeGet v (toU32 (vfsResolve v path)) with
  | some i => !(v'.nodes i).used
  | none => false

def after (c : NameRun σ) (name : CStr) (op : VfsOp) (v' : Vfs σ) (r : Int) : NameRun σ :=
  ⟨v', fun k => !gone c.vfs v' (shmPath name) && op.passOn r (opens (shmPath name) op) c.since k⟩

/-- Any call of which `ok` holds, with fewer than `2 ^ 31` nodes ever created. -/
def Step (fs : FrameService σ) (ok : Vfs σ → VfsOp → Prop) (name : CStr) (c c' : NameRun σ) : Prop :=
  ∃ op input fuel v' r, ok c.vfs op ∧ c.vfs.call fs input fuel op = .done (v', r)
    ∧ v'.nextInode ≤ 2 ^ 31 ∧ c' = c.after name op v' r

theorem Step.of_call {fs : FrameService σ} {ok : Vfs σ → VfsOp → Prop} {v v' : Vfs σ} {name : CStr}
    {since : Nat → Bool} {op : VfsOp} {input : DevInput} {fuel : Nat} {r : Int} (hok : ok v op)
    (hcall : v.call fs input fuel op = .done (v', r)) (hnum : v'.nextInode ≤ 2 ^ 31) :
    Step fs ok name ⟨v, since⟩ (NameRun.after ⟨v, since⟩ name op v' r) :=
  ⟨op, input, fuel, v', r, hok, hcall, hnum, rfl⟩

/-- **All these descriptors denote one object**: they lead to the same node, the one that the path
leads to. -/
def OneObject (c : NameRun σ) (name : CStr) : Prop :=
  ∀ fd, fdOpen c.vfs fd = true → c.since fd.toNat = true →
    ∃ i, vfsNodeFromFd c.vfs fd = some i
      ∧ nodeGet c.vfs (toU32 (vfsResolve c.vfs (shmPath name))) = some i

structure Inv (c : NameRun σ) (name : CStr) : Prop where
  names : NameInv c.vfs
  leads : ∀ k, (c.vfs.fds k).isOpen = true → c.since k = true →
    ∃ i, Leads c.vfs name i ∧ (c.vfs.nodes i).inode = (c.vfs.fds k).inode

end NameRun

section Runs

variable {fs : FrameService σ} {c c' : NameRun σ} {name : CStr}

/-- The node that the path leads to, by its number. -/
theorem Leads.nodeGet_eq {v : Vfs σ} {i : Nat} (h : Leads v name i) (hN : NameInv v)
    (hsl : slash ∉ name)
    (hlen : name.length ≤ 63) : nodeGet v (toU32 (vfsResolve v (shmPath name))) = some i := by
  have hlt := Nat.lt_of_lt_of_le (hN.tree.1.below i h.used) hN.tree.2
  rw [h.resolve hN hsl hlen, toU32_natCast (by omega)]
  exact hN.tree.1.nodeGet_self h.used

theorem NameRun.Inv.step (h : c.Inv name) (hsl : slash ∉ name) (hlen : name.length ≤ 63)
    (hs : NameRun.Step fs Vfs.Agreeable name c c') : c'.Inv name := by
  obtain ⟨op, input, fuel, v', r, hok, hcall, hnum, rfl⟩ := hs
  have hstep := step_of_call hcall
  have he := step_treeEdit hstep
  have hN' : NameInv v' := by
    rcases agreeable_cases hok hstep with hplain | hsame
    · exact h.names.edit hplain he hnum
    · exact h.names.same hsame
  have hT := h.names.tree.1
  refine ⟨hN', fun k ho hsince => ?_⟩
  unfold NameRun.after at ho hsince ⊢
  dsimp only at ho hsince ⊢
  rw [Bool.and_eq_true] at hsince
  obtain ⟨halive, hnote⟩ := hsince
  -- an entry that was open on the name before
  have hkeep : ∀ j, (c.vfs.fds j).isOpen = true → c.since j = true →
      (v'.fds k).inode = (c.vfs.fds j).inode →
      ∃ i, Leads v' name i ∧ (v'.nodes i).inode = (v'.fds k).inode := by
    intro j hj hjs hinode
    obtain ⟨i, hleads, hi⟩ := h.leads j hj hjs
    have hused : (v'.nodes i).used = true := by
      unfold NameRun.gone at halive
      rw [hleads.nodeGet_eq h.names hsl hlen] at halive
      simpa using halive
    refine ⟨i, hleads.edit hT he hused, ?_⟩
    rw [he.stays hleads.used hused, hi, hinode]
  cases call_fdFrom hcall ho with
  | kept hsame hpass =>
      rw [hpass] at hnote
      exact hkeep k (hsame.1 ▸ ho) hnote hsame.2.1
  | setfl hop hk hopen hset =>
      have hpass : op.passOn r (NameRun.opens (shmPath name) op) c.since = c.since := by
        rw [hop]; exact ite_self _
      rw [hpass] at hnote
      exact hkeep k (hk ▸ (fdOpen_iff.mp hopen).2.2) hnote (by rw [hset])
  | copied hopen hcopy hpass =>
      rw [hpass] at hnote
      exact hkeep _ (fdOpen_iff.mp hopen).2.2 hnote (by rw [hcopy])
  | @opened path flags hop h0 hr _ =>
      have hpass : op.passOn r (NameRun.opens (shmPath name) op) c.since k
          = NameRun.opens (shmPath name) op := by
        rw [VfsOp.passOn_opened (by
          rcases hop with hop | ⟨_, hop⟩
          · exact Or.inl ⟨_, _, hop⟩
          · exact Or.inr ⟨_, _, _, hop⟩) h0]
        exact if_pos hr.symm
      rw [hpass] at hnote
      rcases hop with rfl | ⟨_, rfl⟩
      · have hpath : path = shmPath name := of_decide_eq_true hnote
        subst hpath
        rw [← hr]
        exact vfsOpen_leads h.names hsl hlen hcall h0 hnum
      · exact absurd hnote (by simp [NameRun.opens])

theorem NameRun.inv_reach (hsl : slash ∉ name) (hlen : name.length ≤ 63)
    (h : Run.Reach NameRun.Starts (NameRun.Step fs Vfs.Agreeable name) c) : c.Inv name := by
  refine h.invariant (P := fun c => c.Inv name) (fun s hs => ?_) fun _ _ hc hs =>
    hc.step hsl hlen hs
  cases hs with
  | @boot v hv since =>
      refine ⟨nameInv_start hv, fun k ho => ?_⟩
      dsimp only at ho
      rw [starts_fds hv k] at ho
      exact absurd ho (by simp)

theorem NameRun.oneObject (hsl : slash ∉ name) (hlen : name.length ≤ 63)
    (h : Run.Reach NameRun.Starts (NameRun.Step fs Vfs.Agreeable name) c) : c.OneObject name := by
  have hinv := NameRun.inv_reach hsl hlen h
  intro fd ho hsince
  obtain ⟨i, hleads, hi⟩ := hinv.leads fd.toNat (fdOpen_iff.mp ho).2.2 hsince
  refine ⟨i, ?_, hleads.nodeGet_eq hinv.names hsl hlen⟩
  unfold vfsNodeFromFd
  rw [if_neg (by simp [ho]), ← hi]
  exact hinv.names.tree.1.nodeGet_self hleads.used

/-- **Shared memory is one flat array for each name.** -/
theorem shm_flat_array {fs : FrameService σ} (o : OverPmm fs) (hm : FlatMemory fs) :
    (∀ name (c : NameRun σ), name.length ≤ 63 → slash ∉ name →
        Run.Reach NameRun.Starts (NameRun.Step fs Vfs.Agreeable name) c → c.OneObject name) ∧
      ∀ (s : σ) (t : ShmTable) (idx : Int) (buf : Nat → UInt8) (len off : Nat),
        ShmInv (o.pmm s) t → shmValid t idx = true → off + len ≤ 4 * 1024 * 1024 →
        pagesFor (off + len) ≤ pagesFor (t idx.toNat).size + (o.pmm s).freeFrames →
        ∃ s' t', shmWrite fs s t idx buf len off = (s', t', (len : Int), off + len)
          ∧ FlatWrite (fs.phys s) (fs.phys s') t t' idx buf len off
          ∧ ∀ s'' t'', Relation.ReflTransGen (Elsewhere fs idx) (s', t') (s'', t'') →
              SameObject fs idx (s', t') (s'', t'') ∧ FlatRead (fs.phys s'') t'' idx := by
  refine ⟨fun name c hlen hsl h => NameRun.oneObject hsl hlen h, ?_⟩
  intro s t idx buf len off h hv hend hfree
  obtain ⟨s', t', hw, h', hflat⟩ := shmWrite_flat o hm buf h hv hend hfree
  refine ⟨s', t', hw, hflat, fun s'' t'' hlater => ?_⟩
  obtain ⟨h'', hsame⟩ := elsewhere_same o hm hlater h' hflat.valid
  exact ⟨hsame, ShmInv.flatRead h'' hsame.valid _⟩

/-- The name `x` opened twice on a machine of two megabytes, and five thousand bytes written at 100.
-/
theorem shm_flat_array_twice : ∃ v : Vfs (Pmm × ByteMem.Mem × Nat),
    (∃ i, vfsNodeFromFd v 3 = some i ∧ vfsNodeFromFd v 4 = some i)
      ∧ ∃ s' t', shmWrite machineFrames v.heap.pages v.shm 0 (fun _ => 0x41) 5000 100 = (s', t', 5000, 5100)
        ∧ (t' 0).size = 5100 ∧ FlatRead (machineFrames.phys s') t' 0 := by
  obtain ⟨hname, hflat⟩ := shm_flat_array machineFrames_over machineFrames_flat
  obtain ⟨⟨v₁, r₁⟩, hopen₁, hrest⟩ := Outcome.of_get?
    (x := (machineVfs (pmmInit 2048)).call machineFrames noInput 0 (.open (shmPath (cstr "x")) 7))
    (f := fun x => decide (x.2 = 3 ∧ x.1.nextInode ≤ 2 ^ 31
      ∧ (x.1.call machineFrames noInput 0 (.open (shmPath (cstr "x")) 7)).get?.map
        (fun y => decide (y.2 = 4 ∧ y.1.nextInode ≤ 2 ^ 31 ∧ fdOpen y.1 3 = true
          ∧ fdOpen y.1 4 = true
          ∧ NameRun.gone (machineVfs (pmmInit 2048)) x.1 (shmPath (cstr "x")) = false
          ∧ NameRun.gone x.1 y.1 (shmPath (cstr "x")) = false
          ∧ (y.1.shm 0).used = true ∧ (y.1.shm 0).size = 0 ∧ 2 ≤ y.1.heap.pages.1.freeFrames))
            = some true))
    (b := true) (by decide +kernel)
  obtain ⟨hr₁, hnum₁, hrest⟩ := of_decide_eq_true hrest
  obtain ⟨⟨v₂, r₂⟩, hopen₂, hfacts⟩ := Outcome.of_get? hrest
  obtain ⟨hr₂, hnum₂, ho₃, ho₄, hgone₁, hgone₂, hused, hsize, hframes⟩ := of_decide_eq_true hfacts
  dsimp only at hr₁ hnum₁ hopen₂ hr₂ hnum₂ ho₃ ho₄ hgone₁ hgone₂ hused hsize hframes
  subst hr₁ hr₂
  have hplain : Plain (shmPath (cstr "x")) := by decide +kernel
  have hstart := machineVfs_starts 2048
  have hagree : ∀ v : Vfs (Pmm × ByteMem.Mem × Nat), v.Agreeable (.open (shmPath (cstr "x")) 7) :=
    fun _ _ => Or.inr hplain
  have hstep₁ : NameRun.Step machineFrames Vfs.Agreeable (cstr "x")
    ⟨machineVfs (pmmInit 2048), fun _ => false⟩ _ := .of_call (hagree _) hopen₁ hnum₁
  have hreach := Run.Reach.next (.next (.start (NameRun.Starts.boot hstart.1 fun _ => false))
    hstep₁)
    (NameRun.Step.of_call (hagree _) hopen₂ hnum₂)
  have hone := hname (cstr "x") _ (by decide +kernel) (by decide +kernel) hreach
  obtain ⟨i, h3, hi⟩ := hone 3 ho₃ (by simp [NameRun.after, VfsOp.passOn, NameRun.opens, hgone₁, hgone₂])
  obtain ⟨j, h4, hj⟩ := hone 4 ho₄ (by simp [NameRun.after, VfsOp.passOn, NameRun.opens, hgone₂])
  rw [hi] at hj
  cases hj
  have hok : v₂.ShmOk machineFrames_over := shmOk_reach machineFrames_over
    (.next (.next (.start hstart)
      (Or.inl ⟨.open (shmPath (cstr "x")) 7, noInput, 0, trivial, step_of_call hopen₁⟩))
      (Or.inl ⟨.open (shmPath (cstr "x")) 7, noInput, 0, trivial, step_of_call hopen₂⟩))
  have hvalid : shmValid v₂.shm 0 = true := shmValid_iff.mpr ⟨by decide, by decide, hused⟩
  obtain ⟨s', t', hw, hwrite, hlater⟩ :=
    hflat v₂.heap.pages v₂.shm 0 (fun _ => 0x41) 5000 100 hok hvalid
    (by decide) (Nat.le_trans (by decide) (Nat.le_add_left_of_le hframes))
  refine ⟨v₂, ⟨i, h3, h4⟩, s', t', hw, ?_, (hlater s' t' .refl).2⟩
  have := hwrite.size
  rw [show (0 : Int).toNat = 0 from rfl, hsize] at this
  exact this

/-- The calls one after another, as long as numbers last. -/
def NameRun.calls (fs : FrameService σ) (name : CStr) : NameRun σ → List VfsOp → Outcome (NameRun σ)
  | c, [] => .done c
  | c, op :: ops => do
      let (v', r) ← c.vfs.call fs noInput 0 op
      if v'.nextInode ≤ 2 ^ 31 then NameRun.calls fs name (c.after name op v' r) ops else .timeout

theorem NameRun.calls_reach : ∀ {ops : List VfsOp} {c c' : NameRun σ},
    Run.Reach NameRun.Starts (NameRun.Step fs (fun _ _ => True) name) c →
    NameRun.calls fs name c ops = .done c' →
    Run.Reach NameRun.Starts (NameRun.Step fs (fun _ _ => True) name) c'
  | [], c, c', h, hc => by
      cases hc
      exact h
  | op :: ops, c, c', h, hc => by
      rw [NameRun.calls] at hc
      obtain ⟨⟨v', r⟩, hcall, hc⟩ := Outcome.bind_eq_done hc
      dsimp only at hc
      split at hc
      · next hnum => exact NameRun.calls_reach (h.next ⟨op, noInput, 0, v', r, trivial, hcall, hnum, rfl⟩) hc
      · exact absurd hc (by simp)

/-- **Two entries of one name.** `/dev/shm/x` is open when `/dev/shm//x` is opened with
`VFS_O_CREATE`. The one parser does not find that path, the other creates an entry `x` for it, in a
slot in front of the first. The name is opened again, and is another object. -/
theorem NameRun.second_object : ∃ c : NameRun Nat,
    Run.Reach NameRun.Starts (NameRun.Step zeroedService (fun _ _ => True) (cstr "x")) c
      ∧ fdOpen c.vfs 4 = true ∧ c.since 4 = true ∧ fdOpen c.vfs 6 = true ∧ c.since 6 = true
      ∧ (vfsNodeFromFd c.vfs 4).map (fun i => (c.vfs.nodes i).devMinor) = some 0
      ∧ (vfsNodeFromFd c.vfs 6).map (fun i => (c.vfs.nodes i).devMinor) = some 1
      ∧ ¬ c.OneObject (cstr "x") := by
  obtain ⟨c, hrun, hfacts⟩ := Outcome.of_get?
    (x := NameRun.calls zeroedService (cstr "x") ⟨devfsInit bootVfs, fun _ => false⟩
      [.open (cstr "/tmp/t") 7, .open (cstr "/dev/shm/x") 7, .unlink (cstr "/tmp/t"),
        .open (cstr "/dev/shm//x") 7, .open (cstr "/dev/shm/x") 7])
    (f := fun c => decide (fdOpen c.vfs 4 = true ∧ c.since 4 = true ∧ fdOpen c.vfs 6 = true
      ∧ c.since 6 = true ∧ vfsNodeFromFd c.vfs 4 = some 18 ∧ vfsNodeFromFd c.vfs 6 = some 17
      ∧ (c.vfs.nodes 18).devMinor = 0 ∧ (c.vfs.nodes 17).devMinor = 1))
    (b := true) (by decide +kernel)
  obtain ⟨ho₄, hs₄, ho₆, hs₆, hn₄, hn₆, hm₄, hm₆⟩ := of_decide_eq_true hfacts
  have hstart : (devfsInit bootVfs).Starts := ⟨0, shmInit, _, by decide, Or.inr rfl⟩
  refine ⟨c, NameRun.calls_reach (.start (.boot hstart _)) hrun, ho₄, hs₄, ho₆, hs₆,
    by rw [hn₄]; exact congrArg some hm₄, by rw [hn₆]; exact congrArg some hm₆, fun hone => ?_⟩
  obtain ⟨i, hi, hpath⟩ := hone 4 ho₄ hs₄
  obtain ⟨j, hj, hpath'⟩ := hone 6 ho₆ hs₆
  rw [hn₄] at hi
  rw [hn₆] at hj
  cases hi
  cases hj
  rw [hpath] at hpath'
  exact absurd hpath' (by decide)

end Runs

end VnlKernel
