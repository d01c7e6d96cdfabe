import VnlKernel.Proof.VfsFds
import VnlKernel.Proof.VfsWalk

/-!
# What is created is found

After a creating call the path is resolved again. The directory part leads where it led,
since the new node is nowhere on that way, and the last step finds the new node, since
its directory had nothing of that name.

This needs a path that creation and lookup cut alike, and what is found otherwise is never the
new node: nothing hangs below it, so that only one step leads to it, from its own directory.
`vfs_open("/tmp//a", VFS_O_CREATE)` creates `/tmp/a` and does not find it under the path it was
given.
-/

namespace VnlKernel

open Bits

variable {σ : Type}

/-- The path leads to the node in slot `i`, and without its last component to the directory that
holds the node. -/
structure Vfs.FoundAt (v : Vfs σ) (path : CStr) (i : Nat) : Prop where
  used : (v.nodes i).used = true
  found : vfsResolve v path = (v.nodes i).inode
  inDir : vfsResolve v (dirPart path) = (v.nodes i).parent

/-! ## Lookup reads the tree only -/

section Tree

variable {v v' : Vfs σ} {path : CStr} {i : Nat}

theorem SameTree.nodeGet_eq (h : SameTree v v') (inode : Nat) :
    nodeGet v' inode = nodeGet v inode := by
  refine Scan.first_congr fun k _ _ => ?_
  obtain ⟨h1, _, h3, _⟩ := h.fields k
  rw [h1, h3]

theorem SameTree.findChild_eq (h : SameTree v v') (cur : Nat) (name : CStr) :
    findChild v' cur name = findChild v cur name := by
  refine Scan.first_congr fun k _ _ => ?_
  obtain ⟨h1, _, _, h4, h5⟩ := h.fields k
  rw [h1, h4, h5]

theorem SameTree.moveTo_eq (h : SameTree v v') (cur : Nat) (c : CStr) :
    moveTo v' cur c = moveTo v cur c := by
  have hparent : parentOf v' cur = parentOf v cur := by
    unfold parentOf
    rw [h.nodeGet_eq]
    cases nodeGet v cur with
    | none => rfl
    | some j => exact (h.fields j).2.2.2.1
  unfold moveTo
  rw [hparent, h.findChild_eq]
  cases findChild v cur c with
  | none => rfl
  | some k => rw [Option.map_some, Option.map_some, (h.fields k).2.2.1]

theorem SameTree.walk_eq (h : SameTree v v') : ∀ (n : Nat) (s : CStr) (cur : Nat), s.length ≤ n →
    walk v' cur s = walk v cur s
  | _, [], cur, _ => by
      unfold walk
      rw [resolveLoop_nil, resolveLoop_nil]
  | n + 1, c :: s, cur, hn => by
      have hlen := afterComponent_length c s
      rw [List.length_cons] at hn
      rw [walk_cons, walk_cons, advance_moveTo, advance_moveTo, h.moveTo_eq]
      congr 1
      funext next
      exact h.walk_eq n _ next (by omega)

theorem SameTree.resolve_eq (h : SameTree v v') (hcwd : v'.cwd = v.cwd) (path : CStr) :
    vfsResolve v' path = vfsResolve v path := by
  cases path with
  | nil =>
      show toInt32 v'.cwd = toInt32 v.cwd
      rw [hcwd]
  | cons c path =>
      rw [vfsResolve_walk, vfsResolve_walk, h.walk_eq _ _ _ (Nat.le_refl _)]
      unfold startOf
      rw [hcwd]

theorem SameTree.resolveParent_eq (h : SameTree v v') (hcwd : v'.cwd = v.cwd) (path : CStr) :
    resolveParent v' path = resolveParent v path := by
  unfold resolveParent
  cases lastSlash path with
  | none =>
      dsimp only
      rw [hcwd]
  | some k =>
      dsimp only
      rw [h.resolve_eq hcwd]

theorem SameTree.foundAt (h : SameTree v v') (hcwd : v'.cwd = v.cwd) (hf : v.FoundAt path i) :
    v'.FoundAt path i := by
  obtain ⟨h1, _, h3, h4, _⟩ := h.fields i
  exact ⟨by rw [h1, hf.used], by rw [h.resolve_eq hcwd, h3, hf.found], by rw [h.resolve_eq hcwd, h4, hf.inDir]⟩

theorem SameTree.namedRoot (h : SameTree v v') (hr : NamedRoot v) : NamedRoot v' :=
  (h.fields 0).2.2.2.2.trans hr

theorem SameTree.cutsAlike (h : SameTree v v') (hcwd : v'.cwd = v.cwd) (hA : v.CutsAlike path) :
    v'.CutsAlike path where
  tail := hA.tail
  down := by rw [h.resolve_eq hcwd]; exact hA.down
  new := by rw [h.resolve_eq hcwd, h.resolveParent_eq hcwd, h.resolve_eq hcwd]; exact hA.new

end Tree

/-! ## The node that is made -/

section Made

variable {v v' : Vfs σ} {path leaf : CStr} {parent : Int} {i : Nat}

theorem reached_base (hcwd : v.cwd < 2 ^ 32) (absolute : Bool) :
    (if absolute then vfsInodeRoot else v.cwd) < 2 ^ 32 := by
  cases absolute with
  | true => exact (by decide : vfsInodeRoot < 2 ^ 32)
  | false => exact hcwd

/-- A number that a walk comes to, seen as an `int` that is not negative. -/
theorem reached_nonneg (hT : TreeOk v) (hcwd : v.cwd < 2 ^ 32) {absolute : Bool} {s : CStr}
    (h0 : 0 ≤ ((reached v absolute s).map toInt32).getD (-1)) :
    ∃ d, reached v absolute s = some d ∧ d < 2 ^ 31
      ∧ ((reached v absolute s).map toInt32).getD (-1) = d := by
  cases hr : reached v absolute s with
  | none =>
      rw [hr] at h0
      exact absurd h0 (by decide)
  | some d =>
      rw [hr] at h0
      have hd := walk_lt hT _ s _ d (Nat.le_refl _) (reached_base hcwd absolute) hr
      have h0' : 0 ≤ toInt32 d := h0
      have hlt : d < 2 ^ 31 := by
        unfold toInt32 at h0'
        rw [Nat.mod_eq_of_lt hd] at h0'
        split at h0'
        · assumption
        · omega
      exact ⟨d, rfl, hlt, toInt32_of_lt hlt⟩

theorem toInt32_lt (n : Nat) : toInt32 n < 2 ^ 31 := by
  unfold toInt32
  split <;> omega

theorem toInt32_eq_nat {m n : Nat} (hm : m < 2 ^ 32) (h : toInt32 m = n) : m = n := by
  unfold toInt32 at h
  split at h <;> omega

theorem toU32_of_nonneg {n : Int} (h0 : 0 ≤ n) (hlt : n < 2 ^ 31) : (toU32 n : Int) = n := by
  obtain ⟨k, rfl⟩ := Int.eq_ofNat_of_zero_le h0
  rw [toU32_natCast (by omega)]

theorem resolve_lt (v : Vfs σ) (path : CStr) : vfsResolve v path < 2 ^ 31 := by
  cases path with
  | nil => exact toInt32_lt _
  | cons c path =>
      rw [vfsResolve_walk]
      cases walk v (startOf v c) (skipSlash (c :: path)) with
      | none => decide
      | some next => exact toInt32_lt next

/-- The two parts of a walk that comes to a number. -/
theorem reached_bind (hT : TreeOk v) (hcwd : v.cwd < 2 ^ 32) {absolute : Bool} {s tail : CStr} {n : Nat}
    (h : (((reached v absolute s).bind fun next => walk v next tail).map toInt32).getD (-1) = n) :
    ∃ d, reached v absolute s = some d ∧ walk v d tail = some n := by
  cases hd : reached v absolute s with
  | none =>
      rw [hd] at h
      exact absurd (show (-1 : Int) = n from h) (by omega)
  | some d =>
      rw [hd, Option.bind_some] at h
      refine ⟨d, rfl, ?_⟩
      cases hw : walk v d tail with
      | none =>
          rw [hw] at h
          exact absurd (show (-1 : Int) = n from h) (by omega)
      | some m =>
          have hdlt := walk_lt hT _ s _ d (Nat.le_refl _) (reached_base hcwd absolute) hd
          rw [toInt32_eq_nat (walk_lt hT _ tail d m (Nat.le_refl _) hdlt hw)
            (by rw [hw] at h; exact h)]

/-- **A node that is made is found under the path it was made from.** -/
theorem made_foundAt (hT : TreeOk v) (hcwd : v.cwd < 2 ^ 32) (hA : v.CutsAlike path)
    {type : VFSNodeType}
    {major minor inode : Nat} (hnum : v.nextInode + 1 ≤ 2 ^ 31) (hres : vfsResolve v path < 0)
    (hpar : resolveParent v path = (parent, leaf)) (h0 : 0 ≤ parent)
    (hc : createNode v parent leaf type major minor = some (v', inode)) :
    ∃ i, nodeAlloc v = some i ∧ v'.FoundAt path i ∧ (v'.nodes i).inode = v.nextInode
      ∧ inode = v.nextInode
      ∧ v'.cwd = v.cwd := by
  obtain ⟨p, i, hp, _, hi, hin, rfl⟩ := createNode_some hc
  obtain ⟨absolute, s, hcut⟩ := resolve_cut (σ := σ) (trimmed path)
  have hpath : ∀ w : Vfs σ, vfsResolve w path = _ :=
    fun w => (resolve_trimmed w path).symm.trans (hcut w).2
  obtain ⟨hcommon, hstep⟩ := hA.new hres
  have hdir : vfsResolve v (dirPart path) = parent := by rw [← hcommon, hpar]
  rw [dirPart, (hcut v).1] at hdir
  obtain ⟨d, hd, hdlt, hcode⟩ := reached_nonneg hT hcwd (hdir ▸ h0)
  obtain rfl : parent = d := hdir.symm.trans hcode
  have hback : toU32 (d : Int) = d := toU32_natCast (by omega)
  rw [hback] at hp ⊢
  have hleaf : leaf = nameOf path := by rw [← resolveParent_leaf v path, hpar]
  -- the last step failed, so the name is a proper one that the directory did not have
  have hnone : advance v d (nameOf path) = none := by
    cases ha : advance v d (nameOf path) with
    | none => rfl
    | some next =>
        exfalso
        rw [hpath v, hd, Option.bind_some, walk_tail hA.tail, ← hstep, ha] at hres
        have hlt : next < 2 ^ 31 := by
          rcases advance_lt hT ha with rfl | hlt
          · exact hdlt
          · exact hlt
        have hneg : toInt32 next < 0 := hres
        rw [toInt32_of_lt hlt] at hneg
        omega
  have hname : ∀ w : Vfs σ, advance w d (nameOf path)
      = (findChild w d (nameOf path)).map fun i => (w.nodes i).inode := by
    intro w
    unfold advance at hnone ⊢
    split at hnone
    · exact absurd hnone (by simp)
    · next hdot =>
      split at hnone
      · cases hg : nodeGet v d with
        | none => rw [hg] at hnone; exact absurd hnone (by simp)
        | some j => rw [hg] at hnone; exact absurd hnone (by simp)
      · next hdd => rw [if_neg hdot, if_neg hdd]
  have habs : findChild v d (nameOf path) = none := by
    rw [hname v] at hnone
    simpa using hnone
  generalize hn : freshNode v.nextInode d leaf type major minor = n
  have hfields : n.used = true ∧ n.inode = v.nextInode ∧ n.parent = d ∧ n.name = nameOf path := by
    rw [← hn]
    refine ⟨rfl, rfl, rfl, ?_⟩
    show leaf.take 63 = nameOf path
    rw [hleaf]
    unfold nameOf
    rw [List.take_take, Nat.min_self]
  obtain ⟨hused, hnumber, hparent, hnm⟩ := hfields
  have hfresh : Fresh v i n := ⟨hi, hused, hnumber, by rw [hparent, hnm]; exact habs⟩
  have hself : (addNode v i n).nodes i = n := Vfs.setNode_self n
  have hreach : reached (addNode v i n) absolute s = some d :=
    hfresh.walk_eq hT.1 (by rw [hp]; rfl) _ s _ (Nat.le_refl _) hd
  refine ⟨i, hi, ⟨by rw [hself, hused], ?_, ?_⟩, by rw [hself, hnumber], hin, rfl⟩
  · have hnew : advance (addNode v i n) d (nameOf path) = some v.nextInode := by
      have hfound := hfresh.findChild_self
      rw [hparent, hnm] at hfound
      rw [hname, hfound, Option.map_some, hself, hnumber]
    rw [hpath _, hreach, Option.bind_some, walk_tail hA.tail, ← hstep, hnew, hself, hnumber]
    exact toInt32_of_lt (by omega)
  · rw [dirPart, (hcut _).1, hreach, hself, hparent]
    exact toInt32_of_lt hdlt

/-- What a call made on the way, found. -/
theorem Created.foundAt {k : Nat} (h : Created path k v v') (hT : TreeOk v) (hcwd : v.cwd < 2 ^ 32)
    (hA : v.CutsAlike path) (hnum : v.nextInode + k ≤ 2 ^ 31) :
    (k = 0 ∧ SameTree v v' ∧ v'.cwd = v.cwd)
      ∨ (k = 1 ∧ vfsResolve v path < 0 ∧ ∃ i, nodeAlloc v = some i ∧ v'.FoundAt path i
        ∧ (v'.nodes i).inode = v.nextInode ∧ v'.cwd = v.cwd) := by
  induction h with
  | none v => exact Or.inl ⟨rfl, .refl v, rfl⟩
  | @shm k v v' t _ ih =>
      have hs : SameTree v' { v' with shm := t } := .of_nodes rfl rfl rfl
      rcases ih hT hcwd hA hnum with ⟨hk, hsame, hc⟩ | ⟨hk, hres, i, hi, hf, hin, hc⟩
      · exact Or.inl ⟨hk, hsame.trans hs, hc⟩
      · exact Or.inr ⟨hk, hres, i, hi, hs.foundAt rfl hf, hin, hc⟩
  | @node k v v' v'' parent leaf type major minor inode _ hres hpar h0 hcreate ih =>
      rcases ih hT hcwd hA (by omega) with ⟨hk, hsame, hc⟩ | ⟨_, _, i, _, hf, _⟩
      · have hT' : TreeOk v' := ⟨hT.1.same hsame, by rw [hsame.next]; exact hT.2⟩
        have hcwd' : v'.cwd < 2 ^ 32 := by rw [hc]; exact hcwd
        obtain ⟨i, hi, hf, hin, _, hc'⟩ := made_foundAt hT' hcwd' (hsame.cutsAlike hc hA)
          (by rw [hsame.next]; omega) hres hpar h0 hcreate
        have halloc : nodeAlloc v = some i := by
          rw [← hi]
          exact Scan.first_congr fun j _ _ => by rw [(hsame.fields j).1]
        exact Or.inr ⟨by rw [hk], by rw [← hsame.resolve_eq hc]; exact hres, i, halloc, hf,
          by rw [hin, hsame.next], hc'.trans hc⟩
      · -- the path resolves already
        rw [hf.found] at hres
        omega

end Made

/-! ## The node that is opened -/

section Opened

variable {v v' : Vfs σ} {path : CStr} {flags i : Nat} {r : Int}

theorem Vfs.CutsAlike.step_ne_dot (h : v.CutsAlike path) (h0 : 0 ≤ vfsResolve v path) :
    stepOf (trimmed path) ≠ dot := by
  unfold stepOf
  rcases h.tail with ⟨hd, _, hlen | ⟨hlen, _⟩⟩ | ⟨hd, _⟩
  · rw [hd, if_neg (by simp), List.take_of_length_le hlen]
    exact h.down h0 hd
  · rw [hd, if_neg (by simp)]
    intro hdot
    have htake : ((leafOf (trimmed path)).take 63).length
      = 63 := by rw [List.length_take, hlen]; rfl
    rw [hdot] at htake
    exact absurd htake (by decide)
  · rw [hd, if_pos rfl]
    decide

/-- A path that resolves to a file or a device leads to it by way of its directory. -/
theorem Vfs.CutsAlike.foundAt (h : v.CutsAlike path) (hT : TreeOk v) (hroot : NamedRoot v)
    (hcwd : v.cwd < 2 ^ 32) (h0 : 0 ≤ vfsResolve v path)
    (hi : nodeGet v (toU32 (vfsResolve v path)) = some i) (hfile : (v.nodes i).type ≠ .dir) :
    v.FoundAt path i := by
  obtain ⟨absolute, s, hcut⟩ := resolve_cut (σ := σ) (trimmed path)
  obtain ⟨_, hu, hinode⟩ := nodeGet_some hi
  have hnum : vfsResolve v path = (v.nodes i).inode := by
    rw [hinode, toU32_of_nonneg h0 (resolve_lt v path)]
  have hres := (resolve_trimmed v path).symm.trans (hcut v).2
  obtain ⟨d, hd, hw⟩ := reached_bind hT hcwd (hres.symm.trans hnum)
  rw [walk_tail h.tail] at hw
  rcases advance_to_leaf hT.1 hroot hu (fun k hk => hT.1.leaf hu hfile hk)
    (noSlash_stepOf _) hw with ⟨_, hdot⟩ | ⟨hp, _, hlt⟩
  · exact absurd hdot (h.step_ne_dot h0)
  · refine ⟨hu, hnum, ?_⟩
    have hsmall := Nat.lt_of_lt_of_le (hT.1.below i hu) hT.2
    rw [dirPart, (hcut v).1, hd, hp]
    exact toInt32_of_lt (by omega)

theorem Opened.cwd {fd inode : Nat} (h : Opened v fd i flags inode v') : v'.cwd = v.cwd := by
  cases h with
  | plain _ => rfl
  | trunc _ _ _ => rfl

theorem openCreate_done {inode inode' : Int}
    (h : openCreate v path flags inode = (v', .inl inode')) :
    (0 ≤ inode ∧ v' = v ∧ inode' = inode)
      ∨ ∃ parent leaf m, inode < 0 ∧ resolveParent v path = (parent, leaf) ∧ 0 ≤ parent
        ∧ createNode v parent leaf .file 0 0 = some (v', m) ∧ inode' = toInt32 m := by
  unfold openCreate at h
  split at h
  · next hneg =>
    split at h
    · exact absurd h (by simp)
    · cases hp : resolveParent v path with
      | mk parent leaf =>
          rw [hp] at h
          dsimp only at h
          split at h
          · exact absurd h (by simp)
          · next hpar =>
            cases hcreate : createNode v parent leaf .file 0 0 with
            | none =>
                rw [hcreate] at h
                exact absurd h (by simp)
            | some x =>
                obtain ⟨w, m⟩ := x
                rw [hcreate] at h
                cases h
                exact Or.inr ⟨parent, leaf, m, hneg, rfl, by omega, hcreate, rfl⟩
  · next hpos =>
    cases h
    exact Or.inl ⟨by omega, rfl, rfl⟩

/-- A call of `vfs_open` that succeeds: the node it ends at resolves, or was created just now. -/
theorem vfsOpen_done (h : vfsOpen v path flags = .done (v', r)) (h0 : 0 ≤ r) :
    ∃ k v₁ fd i inode, k ≤ 2 ∧ Created path k v v₁ ∧ r = (fd : Nat)
      ∧ nodeGet v₁ (toU32 inode) = some i ∧ (v₁.nodes i).type ≠ .dir
      ∧ Opened v₁ fd i flags (toU32 inode) v'
      ∧ (k ≤ 1 ∧ inode = vfsResolve v₁ path ∧ 0 ≤ inode
        ∨ ∃ k₀ v₀ parent leaf m, k = k₀ + 1 ∧ Created path k₀ v v₀
          ∧ createNode v₀ parent leaf .file 0 0 = some (v₁, m) ∧ inode = toInt32 m) := by
  unfold vfsOpen at h
  split at h
  · cases h
    omega
  · next fd _ =>
    obtain ⟨⟨k, hk, _, hc⟩, hres, herr⟩ := openLookup_created v path flags
    cases hl : openLookup v path flags with
    | mk v₁ res =>
        rw [hl] at h hc hres herr
        cases res with
        | inr e =>
            have := herr e rfl
            cases h
            omega
        | inl inode =>
            have hin : inode = vfsResolve v₁ path := hres inode rfl
            have herr' := (openCreate_created flags hc).2
            rw [← show inode = vfsResolve (v₁, Sum.inl inode).1 path from hin] at herr'
            dsimp only at h herr' hc
            cases ho : openCreate v₁ path flags inode with
            | mk v₂ res' =>
                rw [ho] at h herr'
                cases res' with
                | inr e =>
                    have := herr' e rfl
                    cases h
                    omega
                | inl inode' =>
                    rcases openInode_cases h with ⟨_, hr⟩ | ⟨i, hi, hfile, hr, hop⟩
                    · omega
                    · rcases openCreate_done ho with ⟨hpos, rfl, rfl⟩ | ⟨parent, leaf, m, hneg, hp,
                        hpar, hcreate, hm⟩
                      · exact ⟨k, v₂, fd, i, inode', by omega, hc, hr, hi, hfile, hop,
                          Or.inl ⟨hk, hin, hpos⟩⟩
                      · exact ⟨k + 1, v₂, fd, i,
                          inode', by omega, .node hc (hin ▸ hneg) hp hpar hcreate, hr, hi, hfile, hop,
                          Or.inr ⟨k, v₁, parent, leaf, m, rfl, hc, hcreate, hm⟩⟩

end Opened

/-! ## Calls -/

theorem Created.cwd {v v' : Vfs σ} {path : CStr} {k : Nat} (h : Created path k v v') :
    v'.cwd = v.cwd := by
  induction h with
  | none v => rfl
  | shm t _ ih => exact ih
  | node _ _ _ _ hcreate ih =>
      obtain ⟨_, _, _, _, _, _, rfl⟩ := createNode_some hcreate
      exact ih

theorem cwd_reach {fs : FrameService σ} {v : Vfs σ} (h : Run.Reach Vfs.Starts (Vfs.Steps fs) v) :
    v.cwd < 2 ^ 32 := by
  refine h.invariant (fun v hs => (nameInv_start hs).cwd) fun s s' hs hstep => ?_
  obtain ⟨op, input, fuel, hdone, _⟩ := hstep
  cases step_treeEdit hdone with
  | same h => exact h.cwd hs
  | created _ hc h => exact h.cwd (by rw [hc.cwd]; exact hs)
  | removed _ _ _ _ h => exact h.cwd hs

theorem Created.namedRoot {v v' : Vfs σ} {path : CStr} {k : Nat} (h : Created path k v v')
    (hT : TreeInv v) (hnum : v.nextInode + k < 2 ^ 32) (hr : NamedRoot v) : NamedRoot v' := by
  induction h with
  | none v => exact hr
  | shm t _ ih => exact ih hT hnum hr
  | node hc _ _ _ hcreate ih =>
      obtain ⟨_, i, _, _, hi, _, rfl⟩ := createNode_some hcreate
      have h0 : 0 ≠ i := by
        rintro rfl
        have hused := (hT.created hc (by omega)).1.root.1
        rw [(nodeAlloc_some hi).2] at hused
        cases hused
      exact (congrArg VFSNode.name (Vfs.setNode_ne _ h0)).trans (ih hT (by omega) hr)

theorem namedRoot_start {v : Vfs σ} (h : v.Starts) : NamedRoot v := by
  obtain ⟨n, hn, hP⟩ := starts_induct
    (P := fun n v => n < 20 → (TreeInv v ∧ v.nextInode ≤ n) ∧ NamedRoot v) h
    (fun cwd shm heap _ _ => ⟨⟨treeInv_bareRoot cwd shm heap, Nat.le_refl _⟩, rfl⟩)
    (fun n v path _ type major minor hP hn => by
      obtain ⟨hT, hr⟩ := hP (by omega)
      obtain ⟨k, hk, hc⟩ := makeNode_created v path type major minor
      exact ⟨makeNode_tree hT (by omega) path type major minor, hc.namedRoot hT.1 (by omega) hr⟩)
  exact (hP (by omega)).2

/-- **The root keeps its name.** -/
theorem namedRoot_reach {fs : FrameService σ} {v : Vfs σ}
    (h : Run.Reach Vfs.Starts (Vfs.Steps fs) v) : NamedRoot v := by
  have hboth : TreeOk v ∧ NamedRoot v := by
    refine Run.Reach.invariant (P := fun v : Vfs σ => TreeOk v ∧ NamedRoot v)
      (fun v hs => ⟨treeOk_start hs, namedRoot_start hs⟩) (fun s s' hs hstep => ?_) h
    obtain ⟨op, input, fuel, hdone, hnum⟩ := hstep
    obtain ⟨hT, hr⟩ := hs
    have hbefore := hT.2
    have hedit := step_treeEdit hdone
    refine ⟨⟨hT.1.edit hedit (by omega), hnum⟩, ?_⟩
    cases hedit with
    | same h => exact h.namedRoot hr
    | created hk hc h => exact h.namedRoot (hc.namedRoot hT.1 (by omega) hr)
    | @removed i _ _ hne _ h =>
        have h0 : 0 ≠ i := by
          rintro rfl
          exact hne hT.1.root.2.2.1
        exact h.namedRoot ((congrArg VFSNode.name (Vfs.setNode_ne _ h0)).trans hr)
  exact hboth.2

/-- The calls that create. -/
def VfsOp.creates : VfsOp → Bool
  | .open _ flags => hasFlag flags vfsOCreate
  | .mkdir _ => true
  | .mknodChr _ _ _ => true
  | _ => false

/-- **What the call created or opened is found.** The path leads to the node in slot `i`, and
without its last component it led and leads to the node's directory. If the path was not there, the
node is the one that was made; and a descriptor that was handed out is the node's. -/
structure Vfs.Finds (v v' : Vfs σ) (op : VfsOp) (r : Int) (i : Nat) : Prop where
  now : v'.FoundAt op.path i
  before : vfsResolve v (dirPart op.path) = (v'.nodes i).parent
  made : vfsResolve v op.path < 0 → nodeAlloc v = some i ∧ (v'.nodes i).inode = v.nextInode
  opened : ∀ path flags, op = .open path flags → (v'.fds r.toNat).inode = (v'.nodes i).inode

section Exact

variable {v v' : Vfs σ} {path : CStr} {op : VfsOp} {i k : Nat} {r : Int}

theorem Created.cases (h : Created path k v v') :
    (k = 0 ∧ SameTree v v' ∧ v'.cwd = v.cwd) ∨ (1 ≤ k ∧ vfsResolve v path < 0) := by
  induction h with
  | none v => exact .inl ⟨rfl, .refl v, rfl⟩
  | shm t _ ih =>
      rcases ih with ⟨hk, hs, hc⟩ | h
      · exact .inl ⟨hk, hs.trans (.of_nodes rfl rfl rfl), hc⟩
      · exact .inr h
  | node _ hres _ _ _ ih =>
      rcases ih with ⟨_, hs, hc⟩ | ⟨_, h⟩
      · exact .inr ⟨by omega, by rw [← hs.resolve_eq hc]; exact hres⟩
      · exact .inr ⟨by omega, h⟩

/-- What is known of the one node that a call made. -/
theorem Created.one (h : Created path 1 v v') :
    ∃ i, nodeAlloc v = some i ∧ (v'.nodes i).name = nameOf path
      ∧ (resolveParent v path).1 = (v'.nodes i).parent := by
  generalize hone : 1 = k at h
  induction h with
  | none v => cases hone
  | shm t _ ih => exact ih hone
  | @node k v v' v'' parent leaf type major minor inode hc _ hpar h0 hcreate ih =>
      obtain ⟨_, i, _, _, hi, _, rfl⟩ := createNode_some hcreate
      rcases hc.cases with ⟨_, hs, hcwd⟩ | ⟨hk, _⟩
      · have halloc : nodeAlloc v = some i := by
          rw [← hi]
          exact Scan.first_congr fun j _ _ => by rw [(hs.fields j).1]
        rw [hs.resolveParent_eq hcwd] at hpar
        have hself : (addNode v' i (freshNode v'.nextInode
          (toU32 parent) leaf type major minor)).nodes i
          = freshNode v'.nextInode (toU32 parent) leaf type major minor := Vfs.setNode_self _
        have hleaf : leaf = nameOf path := by rw [← resolveParent_leaf v path, hpar]
        refine ⟨i, halloc, ?_, ?_⟩
        · rw [hself, hleaf]
          change (nameOf path).take 63 = nameOf path
          unfold nameOf
          rw [List.take_take, Nat.min_self]
        · have hlt : parent < 2 ^ 31 := by
            have hp := congrArg Prod.fst hpar
            dsimp only at hp
            rw [← hp]
            unfold resolveParent
            cases lastSlash path with
            | none => exact toInt32_lt _
            | some k => exact resolve_lt v _
          rw [hpar, hself]
          exact (toU32_of_nonneg h0 hlt).symm
      · omega

/-- **What is found is found by one step below its directory.** -/
theorem Vfs.FoundAt.tailFits (h : v.FoundAt path i) (hT : TreeOk v) (hroot : NamedRoot v)
    (hcwd : v.cwd < 2 ^ 32)
    (hleaf : ∀ k, (v.nodes k).used = true → (v.nodes k).parent ≠ (v.nodes i).inode) :
    TailFits (trimmed path) ∧ (doubleSlash (trimmed path) = false → leafOf (trimmed path) ≠ dot)
      ∧ (v.nodes i).name = stepOf (trimmed path) := by
  obtain ⟨absolute, s, hcut⟩ := resolve_cut (σ := σ) (trimmed path)
  have hres := (hcut v).2.symm.trans ((resolve_trimmed v path).trans h.found)
  have hdir := (hcut v).1.symm.trans h.inDir
  obtain ⟨d, hd, hw⟩ := reached_bind hT hcwd hres
  have hdlt := walk_lt hT _ s _ d (Nat.le_refl _) (reached_base hcwd absolute) hd
  rw [hd] at hdir
  obtain rfl : d = (v.nodes i).parent := toInt32_eq_nat hdlt hdir
  exact tailFits_of_walk hT.1 hroot h.used hleaf hw

/-- A node that was made just now has nothing below it. -/
theorem fresh_leaf (hT₀ : TreeInv v) (hT : TreeInv v') (hnew : (v'.nodes i).inode = v.nextInode)
    (hnext : v'.nextInode = v.nextInode + 1) :
    ∀ k, (v'.nodes k).used = true → (v'.nodes k).parent ≠ (v'.nodes i).inode := by
  intro k hk hp
  have hbelow := hT.below k hk
  by_cases h0 : k = 0
  · have hroot := hT₀.below 0 hT₀.root.1
    rw [hT₀.root.2.2.1] at hroot
    rw [h0, hT.root.2.2.2] at hp
    omega
  · obtain ⟨p, _, _, hpi, hlt⟩ := hT.attached k hk h0
    omega

/-- A node that was made is found only where the two readings cut alike. -/
theorem Vfs.FoundAt.cutsAlike_new {v₁ : Vfs σ} (h : v'.FoundAt path i) (hT : TreeOk v)
    (hT' : TreeOk v')
    (hroot : NamedRoot v') (hcwd : v'.cwd < 2 ^ 32) (hc : Created path 1 v v₁) (hs : SameTree v₁ v')
    (hneg : vfsResolve v path < 0) (hbefore : vfsResolve v (dirPart path) = (v'.nodes i).parent)
    (hmade : nodeAlloc v = some i ∧ (v'.nodes i).inode = v.nextInode) : v.CutsAlike path := by
  obtain ⟨j, hj, hname, hpar⟩ := hc.one
  obtain rfl : i = j := Option.some.inj (hmade.1.symm.trans hj)
  obtain ⟨_, _, _, hp, hn⟩ := hs.fields i
  have hnext : v'.nextInode = v.nextInode + 1 := by
    rw [hs.next]
    exact (hT.1.created hc (by have := hT.2; omega)).2
  obtain ⟨htail, _, hstep⟩ := h.tailFits hT' hroot hcwd (fresh_leaf hT.1 hT'.1 hmade.2 hnext)
  refine ⟨htail, fun h0 => absurd hneg (by omega), fun _ => ⟨?_, ?_⟩⟩
  · rw [hbefore, hpar, hp]
  · rw [← hname, ← hn, hstep]

/-- A file or a device that was there is found in its directory only by a step down. -/
theorem Vfs.FoundAt.cutsAlike_old (h : v'.FoundAt path i) (hT' : TreeOk v') (hroot : NamedRoot v')
    (hcwd : v'.cwd < 2 ^ 32) (hfile : (v'.nodes i).type ≠ .dir) (h0 : 0 ≤ vfsResolve v path) :
    v.CutsAlike path := by
  obtain ⟨htail, hdown, _⟩ := h.tailFits hT' hroot hcwd fun k hk => hT'.1.leaf h.used hfile hk
  exact ⟨htail, fun _ => hdown, fun hneg => absurd hneg (by omega)⟩

theorem vfsOpen_foundAt {flags : Nat} (hT : TreeOk v) (hroot : NamedRoot v) (hcwd : v.cwd < 2 ^ 32)
    (hA : v.CutsAlike path)
    (h : vfsOpen v path flags = .done (v', r)) (h0 : 0 ≤ r) (hnum : v'.nextInode ≤ 2 ^ 31) :
    ∃ i, v'.FoundAt path i ∧ vfsResolve v (dirPart path) = (v'.nodes i).parent
      ∧ (v'.fds r.toNat).inode = (v'.nodes i).inode
      ∧ (vfsResolve v path < 0 → nodeAlloc v = some i ∧ (v'.nodes i).inode = v.nextInode) := by
  obtain ⟨k, v₁, fd, i, inode, hk, hc, hr, hi, hfile, hop, hcase⟩ := vfsOpen_done h h0
  obtain ⟨hT₁, hn₁⟩ := hT.1.created hc (by have := hT.2; omega)
  have hs := hop.sameTree
  have hlast : v.nextInode + k ≤ 2 ^ 31 := by
    rw [← hn₁, ← hs.next]
    exact hnum
  obtain ⟨_, hinode, _⟩ := hop.fds
  have hfd : (v'.fds r.toNat).inode = toU32 inode := by rw [hr, Int.toNat_natCast, hinode]
  obtain ⟨_, _, hi3, _⟩ := hs.fields i
  obtain ⟨_, _, hnumber⟩ := nodeGet_some hi
  rcases hc.foundAt hT hcwd hA hlast with ⟨hk0, hsame, hcwd₁⟩ | ⟨hk1, hneg, j, hj, hf, hjn, hcwd₁⟩
  · -- nothing was created
    rcases hcase with ⟨_, hin, hpos⟩ | ⟨k₀, _, _, _, _, hk₀, _⟩
    · subst hin
      have hf : v₁.FoundAt path i := (hsame.cutsAlike hcwd₁ hA).foundAt
        ⟨hT₁, by rw [hsame.next]; exact hT.2⟩ (hsame.namedRoot hroot)
          (by rw [hcwd₁]; exact hcwd) hpos hi hfile
      have hf' := hs.foundAt hop.cwd hf
      have hbefore : vfsResolve v (dirPart path) = (v'.nodes i).parent := by
        rw [← hf'.inDir, hs.resolve_eq hop.cwd, hsame.resolve_eq hcwd₁]
      refine ⟨i, hf', hbefore, by rw [hfd, hi3, hnumber], fun hlt => ?_⟩
      rw [hsame.resolve_eq hcwd₁] at hpos
      omega
    · omega
  · -- the node that was created is the one that is opened
    have hlt : (v₁.nodes j).inode < 2 ^ 31 := by rw [hjn]; omega
    have hto : toU32 inode = (v₁.nodes j).inode := by
      rcases hcase with ⟨_, hin, _⟩ | ⟨k₀, v₀, parent, leaf, m, hk₀, hc₀, hcreate, hin⟩
      · rw [hin, hf.found, toU32_natCast (by omega)]
      · obtain ⟨_, _, _, _, _, hm, _⟩ := createNode_some hcreate
        have hn₀ := (hT.1.created hc₀ (by have := hT.2; omega)).2
        have hmj : m = (v₁.nodes j).inode := by rw [hm, hn₀, hjn]; omega
        rw [hin, hmj, toInt32_of_lt hlt, toU32_natCast (by omega)]
    have hget := hT₁.nodeGet_self hf.used
    rw [← hto, hi] at hget
    obtain rfl : i = j := Option.some.inj hget
    have hbefore : vfsResolve v (dirPart path) = (v'.nodes i).parent := by
      rw [hk1] at hc
      obtain ⟨j, hj', _, hparent⟩ := hc.one
      obtain rfl : i = j := Option.some.inj (hj.symm.trans hj')
      rw [← (hA.new hneg).1, hparent, (hs.fields i).2.2.2.1]
    exact ⟨i, hs.foundAt hop.cwd hf, hbefore, by rw [hfd, hi3, hto], fun _ => ⟨hj, by rw [hi3, hjn]⟩⟩

theorem vfsOpen_cutsAlike {flags : Nat} (hT : TreeOk v) (hT' : TreeOk v') (hroot : NamedRoot v')
    (hcwd : v'.cwd < 2 ^ 32) (h : vfsOpen v path flags = .done (v', r)) (h0 : 0 ≤ r)
    (hf : v.Finds v' (.open path flags) r i) : v.CutsAlike path := by
  obtain ⟨k, v₁, fd, j, inode, hk, hc, hr, hj, hfile, hop, hcase⟩ := vfsOpen_done h h0
  obtain ⟨hT₁, hn₁⟩ := hT.1.created hc (by have := hT.2; omega)
  have hs := hop.sameTree
  have hfound : v'.FoundAt path i := hf.now
  -- the node that is found is the one that was opened
  have hnumber : toU32 inode = (v'.nodes i).inode := by
    have hfd := hf.opened path flags rfl
    rw [hr, Int.toNat_natCast, hop.fds.2.1] at hfd
    exact hfd
  obtain ⟨_, hju, hji⟩ := nodeGet_some hj
  obtain ⟨hu', ht', hi', _, _⟩ := hs.fields j
  obtain rfl : j = i := hT'.1.distinct j i (hu'.trans hju) hfound.used (by rw [hi', hji, hnumber])
  rcases Int.lt_or_le (vfsResolve v path) 0 with hneg | hpos
  · have hmade : nodeAlloc v = some j ∧ (v'.nodes j).inode = v.nextInode := hf.made hneg
    have hone : k = 1 := by
      rcases hcase with ⟨hk1, rfl, hpos⟩ | ⟨k₀, v₀, parent, leaf, m, hk₀, hc₀, hcreate, hin⟩
      · rcases hc.cases with ⟨_, hsame, hcwd₁⟩ | ⟨hk0, _⟩
        · rw [hsame.resolve_eq hcwd₁] at hpos
          omega
        · omega
      · obtain ⟨_, _, _, _, _, hm, _⟩ := createNode_some hcreate
        have hn₀ := (hT.1.created hc₀ (by have := hT.2; omega)).2
        have hnext := hT'.2
        rw [hs.next, hn₁] at hnext
        rw [hin, hm, toInt32_of_lt (by omega), toU32_natCast (by omega)] at hnumber
        omega
    rw [hone] at hc
    exact hfound.cutsAlike_new hT hT' hroot hcwd hc hs hneg hf.before hmade
  · exact hfound.cutsAlike_old hT' hroot hcwd (by rw [ht']; exact hfile) hpos

end Exact

/-- **What a call creates or opens is found under the path it was given**, in the directory that the
path names without its last component, exactly if creation and lookup cut the path alike. -/
theorem Vfs.created_found_iff {fs : FrameService σ} {v v' : Vfs σ} {input : DevInput} {fuel : Nat} {op : VfsOp}
    {r : Int} (hreach : Run.Reach Vfs.Starts (Vfs.Steps fs) v) (hop : op.creates = true)
    (hcall : v.call fs input fuel op = .done (v', r)) (h0 : 0 ≤ r) (hnum : v'.nextInode ≤ 2 ^ 31) :
    (∃ i, v.Finds v' op r i) ↔ v.CutsAlike op.path := by
  have hT := treeOk_reach hreach
  have hcwd := cwd_reach hreach
  have hroot := namedRoot_reach hreach
  have hreach' : Run.Reach Vfs.Starts (Vfs.Steps fs) v' :=
    .next hreach ⟨op, input, fuel, step_of_call hcall, hnum⟩
  have hT' := treeOk_reach hreach'
  have hcwd' := cwd_reach hreach'
  have hroot' := namedRoot_reach hreach'
  -- what `vfs_mkdir` and `vfs_mknod_chr` share
  have hmake : ∀ (type : VFSNodeType) (major minor : Nat),
      makeNode v op.path type major minor = (v', r) → (∀ path flags, op ≠ .open path flags) →
      ((∃ i, v.Finds v' op r i) ↔ v.CutsAlike op.path) := by
    intro type major minor hmk hno
    obtain ⟨parent, leaf, inode, hres, hpar, hpos, hcreate⟩ := makeNode_done hmk h0
    have hc : Created op.path 1 v v' := .node (.none v) hres hpar hpos hcreate
    constructor
    · intro ⟨i, hi⟩
      exact hi.now.cutsAlike_new hT hT' hroot' hcwd' hc (.refl v') hres hi.before (hi.made hres)
    · intro hA
      have hnext := (hT.1.created hc (by have := hT.2; omega)).2
      obtain ⟨i, hi, hf, hin, _⟩ := made_foundAt hT hcwd hA (by omega) hres hpar hpos hcreate
      obtain ⟨j, hj, _, hparent⟩ := hc.one
      obtain rfl : i = j := Option.some.inj (hi.symm.trans hj)
      exact ⟨i, hf, (hA.new hres).1.symm.trans hparent, fun _ => ⟨hi, hin⟩,
        fun path flags h => absurd h (hno path flags)⟩
  cases op with
  | «open» path flags =>
      constructor
      · intro ⟨i, hi⟩
        exact vfsOpen_cutsAlike hT hT' hroot' hcwd' hcall h0 hi
      · intro hA
        obtain ⟨i, hf, hbefore, hfd, hnew⟩ := vfsOpen_foundAt hT hroot hcwd hA hcall h0 hnum
        exact ⟨i, hf, hbefore, hnew, fun _ _ _ => hfd⟩
  | mkdir path => exact hmake _ _ _ (Outcome.done.inj hcall) nofun
  | mknodChr path major minor => exact hmake _ _ _ (Outcome.done.inj hcall) nofun
  | _ => exact absurd hop (by simp [VfsOp.creates])


/-- A file that is made, and then opened with a slash behind its name. -/
theorem Vfs.created_found_iff_slash : ∃ (v₁ v₂ : Vfs Nat) (i j : Nat),
    bootVfs.call zeroedService noInput 0 (.open (cstr "/tmp/f") 5) = .done (v₁, 3)
      ∧ bootVfs.Finds v₁ (.open (cstr "/tmp/f") 5) 3 i
      ∧ v₁.call zeroedService noInput 0 (.open (cstr "/tmp/f/") 5) = .done (v₂, 4)
      ∧ v₁.Finds v₂ (.open (cstr "/tmp/f/") 5) 4 j := by
  obtain ⟨⟨v₁, r⟩, hcall, hfacts⟩ := Outcome.of_get?
    (x := bootVfs.call zeroedService noInput 0 (.open (cstr "/tmp/f") 5))
    (f := fun x : Vfs Nat × Int => decide ((x.2 = 3 ∧ x.1.nextInode ≤ 2 ^ 31)
      ∧ 0 ≤ vfsResolve x.1 (cstr "/tmp/f/")
      ∧ ((x.1.call zeroedService noInput 0 (.open (cstr "/tmp/f/") 5)).get?.map
        fun y => decide (y.2 = 4 ∧ y.1.nextInode ≤ 2 ^ 31)) = some true)) (b := true)
    (by decide +kernel)
  obtain ⟨⟨hr, hnum⟩, hpos, hcall₂⟩ := of_decide_eq_true hfacts
  dsimp only at hr hnum hpos hcall₂
  subst hr
  obtain ⟨⟨v₂, r₂⟩, hcall₂, hfacts₂⟩ := Outcome.of_get? hcall₂
  obtain ⟨hr₂, hnum₂⟩ := of_decide_eq_true hfacts₂
  dsimp only at hr₂ hnum₂
  subst hr₂
  have hreach₁ : Run.Reach Vfs.Starts (Vfs.Steps zeroedService) v₁ :=
    .next (.start bootVfs_starts) ⟨_, noInput, 0, step_of_call hcall, hnum⟩
  obtain ⟨i, hi⟩ := (Vfs.created_found_iff (.start bootVfs_starts) rfl hcall (by decide) hnum).mpr
    ⟨by decide, fun _ _ => by decide, fun _ => by decide +kernel⟩
  obtain ⟨j, hj⟩ := (Vfs.created_found_iff hreach₁ rfl hcall₂ (by decide) hnum₂).mpr
    ⟨by decide, fun _ _ => by decide, fun hneg => absurd hneg (Int.not_lt.mpr hpos)⟩
  exact ⟨v₁, v₂, i, j, hcall, hi, hcall₂, hj⟩

/-- **`vfs_open("/tmp//a", VFS_O_CREATE)` returns a descriptor, and the path does not resolve.** -/
theorem Vfs.created_not_found : ∃ v' : Vfs Nat,
    Run.Reach Vfs.Starts (Vfs.Steps zeroedService) bootVfs
      ∧ bootVfs.call zeroedService noInput 0 (.open (cstr "/tmp//a") 5) = .done (v', 3)
      ∧ vfsResolve v' (cstr "/tmp//a") = -1 := by
  obtain ⟨⟨v', r⟩, hcall, hfacts⟩ := Outcome.of_get?
    (x := bootVfs.call zeroedService noInput 0 (.open (cstr "/tmp//a") 5))
    (f := fun x : Vfs Nat × Int => decide (x.2 = 3 ∧ vfsResolve x.1 (cstr "/tmp//a") = -1))
      (b := true)
    (by decide +kernel)
  obtain ⟨hr, hres⟩ := of_decide_eq_true hfacts
  obtain rfl : r = 3 := hr
  exact ⟨v', .start bootVfs_starts, hcall, hres⟩

end VnlKernel
