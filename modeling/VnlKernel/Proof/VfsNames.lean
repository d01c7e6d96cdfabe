import VnlKernel.Proof.VfsTree

/-!
# Names in a directory

Whether a path exists is asked of one parser and where to create is asked of another.
They agree on a path whose last component fits a name, whose part before the last
slash fits the buffer that `resolve_parent` copies it into, and in which no second
slash stands before the last. On such paths a node is created only under a name that
its directory does not have yet.

They part ways on the others. `vfs_open` does not even look at whether the leaf it was
handed is empty, as `vfs_mkdir` and `vfs_mknod_chr` do.
-/

namespace VnlKernel

open Bits

variable {σ : Type}

/-! ## The walk along a path -/

section Walk

variable (v : Vfs σ)

/-- One component of the walk. -/
def advance (cur : Nat) (component : CStr) : Option Nat :=
  if component = dot then some cur
  else if component = dotdot then
    match nodeGet v cur with
    | some i => some (v.nodes i).parent
    | none => some cur
  else (findChild v cur component).map fun i => (v.nodes i).inode

/-- The walk, with just the fuel it needs. -/
def walk (cur : Nat) (path : CStr) : Option Nat := resolveLoop v path.length cur path

/-- The rest of the path after the first component. -/
def afterComponent (path : CStr) : CStr := skipSlash (takeComponent (vfsNameMax - 1) path).2

theorem resolveLoop_cons (fuel cur : Nat) (c : UInt8) (path : CStr) :
    resolveLoop v (fuel + 1) cur (c :: path)
      = (advance v cur (takeComponent (vfsNameMax - 1) (c :: path)).1).bind fun next =>
          resolveLoop v fuel next (afterComponent (c :: path)) := by
  rw [resolveLoop]
  unfold advance afterComponent
  dsimp only
  split
  · rfl
  · split
    · cases nodeGet v cur with
      | none => rfl
      | some i => rfl
    · cases findChild v cur (takeComponent (vfsNameMax - 1) (c :: path)).1 with
      | none => rfl
      | some i => rfl

theorem resolveLoop_nil (fuel cur : Nat) : resolveLoop v fuel cur [] = some cur := by
  cases fuel with
  | zero => rw [resolveLoop]
  | succ n => rw [resolveLoop]

end Walk

section Components

variable {n : Nat} {path d leaf : CStr}

/-- A component and what is left make up the path. -/
theorem takeComponent_append_eq : ∀ (n : Nat) (path : CStr),
    (takeComponent n path).1 ++ (takeComponent n path).2 = path
  | 0, _ => rfl
  | _ + 1, [] => rfl
  | n + 1, c :: path => by
      rw [takeComponent]
      split
      · rfl
      · exact congrArg (c :: ·) (takeComponent_append_eq n path)

theorem skipSlash_length (path : CStr) : (skipSlash path).length ≤ path.length := by
  cases path with
  | nil => exact Nat.le_refl _
  | cons c path =>
      rw [skipSlash]
      split
      · exact Nat.le_succ _
      · exact Nat.le_refl _

/-- Every component uses up a byte at least. -/
theorem afterComponent_length (c : UInt8) (path : CStr) :
    (afterComponent (c :: path)).length ≤ path.length := by
  unfold afterComponent vfsNameMax
  rw [takeComponent]
  split
  · next hc => rw [skipSlash, if_pos hc]
  · have h := congrArg List.length (takeComponent_append_eq 62 path)
    rw [List.length_append] at h
    have := skipSlash_length (takeComponent 62 path).2
    show (skipSlash (takeComponent 62 path).2).length ≤ _
    omega

/-- Fuel beyond the length of the path makes no difference. -/
theorem resolveLoop_fuel (v : Vfs σ) : ∀ (n fuel cur : Nat) (path : CStr), path.length ≤ n →
    path.length ≤ fuel → resolveLoop v fuel cur path = walk v cur path
  | _, fuel, cur, [], _, _ => by
      rw [walk, resolveLoop_nil, resolveLoop_nil]
  | n + 1, fuel + 1, cur, c :: path, hn, hf => by
      have hlen := afterComponent_length c path
      rw [List.length_cons] at hn hf
      rw [walk, List.length_cons, resolveLoop_cons, resolveLoop_cons]
      congr 1
      funext next
      rw [resolveLoop_fuel v n fuel next _ (by omega) (by omega),
        resolveLoop_fuel v n path.length next _ (by omega) hlen]

theorem walk_cons (v : Vfs σ) (cur : Nat) (c : UInt8) (path : CStr) :
    walk v cur (c :: path)
      = (advance v cur (takeComponent (vfsNameMax - 1) (c :: path)).1).bind fun next =>
          walk v next (afterComponent (c :: path)) := by
  rw [walk, List.length_cons, resolveLoop_cons]
  congr 1
  funext next
  exact resolveLoop_fuel v _ _ _ _ (Nat.le_refl _) (afterComponent_length c path)

/-- A component ends at the slash that follows. -/
theorem takeComponent_before_slash : ∀ (n : Nat) (d : CStr),
    takeComponent n (d ++ slash :: leaf)
      = ((takeComponent n d).1, (takeComponent n d).2 ++ slash :: leaf)
  | 0, _ => rfl
  | _ + 1, [] => rfl
  | n + 1, c :: d => by
      rw [List.cons_append, takeComponent, takeComponent]
      split
      · rfl
      · rw [takeComponent_before_slash n d]

/-- A short text without slashes is one component. -/
theorem takeComponent_all : ∀ {n : Nat} {leaf : CStr}, slash ∉ leaf → leaf.length ≤ n →
    takeComponent n leaf = (leaf, [])
  | 0, [], _, _ => rfl
  | _ + 1, [], _, _ => rfl
  | n + 1, c :: leaf, hs, hn => by
      rw [List.mem_cons, not_or] at hs
      rw [takeComponent, if_neg (Ne.symm hs.1), takeComponent_all hs.2 (by simpa using hn)]

end Components

/-- **The walk goes through a directory**: to its last component, and on from there. -/
theorem walk_through (v : Vfs σ) (leaf : CStr) : ∀ (n : Nat) (d : CStr) (cur : Nat), d.length ≤ n →
    d ≠ [] → d.getLast? ≠ some slash →
    walk v cur (d ++ slash :: leaf) = (walk v cur d).bind fun next => walk v next leaf
  | n, [], cur, _, hne, _ => absurd rfl hne
  | n + 1, c :: d, cur, hn, _, hlast => by
      rw [List.cons_append, walk_cons, walk_cons, ← List.cons_append]
      unfold afterComponent
      rw [takeComponent_before_slash]
      have hparts := takeComponent_append_eq (vfsNameMax - 1) (c :: d)
      have hlen := afterComponent_length c d
      unfold afterComponent at hlen
      generalize takeComponent (vfsNameMax - 1) (c :: d) = cut at hparts hlen ⊢
      obtain ⟨component, rest⟩ := cut
      dsimp only at hparts hlen ⊢
      rw [Option.bind_assoc]
      congr 1
      funext next
      cases rest with
      | nil =>
          -- the directory ends here: only its slash is skipped
          have hskip : skipSlash (slash :: leaf) = leaf := by rw [skipSlash, if_pos rfl]
          have hstop : walk v next (skipSlash []) = some next := resolveLoop_nil v _ _
          rw [List.nil_append, hskip, hstop]
          rfl
      | cons r rest =>
          have hlast' : (r :: rest).getLast? ≠ some slash := by
            rw [← hparts, List.getLast?_append_of_ne_nil _ (by simp)] at hlast
            exact hlast
          have hskip : skipSlash (r :: rest ++ slash :: leaf)
              = skipSlash (r :: rest) ++ slash :: leaf := by
            rw [List.cons_append, skipSlash, skipSlash]
            split
            · rfl
            · rfl
          rw [hskip]
          rw [List.length_cons] at hn
          refine walk_through v leaf n _ next (by omega) ?_ ?_
          · intro h0
            rw [skipSlash] at h0
            split at h0
            · next hr =>
              subst h0
              exact hlast' (by rw [hr]; rfl)
            · exact absurd h0 (by simp)
          · rw [skipSlash]
            split
            · cases rest with
              | nil => simp
              | cons r' rest => rwa [List.getLast?_cons_cons] at hlast'
            · exact hlast'

/-- A walk of one component. -/
theorem walk_leaf (v : Vfs σ) (cur : Nat) {leaf : CStr} (hne : leaf ≠ []) (hsl : slash ∉ leaf)
    (hlen : leaf.length ≤ 63) : walk v cur leaf = advance v cur leaf := by
  obtain ⟨c, rest, rfl⟩ := List.exists_cons_of_ne_nil hne
  rw [walk_cons]
  unfold afterComponent vfsNameMax
  rw [takeComponent_all hsl hlen]
  cases advance v cur (c :: rest) with
  | none => rfl
  | some next => exact resolveLoop_nil v _ _

/-! ## The two parsers agree -/

/-- A path both parsers read alike. -/
def Plain (path : CStr) : Prop :=
  match lastSlash path with
  | none => path.length ≤ 63
  | some k => k ≤ 255 ∧ (path.take k).getLast? ≠ some slash ∧ (path.drop (k + 1)).length ≤ 63

instance (path : CStr) : Decidable (Plain path) := by
  unfold Plain
  cases lastSlash path with
  | none => exact inferInstance
  | some k => exact inferInstance

theorem lastSlash_none : ∀ {path : CStr}, lastSlash path = none → slash ∉ path
  | [], _ => by simp
  | c :: path, h => by
      rw [lastSlash] at h
      split at h
      · exact absurd h (by simp)
      · next hn =>
        split at h
        · exact absurd h (by simp)
        · next hc =>
          rw [List.mem_cons, not_or]
          exact ⟨fun he => hc he.symm, lastSlash_none hn⟩

theorem lastSlash_of_notMem : ∀ {path : CStr}, slash ∉ path → lastSlash path = none
  | [], _ => rfl
  | c :: path, h => by
      rw [List.mem_cons, not_or] at h
      rw [lastSlash, lastSlash_of_notMem h.2]
      exact if_neg (Ne.symm h.1)

theorem lastSlash_some : ∀ {path : CStr} {k : Nat}, lastSlash path = some k →
    path = path.take k ++ slash :: path.drop (k + 1) ∧ slash ∉ path.drop (k + 1)
  | [], _, h => absurd h (by simp [lastSlash])
  | c :: path, k, h => by
      rw [lastSlash] at h
      split at h
      · next j hj =>
        cases h
        obtain ⟨h1, h2⟩ := lastSlash_some hj
        rw [List.take_succ_cons, List.drop_succ_cons, List.cons_append, ← h1]
        exact ⟨rfl, h2⟩
      · next hn =>
        split at h
        · next hc =>
          cases h
          exact ⟨by rw [hc]; rfl, lastSlash_none hn⟩
        · exact absurd h (by simp)

section Agree

variable {v : Vfs σ}

/-- The numbers a walk can come to. -/
theorem advance_lt (h : TreeOk v) {cur next : Nat} {component : CStr}
    (ha : advance v cur component = some next) : next = cur ∨ next < 2 ^ 31 := by
  have hlt : ∀ i, (v.nodes i).used = true → (v.nodes i).inode < 2 ^ 31 := fun i hu =>
    Nat.lt_of_lt_of_le (h.1.below i hu) h.2
  unfold advance at ha
  split at ha
  · cases ha; exact Or.inl rfl
  · split at ha
    · cases hg : nodeGet v cur with
      | none => rw [hg] at ha; cases ha; exact Or.inl rfl
      | some i =>
          rw [hg] at ha
          cases ha
          obtain ⟨_, hu, _⟩ := nodeGet_some hg
          right
          by_cases hi : i = 0
          · rw [hi, h.1.root.2.2.2]; decide
          · obtain ⟨p, hp, _, hpi, _⟩ := h.1.attached i hu hi
            rw [← hpi]
            exact hlt p hp
    · cases hf : findChild v cur component with
      | none => rw [hf] at ha; exact absurd ha (by simp)
      | some i =>
          rw [hf] at ha
          cases ha
          exact Or.inr (hlt i (findChild_some hf).2.1)

theorem walk_lt (h : TreeOk v) : ∀ (n : Nat) (path : CStr) (cur next : Nat), path.length ≤ n →
    cur < 2 ^ 32 → walk v cur path = some next → next < 2 ^ 32
  | _, [], cur, next, _, hcur, hw => by
      rw [walk, resolveLoop_nil] at hw
      cases hw
      exact hcur
  | n + 1, c :: path, cur, next, hn, hcur, hw => by
      rw [walk_cons, Option.bind_eq_some_iff] at hw
      obtain ⟨mid, ha, hw⟩ := hw
      have hlen := afterComponent_length c path
      rw [List.length_cons] at hn
      have hmid : mid < 2 ^ 32 := by
        rcases advance_lt h ha with rfl | hlt
        · exact hcur
        · omega
      exact walk_lt h n _ mid next (by omega) hmid hw

/-- The last component: if it leads nowhere, or to what does not look like an inode, it is a proper
name that the directory does not have. -/
theorem leaf_absent (h : TreeOk v) (cur : Nat) {leaf : CStr} (hcur : cur < 2 ^ 32)
    (hsl : slash ∉ leaf) (hlen : leaf.length ≤ 63) (hdir : 0 ≤ toInt32 cur)
    (hno : ∀ next, walk v cur leaf = some next → toInt32 next < 0) :
    leaf ≠ [] ∧ leaf ≠ dot ∧ leaf ≠ dotdot ∧ findChild v cur leaf = none := by
  have hne : leaf ≠ [] := by
    rintro rfl
    have := hno cur (resolveLoop_nil v _ _)
    omega
  have hstep : ∀ next, advance v cur leaf = some next → toInt32 next < 0 := by
    intro next ha
    obtain ⟨c, rest, rfl⟩ := List.exists_cons_of_ne_nil hne
    refine hno next ?_
    rw [walk_cons]
    unfold afterComponent vfsNameMax
    rw [takeComponent_all hsl hlen, ha]
    exact resolveLoop_nil v _ _
  -- a number that a walk comes to is the directory's, or fits an `int`
  have hnone : advance v cur leaf = none := by
    cases ha : advance v cur leaf with
    | none => rfl
    | some next =>
        have hneg := hstep next ha
        rcases advance_lt h ha with rfl | hlt
        · omega
        · rw [toInt32_of_lt hlt] at hneg
          omega
  unfold advance at hnone
  split at hnone
  · exact absurd hnone (by simp)
  · next hdot =>
    split at hnone
    · cases hg : nodeGet v cur with
      | none => rw [hg] at hnone; exact absurd hnone (by simp)
      | some i => rw [hg] at hnone; exact absurd hnone (by simp)
    · next hdd => exact ⟨hne, hdot, hdd, by simpa using hnone⟩

theorem toU32_toInt32 {n : Nat} (hn : n < 2 ^ 32) : toU32 (toInt32 n) = n := by
  unfold toU32 toInt32
  rw [Nat.mod_eq_of_lt hn]
  split
  · omega
  · omega

/-- Where the walk along a path starts. -/
def startOf (v : Vfs σ) (c : UInt8) : Nat := if c = slash then vfsInodeRoot else v.cwd

/-- What `vfs_resolve` returns, as a walk. -/
theorem vfsResolve_walk (v : Vfs σ) (c : UInt8) (path : CStr) : vfsResolve v (c :: path) =
    ((walk v (startOf v c) (skipSlash (c :: path))).map toInt32).getD (-1) := by
  unfold vfsResolve walk startOf
  rw [skipSlash]
  by_cases hc : c = slash
  · simp only [if_pos hc]
    cases resolveLoop v path.length vfsInodeRoot path with
    | none => rfl
    | some inode => rfl
  · simp only [if_neg hc]
    cases resolveLoop v (c :: path).length v.cwd (c :: path) with
    | none => rfl
    | some inode => rfl

/-- The path below a directory, resolved: first the directory, then the rest. -/
theorem vfsResolve_below (v : Vfs σ) {d : CStr} (leaf : CStr) (hne : d ≠ [])
    (hlast : d.getLast? ≠ some slash) :
    ∃ cur, (cur = vfsInodeRoot ∨ cur = v.cwd) ∧ ∃ s : CStr,
      vfsResolve v d = ((walk v cur s).map toInt32).getD (-1)
      ∧ vfsResolve v (d ++ slash :: leaf)
        = (((walk v cur s).bind fun next => walk v next leaf).map toInt32).getD (-1) := by
  obtain ⟨c, d, rfl⟩ := List.exists_cons_of_ne_nil hne
  refine ⟨startOf v c, ?_, skipSlash (c :: d), vfsResolve_walk v c d, ?_⟩
  · unfold startOf
    split
    · exact Or.inl rfl
    · exact Or.inr rfl
  · rw [List.cons_append, vfsResolve_walk]
    have hskip : skipSlash (c :: (d ++ slash :: leaf)) = skipSlash (c :: d) ++ slash :: leaf := by
      rw [skipSlash, skipSlash]
      split
      · rfl
      · rfl
    rw [hskip, walk_through v leaf _ _ _ (Nat.le_refl _)]
    · rw [skipSlash]
      split
      · next hc =>
        rintro rfl
        exact hlast (by rw [hc]; rfl)
      · simp
    · rw [skipSlash]
      split
      · cases d with
        | nil => simp
        | cons r d => rwa [List.getLast?_cons_cons] at hlast
      · exact hlast

/-- **A plain path that does not resolve names something new**: a proper name, and one that the
directory it would be created in does not have. -/
theorem create_fresh (h : TreeOk v) (hcwd : v.cwd < 2 ^ 32) {path leaf : CStr} {parent : Int}
    (hplain : Plain path) (hres : vfsResolve v path < 0)
    (hp : resolveParent v path = (parent, leaf)) (h0 : 0 ≤ parent) :
    leaf.take 63 = leaf ∧ slash ∉ leaf ∧ leaf ≠ [] ∧ leaf ≠ dot ∧ leaf ≠ dotdot
      ∧ findChild v (toU32 parent) leaf = none := by
  unfold Plain at hplain
  unfold resolveParent vfsNameMax at hp
  cases hl : lastSlash path with
  -- no slash: the name stands in the current directory
  | none =>
      rw [hl] at hplain hp
      dsimp only at hplain hp
      have hsl := lastSlash_none hl
      rw [List.take_of_length_le (by omega), Prod.mk.injEq] at hp
      obtain ⟨rfl, rfl⟩ := hp
      rw [toU32_toInt32 hcwd]
      refine ⟨List.take_of_length_le hplain, hsl,
        leaf_absent h v.cwd hcwd hsl hplain h0 fun next hw => ?_⟩
      cases path with
      -- the empty path resolves to that directory itself
      | nil =>
          rw [walk, resolveLoop_nil] at hw
          cases hw
          exact hres
      | cons c rest =>
          have hc : c ≠ slash := fun hc => hsl (by rw [hc]; exact List.mem_cons_self)
          have hskip : skipSlash (c :: rest) = c :: rest := by rw [skipSlash, if_neg hc]
          rw [vfsResolve_walk, hskip, show startOf v c = v.cwd from if_neg hc, hw] at hres
          exact hres
  | some k =>
      rw [hl] at hplain hp
      dsimp only at hplain hp
      obtain ⟨hk, hlast, hlen⟩ := hplain
      obtain ⟨hpath, hsl⟩ := lastSlash_some hl
      rw [List.take_of_length_le (show (path.drop (k + 1)).length ≤ 64 - 1 by omega),
        Prod.mk.injEq, if_neg (show ¬ k ≥ 256 by omega)] at hp
      obtain ⟨hpar, rfl⟩ := hp
      rw [hpath] at hres
      -- the text before the last slash, and the name behind it
      generalize hd : path.take k = d at *
      generalize path.drop (k + 1) = leaf at *
      refine ⟨List.take_of_length_le hlen, hsl, ?_⟩
      by_cases hk0 : k = 0
      · -- the directory is the root
        have hd0 : d = [] := by rw [← hd, hk0]; rfl
        subst hd0
        rw [if_pos hk0] at hpar
        have hroot : parent = 0 := hpar.symm.trans rfl
        subst hroot
        refine leaf_absent h 0 (by decide) hsl hlen (by decide) fun next hw => ?_
        rw [List.nil_append, vfsResolve_walk, show skipSlash (slash :: leaf) = leaf by
          rw [skipSlash, if_pos rfl], show startOf v slash = 0 from if_pos rfl, hw] at hres
        exact hres
      · rw [if_neg hk0] at hpar
        have hdne : d ≠ [] := by
          rintro rfl
          rcases List.take_eq_nil_iff.mp hd with h | h
          · exact hk0 h
          · rw [h] at hpath
            exact absurd hpath (by simp)
        -- both paths walk through the directory, the whole one a name further
        obtain ⟨cur, hcur, s, hs1, hs2⟩ := vfsResolve_below v leaf hdne hlast
        rw [hs1] at hpar
        rw [hs2] at hres
        cases hw : walk v cur s with
        | none =>
            rw [hw] at hpar
            have : parent = -1 := hpar.symm
            omega
        | some dir =>
            rw [hw] at hpar hres
            have hcur' : cur < 2 ^ 32 := by
              rcases hcur with rfl | rfl
              · decide
              · exact hcwd
            have hdir := walk_lt h _ s cur dir (Nat.le_refl _) hcur' hw
            have hpar : toInt32 dir = parent := hpar
            rw [← hpar] at h0 ⊢
            rw [toU32_toInt32 hdir]
            refine leaf_absent h dir hdir hsl hlen h0 fun next hw' => ?_
            rw [Option.bind_some, hw'] at hres
            exact hres

end Agree

/-! ## The invariant -/

/-- A name as a directory should hold it. -/
def ProperName (name : CStr) : Prop := name ≠ [] ∧ slash ∉ name ∧ name ≠ dot ∧ name ≠ dotdot

theorem advance_proper (v : Vfs σ) (cur : Nat) {name : CStr} (h : ProperName name) :
    advance v cur name = (findChild v cur name).map fun i => (v.nodes i).inode := by
  unfold advance
  rw [if_neg h.2.2.1, if_neg h.2.2.2]

/-- Entries are well named, and no directory has two of one name. -/
structure WellNamed (v : Vfs σ) : Prop where
  unique : ∀ i j, (v.nodes i).used = true → (v.nodes j).used = true →
    (v.nodes i).parent = (v.nodes j).parent → (v.nodes i).name = (v.nodes j).name → i = j
  proper : ∀ i, (v.nodes i).used = true → (v.nodes i).inode ≠ vfsInodeRoot →
    ProperName (v.nodes i).name

/-- An entry is the one its directory has under its name. -/
theorem WellNamed.findChild_self {v : Vfs σ} {i : Nat} (h : WellNamed v) (hT : TreeInv v)
    (hu : (v.nodes i).used = true) :
    findChild v (v.nodes i).parent (v.nodes i).name = some i := by
  refine Scan.first_unique (hT.bound i hu) (by simp [hu]) fun j _ hj => ?_
  simp only [Bool.and_eq_true, decide_eq_true_eq] at hj
  exact h.unique j i hj.1.1 hu hj.1.2 hj.2

/-- What the calls keep on the way. The root is the one entry with a slash in its name. -/
structure NameInv (v : Vfs σ) : Prop where
  tree : TreeOk v
  cwd : v.cwd < 2 ^ 32
  root : (v.nodes 0).name = [slash]
  named : WellNamed v

section Inv

variable {v v' : Vfs σ}

theorem NameInv.same (h : NameInv v) (hs : SameTree v v') : NameInv v' where
  tree := ⟨h.tree.1.same hs, by rw [hs.next]; exact h.tree.2⟩
  cwd := hs.cwd h.cwd
  root := by rw [(hs.fields 0).2.2.2.2]; exact h.root
  named := by
    constructor
    · intro i j hi hj hp hn
      obtain ⟨i1, _, _, i4, i5⟩ := hs.fields i
      obtain ⟨j1, _, _, j4, j5⟩ := hs.fields j
      rw [i1] at hi
      rw [j1] at hj
      rw [i4, j4] at hp
      rw [i5, j5] at hn
      exact h.named.unique i j hi hj hp hn
    · intro i hi hr
      obtain ⟨i1, _, i3, _, i5⟩ := hs.fields i
      rw [i1] at hi
      rw [i3] at hr
      rw [i5]
      exact h.named.proper i hi hr

/-- A new entry, under a proper name that its directory does not have. -/
theorem NameInv.add (h : NameInv v) {p i : Nat} {leaf : CStr} {type : VFSNodeType}
    {major minor : Nat}
    (hp : (v.nodes p).used = true) (hd : (v.nodes p).type = .dir) (hi : nodeAlloc v = some i)
    (hnum : v.nextInode + 1 ≤ 2 ^ 31) (htake : leaf.take 63 = leaf) (hname : ProperName leaf)
    (habs : findChild v (v.nodes p).inode leaf = none) :
    NameInv (addNode v i (freshNode v.nextInode (v.nodes p).inode leaf type major minor)) := by
  have hT := h.tree.1.add leaf type major minor hp hd hi (by omega)
  obtain ⟨hlt, hfree⟩ := nodeAlloc_some hi
  have hused : ∀ {j}, (v.nodes j).used = true → j ≠ i := by
    rintro j hj rfl
    rw [hfree] at hj
    exact absurd hj (by simp)
  generalize hn : freshNode v.nextInode (v.nodes p).inode leaf type major minor = n at hT ⊢
  have hself : (addNode v i n).nodes i = n := Vfs.setNode_self n
  have hother : ∀ {j}, j ≠ i → (addNode v i n).nodes j = v.nodes j := fun hj => Vfs.setNode_ne n hj
  have hpar : n.parent = (v.nodes p).inode := by rw [← hn]; rfl
  have hnm : n.name = leaf := by rw [← hn]; exact htake
  -- nothing in the directory has the name
  have hnew : ∀ j, (v.nodes j).used = true → (v.nodes j).parent = n.parent →
      (v.nodes j).name ≠ n.name := by
    intro j hj hjp
    rw [hnm]
    exact findChild_none habs (h.tree.1.bound j hj) hj (hjp.trans hpar)
  refine ⟨⟨hT, ?_⟩, h.cwd, ?_, ?_, ?_⟩
  · show u32 (v.nextInode + 1) ≤ _
    rw [show u32 (v.nextInode + 1) = v.nextInode + 1 from Nat.mod_eq_of_lt (by omega)]
    exact hnum
  · rw [hother (hused h.tree.1.root.1)]; exact h.root
  · intro j k hj hk hjk hnames
    by_cases hji : j = i
    · by_cases hki : k = i
      · rw [hji, hki]
      · rw [hother hki] at hk hjk hnames
        rw [hji, hself] at hjk hnames
        exact absurd hnames.symm (hnew k hk hjk.symm)
    · rw [hother hji] at hj hjk hnames
      by_cases hki : k = i
      · rw [hki, hself] at hjk hnames
        exact absurd hnames (hnew j hj hjk)
      · rw [hother hki] at hk hjk hnames
        exact h.named.unique j k hj hk hjk hnames
  · intro j hj hr
    by_cases hji : j = i
    · rw [hji, hself, hnm]; exact hname
    · rw [hother hji] at hj hr ⊢
      exact h.named.proper j hj hr

/-- Creations from a plain path. -/
theorem NameInv.created {path : CStr} {k : Nat} (h : NameInv v) (hplain : Plain path)
    (hc : Created path k v v') (hnum : v.nextInode + k ≤ 2 ^ 31) :
    NameInv v' ∧ v'.nextInode = v.nextInode + k := by
  induction hc with
  | none v => exact ⟨h, rfl⟩
  | shm t _ ih =>
      obtain ⟨h', hn⟩ := ih h hnum
      exact ⟨h'.same (.of_nodes rfl rfl rfl), hn⟩
  | @node k v v' v'' parent leaf type major minor inode _ hres hpar h0 hcreate ih =>
      obtain ⟨h', hn⟩ := ih h (by omega)
      obtain ⟨htake, hsl, hne, hdot, hdd, habs⟩ :=
        create_fresh h'.tree h'.cwd hplain hres hpar h0
      obtain ⟨p, i, hp, hd, hi, _, rfl⟩ := createNode_some hcreate
      obtain ⟨_, hpu, hpi⟩ := nodeGet_some hp
      rw [← hpi] at habs ⊢
      refine ⟨h'.add hpu hd hi (by omega) htake ⟨hne, hsl, hdot, hdd⟩ habs, ?_⟩
      show u32 (v'.nextInode + 1) = _
      rw [hn, show u32 (v.nextInode + k + 1) = v.nextInode + k + 1 from Nat.mod_eq_of_lt (by omega)]
      omega

theorem NameInv.remove (h : NameInv v) {i : Nat} (hu : (v.nodes i).used = true)
    (hroot : (v.nodes i).inode ≠ vfsInodeRoot)
    (hempty : (v.nodes i).type = .dir → ∀ j, j < vfsMaxNodes → (v.nodes j).used = true →
      (v.nodes j).parent ≠ (v.nodes i).inode) : NameInv (v.setNode i .zero) := by
  have hne : ∀ {j}, ((v.setNode i .zero).nodes j).used = true → j ≠ i := by
    rintro j hj rfl
    rw [Vfs.setNode_self] at hj
    exact absurd hj (by simp [VFSNode.zero])
  have hkeep : ∀ {j}, j ≠ i → (v.setNode i .zero).nodes j = v.nodes j :=
    fun hj => Vfs.setNode_ne _ hj
  have h0 : 0 ≠ i := by
    rintro rfl
    exact hroot h.tree.1.root.2.2.1
  refine ⟨⟨h.tree.1.remove hu hroot hempty, h.tree.2⟩, h.cwd, ?_, ?_, ?_⟩
  · rw [hkeep h0]; exact h.root
  · intro j k hj hk hp hn
    have hji := hne hj
    have hki := hne hk
    rw [hkeep hji] at hj hp hn
    rw [hkeep hki] at hk hp hn
    exact h.named.unique j k hj hk hp hn
  · intro j hj hr
    have hji := hne hj
    rw [hkeep hji] at hj hr ⊢
    exact h.named.proper j hj hr

/-- A step whose path is plain. -/
theorem NameInv.edit {path : CStr} (h : NameInv v) (hplain : Plain path) (he : TreeEdit path v v')
    (hnum : v'.nextInode ≤ 2 ^ 31) : NameInv v' := by
  cases he with
  | same hs => exact h.same hs
  | created hk hc hs =>
      have hbefore := h.tree.2
      have hn := (h.tree.1.created hc (by omega)).2
      have hs' := hs.next
      exact (h.created hplain hc (by omega)).1.same hs
  | removed _ hu hroot hempty hs => exact (h.remove hu hroot hempty).same hs

end Inv

/-! ## Runs -/

/-- A call that creates does so from a path that both parsers read alike, or from none. -/
def Vfs.Agreeable (v : Vfs σ) : VfsOp → Prop
  | .open path flags => hasFlag flags vfsOCreate = true → 0 ≤ vfsResolve v path ∨ Plain path
  | .mkdir path => 0 ≤ vfsResolve v path ∨ Plain path ∨ path.getLast? = some slash
  | .mknodChr path _ _ => 0 ≤ vfsResolve v path ∨ Plain path ∨ path.getLast? = some slash
  | _ => True

section Runs

variable {v v' : Vfs σ}

theorem resolveLoop_shm (v : Vfs σ) (t : ShmTable) : ∀ (fuel cur : Nat) (path : CStr),
    resolveLoop { v with shm := t } fuel cur path = resolveLoop v fuel cur path
  | fuel, cur, [] => by rw [resolveLoop_nil, resolveLoop_nil]
  | 0, _, _ :: _ => rfl
  | fuel + 1, cur, c :: path => by
      rw [resolveLoop_cons, resolveLoop_cons]
      congr 1
      funext next
      exact resolveLoop_shm v t fuel next _

theorem vfsResolve_shm (v : Vfs σ) (t : ShmTable) (path : CStr) :
    vfsResolve { v with shm := t } path = vfsResolve v path := by
  cases path with
  | nil => rfl
  | cons c path =>
      rw [vfsResolve_walk, vfsResolve_walk]
      unfold walk
      rw [resolveLoop_shm]
      rfl

/-- Nothing is created from a path that resolves. -/
theorem Created.resolved {path : CStr} {k : Nat} (h : Created path k v v')
    (hres : 0 ≤ vfsResolve v path) : k = 0 ∧ vfsResolve v' path = vfsResolve v path := by
  induction h with
  | none v => exact ⟨rfl, rfl⟩
  | shm t _ ih =>
      obtain ⟨hk, hr⟩ := ih hres
      exact ⟨hk, by rw [vfsResolve_shm, hr]⟩
  | node _ hneg _ _ _ ih =>
      obtain ⟨_, hr⟩ := ih hres
      omega

theorem Created.sameTree {path : CStr} {k : Nat} (h : Created path k v v') (hk : k = 0) :
    SameTree v v' := by
  induction h with
  | none v => exact .refl v
  | shm t _ ih => exact (ih hk).trans (.of_nodes rfl rfl rfl)
  | node _ _ _ _ _ _ => exact absurd hk (by omega)

/-- A path that ends in a slash has an empty leaf. -/
theorem resolveParent_trailing {path : CStr} (h : path.getLast? = some slash) :
    (resolveParent v path).2 = [] := by
  unfold resolveParent
  cases hl : lastSlash path with
  | none => exact absurd (List.mem_of_getLast? h) (lastSlash_none hl)
  | some k =>
      obtain ⟨hpath, hsl⟩ := lastSlash_some hl
      have hnil : path.drop (k + 1) = [] := by
        cases hd : path.drop (k + 1) with
        | nil => rfl
        | cons c rest =>
            rw [hd] at hpath hsl
            rw [hpath, List.getLast?_append_of_ne_nil _ (by simp), List.getLast?_cons_cons] at h
            exact absurd (List.mem_of_getLast? h) hsl
      dsimp only
      rw [hnil]
      rfl

theorem makeNode_agreeable {path : CStr} (type : VFSNodeType) (major minor : Nat)
    (h : 0 ≤ vfsResolve v path ∨ Plain path ∨ path.getLast? = some slash) :
    Plain path ∨ SameTree v (makeNode v path type major minor).1 := by
  rcases makeNode_cases v path type major minor with hv | ⟨parent, leaf, inode, h1, h2, _, h4, _⟩
  · exact Or.inr (by rw [hv]; exact .refl v)
  · rcases h with h | h | h
    · omega
    · exact Or.inl h
    · have := resolveParent_trailing (v := v) h
      rw [h2] at this
      exact absurd this h4

/-- An agreeable call creates from a plain path, or leaves the tree as it is. -/
theorem agreeable_cases {fs : FrameService σ} {input : DevInput} {fuel : Nat} {op : VfsOp}
    (ha : v.Agreeable op) (h : v.step fs input fuel op = .done v') :
    Plain op.path ∨ SameTree v v' := by
  have hnil : Plain [] := by decide
  -- an opening call that creates nothing
  have hopen : ∀ {path : CStr} {flags k : Nat} {v₁ : Vfs σ}, v.Agreeable (.open path flags) →
      (hasFlag flags vfsOCreate = false → k = 0) → Created path k v v₁ →
      Plain path ∨ SameTree v v₁ := by
    intro path flags k v₁ ha hflag hc
    cases hf : hasFlag flags vfsOCreate with
    | false => exact Or.inr (hc.sameTree (hflag hf))
    | true =>
        rcases ha hf with hres | hplain
        · exact Or.inr (hc.sameTree (hc.resolved hres).1)
        · exact Or.inl hplain
  cases step_effect h with
  | idle => exact Or.inr (.refl v)
  | moves _ hm => exact Or.inr hm.sameTree
  | madeDir _ _ => exact makeNode_agreeable .dir 0 0 ha
  | madeChr _ _ => exact makeNode_agreeable .chr _ _ ha
  | failed _ hflag hc => exact hopen ha hflag hc
  | opened _ hflag hc _ _ _ ho =>
      rcases hopen ha hflag hc with hplain | hsame
      · exact Or.inl hplain
      · exact Or.inr (hsame.trans ho.sameTree)
  | cwd _ => exact Or.inl hnil
  | removed _ _ _ _ _ => exact Or.inl hnil
  | written _ => exact Or.inl hnil
  | truncated _ => exact Or.inl hnil

/-- The calls on which the parsers agree, with inode numbers to spare. -/
def Vfs.AgreeableSteps (fs : FrameService σ) (v v' : Vfs σ) : Prop :=
  ∃ op input fuel, v.Agreeable op ∧ v.step fs input fuel op = .done v' ∧ v'.nextInode ≤ 2 ^ 31

theorem nameInv_bareRoot {cwd : Nat} (hcwd : cwd < 2 ^ 32) (shm : ShmTable) (heap : Heap σ) :
    NameInv (bareRoot cwd shm heap) := by
  have hT := treeInv_bareRoot cwd shm heap
  have honly : ∀ i, ((bareRoot cwd shm heap).nodes i).used = true → i = 0 := by
    intro i hu
    by_contra hi
    simp [bareRoot, hi, VFSNode.zero] at hu
  have hnum : (1 : Nat) ≤ 2 ^ 31 := by decide
  refine ⟨⟨hT, hnum⟩, hcwd, rfl, ?_, ?_⟩
  · intro i j hi hj _ _
    rw [honly i hi, honly j hj]
  · intro i hi hr
    exact absurd ((hT.root_slot hi).mpr (honly i hi)) hr

theorem nameInv_start (h : v.Starts) : NameInv v := by
  obtain ⟨n, hn, hP⟩ := starts_induct (P := fun n v => n < 20 → NameInv v ∧ v.nextInode ≤ n) h
    (fun cwd shm heap hcwd _ => ⟨nameInv_bareRoot hcwd shm heap, Nat.le_refl _⟩)
    (fun n v path hpath type major minor hP hn => by
      obtain ⟨hinv, hnum⟩ := hP (by omega)
      have hplain : ∀ p ∈ bootPaths, Plain p := by decide +kernel
      obtain ⟨k, hk, hc⟩ := makeNode_created v path type major minor
      obtain ⟨h', hnext⟩ := hinv.created (hplain path hpath) hc (by omega)
      exact ⟨h', by omega⟩)
  exact (hP (by omega)).1

/-- **Entries are well named and unique** in every run whose creating calls are given paths that
both parsers read alike and in which inode numbers stay positive. -/
theorem Vfs.agreeable_wellNamed {fs : FrameService σ}
    (h : Run.Reach Vfs.Starts (Vfs.AgreeableSteps fs) v) : WellNamed v := by
  have hinv : NameInv v := h.invariant (fun _ => nameInv_start) fun s s' hs hstep => by
    obtain ⟨op, input, fuel, ha, hdone, hnum⟩ := hstep
    rcases agreeable_cases ha hdone with hplain | hsame
    · exact hs.edit hplain (step_treeEdit hdone) hnum
    · exact hs.same hsame
  exact hinv.named

/-- A file made from a plain path. -/
theorem Vfs.agreeable_wellNamed_create : ∃ v : Vfs Nat,
    Run.Reach Vfs.Starts (Vfs.AgreeableSteps zeroedService) v
      ∧ (v.nodes 9).used = true ∧ (v.nodes 9).name = cstr "a" ∧ WellNamed v := by
  obtain ⟨v, hstep, hfacts⟩ := Outcome.of_get?
    (x := bootVfs.step zeroedService (fun _ _ => (0, fun _ => 0)) 0 (.open (cstr "/tmp/a") 5))
    (f := fun (v : Vfs Nat) => decide (v.nextInode ≤ 2 ^ 31 ∧ (v.nodes 9).used = true
      ∧ (v.nodes 9).name = cstr "a")) (b := true) (by decide +kernel)
  obtain ⟨hnum, hused, hname⟩ := of_decide_eq_true hfacts
  have ha : bootVfs.Agreeable (.open (cstr "/tmp/a") 5) := fun _ => Or.inr (by decide +kernel)
  have hr : Run.Reach Vfs.Starts (Vfs.AgreeableSteps zeroedService) v :=
    .next (.start bootVfs_starts) ⟨_, _, 0, ha, hstep, hnum⟩
  exact ⟨v, hr, hused, hname, Vfs.agreeable_wellNamed hr⟩

/-- **`vfs_open("/tmp//", VFS_O_CREATE)` creates a file without a name**: the leaf is empty, and
`vfs_open` is the one creating call that does not look. -/
theorem Vfs.open_creates_nameless : ∃ v : Vfs Nat,
    Run.Reach Vfs.Starts (Vfs.Steps zeroedService) v
      ∧ (v.nodes 9).used = true ∧ (v.nodes 9).inode ≠ vfsInodeRoot ∧ (v.nodes 9).name = []
      ∧ ¬ WellNamed v := by
  obtain ⟨v, hstep, hfacts⟩ := Outcome.of_get?
    (x := bootVfs.step zeroedService (fun _ _ => (0, fun _ => 0)) 0 (.open (cstr "/tmp//") 4))
    (f := fun (v : Vfs Nat) => decide (v.nextInode ≤ 2 ^ 31 ∧ (v.nodes 9).used = true
      ∧ (v.nodes 9).inode ≠ vfsInodeRoot ∧ (v.nodes 9).name = [])) (b := true) (by decide +kernel)
  obtain ⟨hnum, hused, hroot, hname⟩ := of_decide_eq_true hfacts
  refine ⟨v, .next (.start bootVfs_starts) ⟨_, _, 0, hstep, hnum⟩, hused, hroot, hname,
    fun hw => ?_⟩
  exact (hw.proper 9 hused hroot).1 hname

end Runs

end VnlKernel
