import VnlKernel.Proof.VfsStream

/-!
# Where a descriptor comes from

Descriptors are numbers, and the same number is handed out again and again. What a
descriptor was opened with is remembered here beside the table: a note for every entry,
written by the two opening calls, copied by `vfs_dup` and `vfs_dup2`, and left alone by
everything else. `FdFrom` says how an entry that is open after a call came to be so, and
what became of its note.

The first use is the access mode. Both transfer calls check the flag word of the entry,
and the flag word is what was asked for at the opening, as long as nobody writes
another one over it: `F_SETFL` stores its argument as it is.
-/

namespace VnlKernel

open ByteMem Bits

variable {σ : Type}

/-- A call, with what it returned. -/
def Vfs.call (fs : FrameService σ) (input : DevInput) (fuel : Nat) (v : Vfs σ) :
    VfsOp → Outcome (Vfs σ × Int)
  | .open path flags => vfsOpen v path flags
  | .openStd path flags target => .done (vfsOpenStd v path flags target)
  | .mkdir path => .done (vfsMkdir v path)
  | .mknodChr path major minor => .done (vfsMknodChr v path major minor)
  | .unlink path => vfsUnlink fs v path
  | .setCwd inode => .done (vfsSetCwd v (u32 inode), 0)
  | .close fd => .done (vfsClose v fd)
  | .dup fd => .done (vfsDup v fd)
  | .dup2 fd newfd => .done (vfsDup2 v fd newfd)
  | .read fd len => .done ((vfsRead fs v input fd len).1, (vfsRead fs v input fd len).2.ret)
  | .write fd buf len => do
      let (v, x) ← vfsWrite fs fuel v fd buf len
      return (v, x.ret)
  | .lseek fd offset whence => .done (vfsLseek v fd offset whence)
  | .ftruncate fd length => vfsFtruncate fs fuel v fd length
  | .fcntl fd cmd arg => .done (vfsFcntl v fd cmd arg)

theorem step_of_call {fs : FrameService σ} {input : DevInput} {fuel : Nat} {v v' : Vfs σ}
    {op : VfsOp}
    {r : Int} (h : v.call fs input fuel op = .done (v', r)) :
    v.step fs input fuel op = .done v' := by
  cases op with
  | write fd buf len =>
      obtain ⟨⟨w, x⟩, hw, h⟩ := Outcome.bind_eq_done h
      cases h
      simp only [Vfs.step, hw, Outcome.bind_done, Outcome.pure_eq]
  | «open» path flags =>
      simp only [Vfs.call] at h
      simp only [Vfs.step, h, Outcome.bind_done, Outcome.pure_eq]
  | unlink path =>
      simp only [Vfs.call] at h
      simp only [Vfs.step, h, Outcome.bind_done, Outcome.pure_eq]
  | ftruncate fd length =>
      simp only [Vfs.call] at h
      simp only [Vfs.step, h, Outcome.bind_done, Outcome.pure_eq]
  | _ =>
      simp only [Vfs.call, Outcome.done.injEq] at h
      exact congrArg (fun x : Vfs σ × Int => Outcome.done x.1) h

/-! ## Notes -/

/-- The notes after a call that returned `r`: an opening writes the note `fresh`, a duplicate takes
over the note of the original. -/
def VfsOp.passOn {α : Type} (op : VfsOp) (r : Int) (fresh : α) (note : Nat → α) : Nat → α :=
  if r < 0 then note
  else
    match op with
    | .open _ _ | .openStd _ _ _ => fun k => if k = r.toNat then fresh else note k
    | .dup fd | .dup2 fd _ => fun k => if k = r.toNat then note fd.toNat else note k
    | _ => note

/-- Only the position may differ. -/
def FDEntry.Same (e e' : FDEntry) : Prop :=
  e'.isOpen = e.isOpen ∧ e'.inode = e.inode ∧ e'.flags = e.flags

theorem FDEntry.Same.refl (e : FDEntry) : e.Same e := ⟨rfl, rfl, rfl⟩

/-- How the entry `k` came to be open after a call that returned `r`. -/
inductive FdFrom (v : Vfs σ) (op : VfsOp) (v' : Vfs σ) (r : Int) (k : Nat) : Prop
  | kept (h : (v.fds k).Same (v'.fds k))
      (hnote : ∀ (α : Type) (fresh : α) (note : Nat → α), op.passOn r fresh note k = note k)
  | setfl {fd : Int} {arg : Nat} (hop : op = .fcntl fd 4 arg) (hk : fd.toNat = k)
      (ho : fdOpen v fd = true) (h : v'.fds k = { v.fds k with flags := arg % 2 ^ 32 })
  | copied {fd : Int} (ho : fdOpen v fd = true) (h : v'.fds k = v.fds fd.toNat)
      (hnote : ∀ (α : Type) (fresh : α) (note : Nat → α), op.passOn r fresh note k = note fd.toNat)
  | opened {path : CStr} {flags : Nat}
      (hop : op = .open path flags ∨ ∃ target, op = .openStd path flags target) (h0 : 0 ≤ r)
      (hr : r.toNat = k) (hf : (v'.fds k).flags = flags)

section PassOn

variable {α : Type} {op : VfsOp} {r : Int} {fresh : α} {note : Nat → α} {k : Nat}

theorem VfsOp.passOn_failed (h : r < 0) : op.passOn r fresh note = note := by
  unfold VfsOp.passOn
  rw [if_pos h]

theorem VfsOp.passOn_opened (hop : (∃ path flags, op = .open path flags)
      ∨ ∃ path flags target, op = .openStd path flags target) (h : 0 ≤ r) :
    op.passOn r fresh note = fun k => if k = r.toNat then fresh else note k := by
  unfold VfsOp.passOn
  rw [if_neg (by omega)]
  rcases hop with ⟨_, _, rfl⟩ | ⟨_, _, _, rfl⟩
  · rfl
  · rfl

theorem VfsOp.passOn_dup {fd : Int} (hop : op = .dup fd ∨ ∃ newfd, op = .dup2 fd newfd)
    (h : 0 ≤ r) :
    op.passOn r fresh note = fun k => if k = r.toNat then note fd.toNat else note k := by
  unfold VfsOp.passOn
  rw [if_neg (by omega)]
  rcases hop with rfl | ⟨_, rfl⟩
  · rfl
  · rfl

end PassOn

/-! ## The entries after each kind of call -/

section Entries

variable {v v' : Vfs σ}

theorem Vfs.setFd_offset {w : Vfs σ} (hw : w.fds = v.fds) (i off k : Nat) :
    (v.fds k).Same ((w.setFd i { v.fds i with offset := off }).fds k) := by
  by_cases hk : k = i
  · rw [hk, Vfs.setFd_self]; exact ⟨rfl, rfl, rfl⟩
  · rw [Vfs.setFd_ne _ hk, hw]; exact .refl _

theorem vfsRead_same (fs : FrameService σ) (input : DevInput) (fd : Int) (len k : Nat) :
    (v.fds k).Same ((vfsRead fs v input fd len).1.fds k) := by
  unfold vfsRead
  dsimp only
  split
  · exact .refl _
  · split
    · exact .refl _
    · split
      · exact .refl _
      · split
        · exact Vfs.setFd_offset rfl _ _ k
        · split
          · exact .refl _
          · exact Vfs.setFd_offset rfl _ _ k

theorem vfsLseek_same (fd offset whence : Int) (k : Nat) :
    (v.fds k).Same ((vfsLseek v fd offset whence).1.fds k) := by
  unfold vfsLseek
  dsimp only
  split
  · exact .refl _
  · split
    · exact .refl _
    · generalize (if whence = 0 then _ else _ : Option Int) = target
      cases target with
      | none => exact .refl _
      | some pos =>
          dsimp only
          split
          · exact .refl _
          · exact Vfs.setFd_offset rfl _ _ k

theorem Written.same {fs : FrameService σ} {fuel : Nat} {fd : Int} {buf : Nat → UInt8} {len : Nat}
    {x : Xfer} (h : Written fs fuel v fd buf len v' x) (k : Nat) : (v.fds k).Same (v'.fds k) := by
  cases h with
  | refused _ => exact .refl _
  | device _ _ _ => exact Vfs.setFd_offset rfl _ _ k
  | full _ _ _ _ _ => exact .refl _
  | file _ _ _ hroom =>
      rw [(putBytes_tables _ _ _ _ _).2.1]
      cases hroom with
      | fits _ => exact Vfs.setFd_offset rfl _ _ k
      | grown _ _ _ => exact Vfs.setFd_offset rfl _ _ k

theorem Truncated.fds {fs : FrameService σ} {fuel : Nat} {fd length : Int}
    (h : Truncated fs fuel v fd length v') : v'.fds = v.fds := by
  cases h with
  | refused => rfl
  | shm _ => rfl
  | full _ _ _ _ _ => rfl
  | grown _ _ _ _ _ _ => rfl
  | fits _ _ _ _ => rfl

/-- **What `vfs_open_std` does.** -/
theorem vfsOpenStd_cases {path : CStr} {flags : Nat} {target r : Int}
    (h : vfsOpenStd v path flags target = (v', r)) : (v' = v ∧ r = -1) ∨
      ∃ i, 0 ≤ target ∧ r = target ∧ 0 ≤ vfsResolve v path
        ∧ nodeGet v (toU32 (vfsResolve v path)) = some i
        ∧ v' = v.setFd target.toNat ⟨true, toU32 (vfsResolve v path), 0, flags⟩ := by
  unfold vfsOpenStd at h
  dsimp only at h
  split at h
  · cases h; exact Or.inl ⟨rfl, rfl⟩
  · next htarget =>
    split at h
    · cases h; exact Or.inl ⟨rfl, rfl⟩
    · split at h
      · cases h; exact Or.inl ⟨rfl, rfl⟩
      · next hres =>
        split at h
        · cases h; exact Or.inl ⟨rfl, rfl⟩
        · next i hi =>
          split at h
          · cases h; exact Or.inl ⟨rfl, rfl⟩
          · cases h
            exact Or.inr ⟨i, by omega, rfl, by omega, hi, rfl⟩

theorem Opened.fds {fd i flags inode : Nat} (h : Opened v fd i flags inode v') :
    (v'.fds fd).flags = flags ∧ (v'.fds fd).inode = inode ∧ ∀ k, k ≠ fd → v'.fds k = v.fds k := by
  cases h with
  | plain _ =>
      rw [Vfs.setFd_self]
      exact ⟨rfl, rfl, fun k hk => Vfs.setFd_ne _ hk⟩
  | trunc _ _ _ =>
      rw [Vfs.setFd_self]
      exact ⟨rfl, rfl, fun k hk => Vfs.setFd_ne _ hk⟩

end Entries

/-! ## Every open entry comes from somewhere -/

section From

variable {fs : FrameService σ} {v v' : Vfs σ} {r : Int} {k : Nat}

/-- The calls that write no note. -/
theorem FdFrom.same {op : VfsOp} (h : (v.fds k).Same (v'.fds k))
    (hop : ∀ (α : Type) (fresh : α) (note : Nat → α), op.passOn r fresh note = note) :
    FdFrom v op v' r k := .kept h fun α fresh note => by rw [hop]

theorem vfsOpen_fdFrom {path : CStr} {flags : Nat} (h : vfsOpen v path flags = .done (v', r)) :
    FdFrom v (.open path flags) v' r k := by
  obtain ⟨_, v₁, _, _, hc, hend⟩ := vfsOpen_cases h
  rcases hend with ⟨rfl, hr⟩ | ⟨fd, i, inode, _, _, _, rfl, hop⟩
  · exact .same (by rw [hc.fds]; exact .refl _) fun _ _ _ => VfsOp.passOn_failed hr
  · obtain ⟨hflags, _, hother⟩ := hop.fds
    by_cases hk : k = fd
    · exact .opened (Or.inl rfl) (by omega) (by omega) (by rw [hk]; exact hflags)
    · refine .kept (by rw [hother k hk, hc.fds]; exact .refl _) fun α fresh note => ?_
      rw [VfsOp.passOn_opened (Or.inl ⟨_, _, rfl⟩) (by omega)]
      exact if_neg hk

theorem vfsOpenStd_fdFrom {path : CStr} {flags : Nat} {target : Int}
    (h : vfsOpenStd v path flags target = (v', r)) :
    FdFrom v (.openStd path flags target) v' r k := by
  rcases vfsOpenStd_cases h with ⟨rfl, hr⟩ | ⟨i, h0, rfl, _, _, rfl⟩
  · exact .same (.refl _) fun _ _ _ => VfsOp.passOn_failed (by omega)
  · by_cases hk : k = r.toNat
    · refine .opened (Or.inr ⟨_, rfl⟩) h0 hk.symm ?_
      rw [hk, Vfs.setFd_self]
    · refine .kept (by rw [Vfs.setFd_ne _ hk]; exact .refl _) fun α fresh note => ?_
      rw [VfsOp.passOn_opened (Or.inr ⟨_, _, _, rfl⟩) h0]
      exact if_neg hk

theorem vfsClose_fdFrom {fd : Int} (h : vfsClose v fd = (v', r)) (ho : (v'.fds k).isOpen = true) :
    FdFrom v (.close fd) v' r k := by
  have hnote : ∀ (α : Type) (fresh : α) (note : Nat → α),
      (VfsOp.close fd).passOn r fresh note = note := fun α fresh note => ite_self _
  unfold vfsClose at h
  split at h
  · cases h; exact .same (.refl _) hnote
  · cases h
    by_cases hk : k = fd.toNat
    · rw [hk, Vfs.setFd_self] at ho
      exact absurd ho (by simp)
    · exact .same (by rw [Vfs.setFd_ne _ hk]; exact .refl _) hnote

/-- One entry is copied over another, and its note with it. -/
theorem FdFrom.of_copy {op : VfsOp} {fd : Int} (hop : op = .dup fd ∨ ∃ newfd, op = .dup2 fd newfd)
    (ho : fdOpen v fd = true) (h0 : 0 ≤ r) :
    FdFrom v op (v.setFd r.toNat (v.fds fd.toNat)) r k := by
  by_cases hk : k = r.toNat
  · refine .copied ho (by rw [hk, Vfs.setFd_self]) fun α fresh note => ?_
    rw [VfsOp.passOn_dup hop h0]
    exact if_pos hk
  · refine .kept (by rw [Vfs.setFd_ne _ hk]; exact .refl _) fun α fresh note => ?_
    rw [VfsOp.passOn_dup hop h0]
    exact if_neg hk

theorem vfsDup_fdFrom {fd : Int} (h : vfsDup v fd = (v', r)) : FdFrom v (.dup fd) v' r k := by
  unfold vfsDup at h
  split at h
  · cases h; exact .same (.refl _) fun _ _ _ => VfsOp.passOn_failed (by decide)
  · next ho =>
    split at h
    · cases h; exact .same (.refl _) fun _ _ _ => VfsOp.passOn_failed (by decide)
    · next newfd _ =>
      cases h
      exact FdFrom.of_copy (r := newfd) (Or.inl rfl) (by simpa using ho) (by omega)

theorem vfsDup2_fdFrom {fd newfd : Int} (h : vfsDup2 v fd newfd = (v', r)) :
    FdFrom v (.dup2 fd newfd) v' r k := by
  unfold vfsDup2 at h
  split at h
  · cases h; exact .same (.refl _) fun _ _ _ => VfsOp.passOn_failed (by decide)
  · next ho =>
    have ho : fdOpen v fd = true := by simpa using ho
    split at h
    · cases h; exact .same (.refl _) fun _ _ _ => VfsOp.passOn_failed (by decide)
    · next hrange =>
      split at h
      · next heq =>
        -- onto itself: the note is copied onto itself as well
        cases h
        refine .kept (.refl _) fun α fresh note => ?_
        rw [VfsOp.passOn_dup (Or.inr ⟨_, rfl⟩) (by omega), heq]
        dsimp only
        split
        · next hk => rw [hk]
        · rfl
      · cases h
        exact .of_copy (Or.inr ⟨_, rfl⟩) ho (by omega)

theorem vfsFcntl_fdFrom {fd cmd : Int} {arg : Nat} (h : vfsFcntl v fd cmd arg = (v', r)) :
    FdFrom v (.fcntl fd cmd arg) v' r k := by
  have hnote : ∀ (α : Type) (fresh : α) (note : Nat → α),
      (VfsOp.fcntl fd cmd arg).passOn r fresh note = note := fun α fresh note => ite_self _
  unfold vfsFcntl at h
  split at h
  · cases h; exact .same (.refl _) hnote
  · next ho =>
    split at h
    · cases h; exact .same (.refl _) hnote
    · split at h
      · next hcmd =>
        cases h
        by_cases hk : k = fd.toNat
        · exact .setfl (by rw [hcmd]) hk.symm (by simpa using ho) (by rw [hk, Vfs.setFd_self])
        · exact .same (by rw [Vfs.setFd_ne _ hk]; exact .refl _) hnote
      · cases h; exact .same (.refl _) hnote

/-- **Every entry that is open after a call was open before it, or was opened or copied by it.** -/
theorem call_fdFrom {input : DevInput} {fuel : Nat} {op : VfsOp}
    (h : v.call fs input fuel op = .done (v', r)) (ho : (v'.fds k).isOpen = true) :
    FdFrom v op v' r k := by
  have hpass : ∀ {op : VfsOp}, (∀ (α : Type) (fresh : α) (note : Nat → α),
      op.passOn r fresh note = if r < 0 then note else note) → ∀ (α : Type) (fresh : α)
      (note : Nat → α), op.passOn r fresh note = note := fun hop α fresh note => by
    rw [hop]; exact ite_self _
  cases op with
  | «open» path flags => exact vfsOpen_fdFrom h
  | openStd path flags target => exact vfsOpenStd_fdFrom (Outcome.done.inj h)
  | mkdir path =>
      have hv : (vfsMkdir v path).1 = v' := congrArg Prod.fst (Outcome.done.inj h)
      obtain ⟨_, _, hc⟩ := makeNode_created v path .dir 0 0
      have hfds : (vfsMkdir v path).1.fds = v.fds := hc.fds
      exact .same (by rw [← hv, hfds]; exact .refl _) (hpass fun _ _ _ => rfl)
  | mknodChr path major minor =>
      have hv : (vfsMknodChr v path major minor).1 = v' := congrArg Prod.fst (Outcome.done.inj h)
      obtain ⟨_, _, hc⟩ := makeNode_created v path .chr (major % 2 ^ 16) (minor % 2 ^ 16)
      have hfds : (vfsMknodChr v path major minor).1.fds = v.fds := hc.fds
      exact .same (by rw [← hv, hfds]; exact .refl _) (hpass fun _ _ _ => rfl)
  | unlink path =>
      rcases vfsUnlink_cases h with rfl | ⟨_, _, _, _, _, _, _, _, _, rfl⟩
      · exact .same (.refl _) (hpass fun _ _ _ => rfl)
      · exact .same (.refl _) (hpass fun _ _ _ => rfl)
  | setCwd inode =>
      cases h
      exact .same (.refl _) (hpass fun _ _ _ => rfl)
  | close fd => exact vfsClose_fdFrom (Outcome.done.inj h) ho
  | dup fd => exact vfsDup_fdFrom (Outcome.done.inj h)
  | dup2 fd newfd => exact vfsDup2_fdFrom (Outcome.done.inj h)
  | read fd len =>
      cases h
      exact .same (vfsRead_same fs input fd len k) (hpass fun _ _ _ => rfl)
  | write fd buf len =>
      obtain ⟨⟨w, x⟩, hw, h⟩ := Outcome.bind_eq_done h
      cases h
      exact .same ((vfsWrite_cases hw).same k) (hpass fun _ _ _ => rfl)
  | lseek fd offset whence =>
      have hv : (vfsLseek v fd offset whence).1 = v' := congrArg Prod.fst (Outcome.done.inj h)
      exact .same (by rw [← hv]; exact vfsLseek_same fd offset whence k) (hpass fun _ _ _ => rfl)
  | ftruncate fd length =>
      have hfds := (vfsFtruncate_cases h).fds
      exact .same (by rw [hfds]; exact .refl _) (hpass fun _ _ _ => rfl)
  | fcntl fd cmd arg => exact vfsFcntl_fdFrom (Outcome.done.inj h)

end From

theorem starts_fds {v : Vfs σ} (h : v.Starts) (k : Nat) : (v.fds k).isOpen = false := by
  obtain ⟨_, _, hP⟩ := starts_induct (P := fun _ v => v.fds = fun _ => FDEntry.zero) h
    (fun _ _ _ _ => rfl)
    (fun n v path _ type major minor hP => by
      obtain ⟨_, _, hc⟩ := makeNode_created v path type major minor
      rw [hc.fds]
      exact hP)
  rw [hP]
  rfl

/-! ## The access mode -/

/-- The flags that an opening was given. -/
def VfsOp.flags : VfsOp → Nat
  | .open _ flags => flags
  | .openStd _ flags _ => flags
  | _ => 0

/-- The file system, and for every descriptor the flags of the opening it stems from. -/
structure ModeRun (σ : Type) where
  vfs : Vfs σ
  asked : Nat → Nat

namespace ModeRun

/-- Booted; no descriptor is open yet. -/
inductive Starts : ModeRun σ → Prop
  | boot {v : Vfs σ} (h : v.Starts) (asked : Nat → Nat) : Starts ⟨v, asked⟩

/-- Any call; `ok` is what is asked of it. -/
def Step (fs : FrameService σ) (ok : Vfs σ → VfsOp → Prop) (c c' : ModeRun σ) : Prop :=
  ∃ op input fuel v' r, ok c.vfs op ∧ c.vfs.call fs input fuel op = .done (v', r)
    ∧ c' = ⟨v', op.passOn r op.flags c.asked⟩

theorem Step.of_call {fs : FrameService σ} {ok : Vfs σ → VfsOp → Prop} {v v' : Vfs σ}
    {asked : Nat → Nat} {op : VfsOp} {input : DevInput} {fuel : Nat} {r : Int} (hok : ok v op)
    (hcall : v.call fs input fuel op = .done (v', r)) :
    Step fs ok ⟨v, asked⟩ ⟨v', op.passOn r op.flags asked⟩ :=
  ⟨op, input, fuel, v', r, hok, hcall, rfl⟩

/-- **The access mode is the one asked for**: a transfer that was not asked for is refused and
changes nothing, and a right that was asked for is still there. -/
structure Rightful (fs : FrameService σ) (c : ModeRun σ) : Prop where
  write : ∀ fd, fdOpen c.vfs fd = true → hasFlag (c.asked fd.toNat) vfsOWrite = false →
    ∀ fuel buf len, vfsWrite fs fuel c.vfs fd buf len = .done (c.vfs, .fail (-1))
  read : ∀ fd, fdOpen c.vfs fd = true → hasFlag (c.asked fd.toNat) vfsORead = false →
    ∀ input len, vfsRead fs c.vfs input fd len = (c.vfs, .fail (-1))
  kept : ∀ fd, fdOpen c.vfs fd = true → ∀ right ∈ [vfsORead, vfsOWrite],
    hasFlag (c.asked fd.toNat) right = true → hasFlag (c.vfs.fds fd.toNat).flags right = true

end ModeRun

/-- Two flag words that grant the same. -/
def SameRights (flags flags' : Nat) : Prop :=
  hasFlag flags vfsORead = hasFlag flags' vfsORead ∧ hasFlag flags vfsOWrite = hasFlag flags' vfsOWrite
deriving Decidable

/-- `F_SETFL` on an open descriptor names the rights that it has. -/
def Vfs.NamesRights (v : Vfs σ) (op : VfsOp) : Prop :=
  ∀ fd arg, op = .fcntl fd 4 arg → fdOpen v fd = true →
    SameRights (arg % 2 ^ 32) (v.fds fd.toNat).flags

section Mode

variable {fs : FrameService σ} {c c' : ModeRun σ}

/-- The invariant. -/
def ModeRun.AsAsked (c : ModeRun σ) : Prop :=
  ∀ k, (c.vfs.fds k).isOpen = true → SameRights (c.vfs.fds k).flags (c.asked k)

theorem ModeRun.AsAsked.step (h : c.AsAsked) (hs : ModeRun.Step fs Vfs.NamesRights c c') :
    c'.AsAsked := by
  obtain ⟨op, input, fuel, v', r, hok, hcall, rfl⟩ := hs
  intro k ho
  dsimp only at ho ⊢
  cases call_fdFrom hcall ho with
  | kept hsame hnote =>
      obtain ⟨h1, _, h3⟩ := hsame
      rw [hnote, h3]
      exact h k (h1 ▸ ho)
  | @setfl fd arg hop hk hopen hset =>
      have hopen' : (c.vfs.fds k).isOpen = true := hk ▸ (fdOpen_iff.mp hopen).2.2
      have hnote : op.passOn r op.flags c.asked = c.asked := by
        rw [hop]; exact ite_self _
      have hnames := hok fd arg hop hopen
      have hasked := h k hopen'
      rw [hk] at hnames
      rw [hset, hnote]
      exact ⟨hnames.1.trans hasked.1, hnames.2.trans hasked.2⟩
  | copied hopen hcopy hnote =>
      rw [hcopy, hnote]
      exact h _ (fdOpen_iff.mp hopen).2.2
  | opened hop h0 hr hf =>
      have hnote : op.passOn r op.flags c.asked k = op.flags := by
        rw [VfsOp.passOn_opened (by rcases hop with hop | ⟨_, hop⟩
                                    · exact Or.inl ⟨_, _, hop⟩
                                    · exact Or.inr ⟨_, _, _, hop⟩) h0]
        exact if_pos hr.symm
      rw [hnote, hf]
      rcases hop with rfl | ⟨_, rfl⟩
      · exact ⟨rfl, rfl⟩
      · exact ⟨rfl, rfl⟩

theorem ModeRun.AsAsked.rightful (h : c.AsAsked) : c.Rightful fs where
  write := by
    intro fd ho hasked fuel buf len
    obtain ⟨_, hw⟩ := h fd.toNat (fdOpen_iff.mp ho).2.2
    unfold vfsWrite
    rw [if_neg (by simp [ho])]
    dsimp only
    rw [if_pos (by rw [hw, hasked]; rfl)]
  read := by
    intro fd ho hasked input len
    obtain ⟨hr, _⟩ := h fd.toNat (fdOpen_iff.mp ho).2.2
    unfold vfsRead
    rw [if_neg (by simp [ho])]
    dsimp only
    rw [if_pos (by rw [hr, hasked]; rfl)]
  kept := by
    intro fd ho right hright hasked
    obtain ⟨hr, hw⟩ := h fd.toNat (fdOpen_iff.mp ho).2.2
    simp only [List.mem_cons, List.not_mem_nil, or_false] at hright
    rcases hright with rfl | rfl
    · rw [hr]; exact hasked
    · rw [hw]; exact hasked

/-- **The access mode is fixed at open, as long as `F_SETFL` names it again.** -/
theorem ModeRun.naming_rightful
    (h : Run.Reach ModeRun.Starts (ModeRun.Step fs Vfs.NamesRights) c) : c.Rightful fs := by
  have hinv : c.AsAsked := h.invariant
    (fun s hs k ho => by
      cases hs with
      | boot hv asked =>
          rw [starts_fds hv k] at ho
          exact absurd ho (by simp))
    (fun _ _ hc hs => hc.step hs)
  exact hinv.rightful

/-- A file opened to be read, then made not to block: it can be read and not written. -/
theorem ModeRun.naming_rightful_nonblock : ∃ c : ModeRun Nat,
    Run.Reach ModeRun.Starts (ModeRun.Step zeroedService Vfs.NamesRights) c
      ∧ fdOpen c.vfs 3 = true ∧ (c.vfs.fds 3).flags = 2048 + vfsORead
      ∧ c.asked 3 = vfsOCreate + vfsORead ∧ c.Rightful zeroedService := by
  obtain ⟨⟨v₁, r₁⟩, hopen, hrest⟩ := Outcome.of_get?
    (x := bootVfs.call zeroedService noInput 0 (.open (cstr "/tmp/a") 5))
    (f := fun (x : Vfs Nat × Int) => decide (x.2 = 3 ∧ fdOpen x.1 3 = true ∧ (x.1.fds 3).flags = 5
      ∧ (x.1.call zeroedService noInput 0 (.fcntl 3 4 2049)).get?.map
        (fun (y : Vfs Nat × Int) => decide
          (y.2 = 0 ∧ fdOpen y.1 3 = true ∧ (y.1.fds 3).flags = 2049))
        = some true))
    (b := true) (by decide +kernel)
  obtain ⟨hr₁, ho₁, hf₁, hset⟩ := of_decide_eq_true hrest
  obtain ⟨⟨v₂, r₂⟩, hfcntl, hfacts⟩ := Outcome.of_get? hset
  obtain ⟨hr₂, ho₂, hf₂⟩ := of_decide_eq_true hfacts
  dsimp only at hr₁ ho₁ hf₁ hfcntl hr₂ ho₂ hf₂
  subst hr₁ hr₂
  have hnames : v₁.NamesRights (.fcntl 3 4 2049) := by
    intro fd arg hop _
    cases hop
    show SameRights (2049 % 2 ^ 32) (v₁.fds 3).flags
    rw [hf₁]
    decide
  have hreach := Run.Reach.next (.next (.start (ModeRun.Starts.boot bootVfs_starts fun _ => 0))
    (ModeRun.Step.of_call (fun fd arg hop => by cases hop) hopen))
      (ModeRun.Step.of_call hnames hfcntl)
  exact ⟨_, hreach, ho₂, hf₂, rfl, ModeRun.naming_rightful hreach⟩

/-- **`F_SETFL` rewrites the access mode.** A file is opened to be read and written; setting
`O_NONBLOCK` alone leaves a descriptor that can do neither. Another is opened to be read; naming
both rights makes it writable. -/
theorem ModeRun.setfl_changes_rights : (∃ c : ModeRun Nat,
    Run.Reach ModeRun.Starts (ModeRun.Step zeroedService fun _ _ => True) c
      ∧ fdOpen c.vfs 3 = true ∧ c.asked 3 = vfsOCreate + vfsORdwr ∧ (c.vfs.fds 3).flags = 2048
      ∧ ¬ c.Rightful zeroedService) ∧
    ∃ c : ModeRun Nat,
      Run.Reach ModeRun.Starts (ModeRun.Step zeroedService fun _ _ => True) c
        ∧ fdOpen c.vfs 3 = true ∧ c.asked 3 = vfsOCreate + vfsORead
        ∧ (vfsWrite zeroedService 3 c.vfs 3 (fun _ => 0x41) 3).get?.map (fun x => x.2.ret) = some 3
        ∧ ¬ c.Rightful zeroedService := by
  constructor
  · obtain ⟨⟨v₁, r₁⟩, hopen, hrest⟩ := Outcome.of_get?
      (x := bootVfs.call zeroedService noInput 0 (.open (cstr "/tmp/a") 7))
      (f := fun (x : Vfs Nat × Int) => decide (x.2 = 3
        ∧ (x.1.call zeroedService noInput 0 (.fcntl 3 4 2048)).get?.map
          (fun (y : Vfs Nat × Int) => decide (y.2 = 0 ∧ fdOpen y.1 3 = true
            ∧ (y.1.fds 3).flags = 2048)) = some true))
      (b := true) (by decide +kernel)
    obtain ⟨hr₁, hset⟩ := of_decide_eq_true hrest
    obtain ⟨⟨v₂, r₂⟩, hfcntl, hfacts⟩ := Outcome.of_get? hset
    obtain ⟨hr₂, ho₂, hf₂⟩ := of_decide_eq_true hfacts
    dsimp only at hr₁ hfcntl hr₂ ho₂ hf₂
    subst hr₁ hr₂
    have hstep : ModeRun.Step zeroedService (fun _ _ => True) ⟨bootVfs, fun _ => 0⟩ ⟨v₁, _⟩ :=
      .of_call trivial hopen
    have hreach := Run.Reach.next (.next
      (.start (ModeRun.Starts.boot bootVfs_starts fun _ => 0)) hstep)
      (ModeRun.Step.of_call trivial hfcntl)
    refine ⟨_, hreach, ho₂, rfl, hf₂, fun hright => ?_⟩
    have hlost := hright.kept 3 ho₂ vfsORead List.mem_cons_self
      (show hasFlag 7 vfsORead = true by decide)
    dsimp only at hlost
    rw [show (3 : Int).toNat = 3 from rfl, hf₂] at hlost
    exact absurd hlost (by decide)
  · obtain ⟨heap, _, hrest⟩ := Outcome.of_get?
      (x := heapInit Client.zeroedFrames ⟨fun _ => 0, 0, 0, 64⟩ 0xFFFFC00000000000 (4 * 4096))
      (f := fun heap =>
        ((vfsInit 0 shmInit heap).call zeroedService noInput 0 (.open (cstr "/tmp/a") 5)).get?.map
          fun (x : Vfs Nat × Int) => decide (x.2 = 3
            ∧ (x.1.call zeroedService noInput 0 (.fcntl 3 4 3)).get?.map
              (fun (y : Vfs Nat × Int) => decide (y.2 = 0 ∧ fdOpen y.1 3 = true
                ∧ (vfsWrite zeroedService 3 y.1 3 (fun _ => 0x41) 3).get?.map (fun x => x.2.ret)
                  = some 3)) = some true))
      (b := some true) (by decide +kernel)
    obtain ⟨⟨v₁, r₁⟩, hopen, hfacts⟩ := Outcome.of_get? hrest
    obtain ⟨hr₁, hset⟩ := of_decide_eq_true hfacts
    obtain ⟨⟨v₂, r₂⟩, hfcntl, hfacts⟩ := Outcome.of_get? hset
    obtain ⟨hr₂, ho₂, hwrite⟩ := of_decide_eq_true hfacts
    dsimp only at hr₁ hfcntl hr₂ ho₂ hwrite
    subst hr₁ hr₂
    have hstart : (vfsInit 0 shmInit heap).Starts := ⟨0, shmInit, heap, by decide, Or.inl rfl⟩
    have hstep : ModeRun.Step zeroedService (fun _ _ => True) ⟨vfsInit 0 shmInit heap, fun _ => 0⟩
        ⟨v₁, _⟩ := .of_call trivial hopen
    have hreach := Run.Reach.next (.next (.start (ModeRun.Starts.boot hstart fun _ => 0)) hstep)
      (ModeRun.Step.of_call trivial hfcntl)
    refine ⟨_, hreach, ho₂, rfl, hwrite, fun hright => ?_⟩
    have hrefused := hright.write 3 ho₂ (show hasFlag 5 vfsOWrite = false by decide) 3
      (fun _ => 0x41) 3
    dsimp only at hrefused
    rw [hrefused] at hwrite
    have hret : (-1 : Int) = 3 := Option.some.inj hwrite
    omega

end Mode

end VnlKernel
