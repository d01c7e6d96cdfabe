import VnlKernel.Proof.SockSleep
import VnlKernel.Proof.VfsFds

/-!
# Descriptors that stay open

Two tables hand out descriptors. A file descriptor is open until `vfs_close` is called
for it, and a socket is in use until `unix_sock_close` is. The socket layer calls
`vfs_close` in three places: on a descriptor it has opened itself, when a name is bound,
on a duplicate it could not queue, and on the descriptors still queued when a socket is
closed. Only the last can be somebody else's.
-/

namespace VnlKernel

open Run

variable {σ : Type}

/-! ## Files -/

/-- What was open still is. -/
def StillOpen (v v' : Vfs σ) : Prop := ∀ k, (v.fds k).isOpen = true → (v'.fds k).isOpen = true

section Files

variable {fs : FrameService σ} {v v' v'' : Vfs σ}

theorem StillOpen.refl (v : Vfs σ) : StillOpen v v := fun _ h => h

theorem StillOpen.trans (h : StillOpen v v') (h' : StillOpen v' v'') : StillOpen v v'' :=
  fun k hk => h' k (h k hk)

theorem stillOpen_of_fds (h : v'.fds = v.fds) : StillOpen v v' := fun _ hk => by rw [h]; exact hk

theorem stillOpen_of_same (h : ∀ k, (v.fds k).Same (v'.fds k)) : StillOpen v v' :=
  fun k hk => (h k).1.trans hk

/-- An entry that was free, or is open now, has been written. -/
theorem stillOpen_setFd {i : Nat} {e : FDEntry} (h : (v.fds i).isOpen = false ∨ e.isOpen = true) :
    StillOpen v (v.setFd i e) := fun k hk => by
  by_cases hki : k = i
  · subst hki
    rw [Vfs.setFd_self]
    rcases h with h | h
    · rw [h] at hk; cases hk
    · exact h
  · rw [Vfs.setFd_ne _ hki]
    exact hk

theorem vfsClose_open {fd : Int} {k : Nat} (hk : (v.fds k).isOpen = true) (hne : fd ≠ k) :
    ((vfsClose v fd).1.fds k).isOpen = true := by
  unfold vfsClose
  split
  · exact hk
  · next ho =>
    have hfd := (fdOpen_iff.mp (by simpa using ho)).1
    rw [Vfs.setFd_ne _ (by omega)]
    exact hk

/-- A descriptor that was opened on top is closed again. -/
theorem vfsClose_fresh {fd : Int} (h : StillOpen v v')
    (hf : 0 ≤ fd → (v.fds fd.toNat).isOpen = false) :
    StillOpen v (vfsClose v' fd).1 := fun k hk => by
  refine vfsClose_open (h k hk) fun he => ?_
  subst he
  rw [Int.toNat_natCast] at hf
  rw [hf (by omega)] at hk
  cases hk

theorem vfsOpen_stillOpen {path : CStr} {flags : Nat} {r : Int}
    (h : vfsOpen v path flags = .done (v', r)) :
    StillOpen v v' ∧ (0 ≤ r → (v.fds r.toNat).isOpen = false) := by
  obtain ⟨_, v₁, _, _, hc, hend⟩ := vfsOpen_cases h
  rcases hend with ⟨rfl, hr⟩ | ⟨fd, i, inode, hfd, _, _, rfl, hop⟩
  · exact ⟨stillOpen_of_fds hc.fds, fun h0 => absurd h0 (by omega)⟩
  · have hfree := (freeFd_some hfd).2.2
    refine ⟨fun k hk => ?_, fun _ => hfree⟩
    have hne : k ≠ fd := fun he => by rw [he, hfree] at hk; cases hk
    rw [hop.fds.2.2 k hne, hc.fds]
    exact hk

theorem vfsDup_stillOpen (f : Int) : StillOpen v (vfsDup v f).1
    ∧ (0 ≤ (vfsDup v f).2 → (v.fds (vfsDup v f).2.toNat).isOpen = false) := by
  refine ⟨?_, fun h0 => ?_⟩
  · rcases vfsDup_moves v f with hv | ⟨k, hk, hv⟩
    · rw [hv]; exact .refl v
    · rw [hv]; exact stillOpen_setFd (Or.inl (freeFd_some hk).2.2)
  · obtain ⟨k, hk, _, hd⟩ := vfsDup_ok h0
    rw [hd]
    exact (freeFd_some hk).2.2

theorem vfsUnlink_fds {path : CStr} {r : Int} (h : vfsUnlink fs v path = .done (v', r)) :
    v'.fds = v.fds := by
  rcases vfsUnlink_cases h with rfl | ⟨_, _, _, _, _, _, _, _, _, rfl⟩
  · rfl
  · rfl

/-- **A file stays open until `vfs_close` is called for it.** -/
theorem step_stillOpen {input : DevInput} {fuel : Nat} {op : VfsOp} {k : Nat}
    (h : v.step fs input fuel op = .done v') (hk : (v.fds k).isOpen = true) (hop : op ≠ .close k) :
    (v'.fds k).isOpen = true := by
  cases op with
  | «open» path flags =>
      obtain ⟨⟨w, r⟩, ho, h⟩ := Outcome.bind_eq_done h
      cases h
      exact (vfsOpen_stillOpen ho).1 k hk
  | openStd path flags target =>
      cases h
      -- the target is opened only where it was free
      rcases vfsOpenStd_moves v path flags target with hv | ⟨hfree, e, hv⟩
      · rw [hv]; exact hk
      · rw [hv]; exact stillOpen_setFd (Or.inl hfree) k hk
  | mkdir path =>
      cases h
      obtain ⟨_, _, hc⟩ := makeNode_created v path .dir 0 0
      exact stillOpen_of_fds hc.fds k hk
  | mknodChr path major minor =>
      cases h
      obtain ⟨_, _, hc⟩ := makeNode_created v path .chr (major % 2 ^ 16) (minor % 2 ^ 16)
      exact stillOpen_of_fds hc.fds k hk
  | unlink path =>
      obtain ⟨⟨w, r⟩, hu, h⟩ := Outcome.bind_eq_done h
      cases h
      exact stillOpen_of_fds (vfsUnlink_fds hu) k hk
  | setCwd inode => cases h; exact hk
  | close fd =>
      cases h
      -- another descriptor is closed
      exact vfsClose_open hk fun he => hop (by rw [he])
  | dup fd => cases h; exact (vfsDup_stillOpen fd).1 k hk
  | dup2 fd newfd =>
      cases h
      unfold vfsDup2
      split
      · exact hk
      · next ho =>
        split
        · exact hk
        · split
          · exact hk
          · -- the new descriptor is closed and opened again at once
            exact stillOpen_setFd (Or.inr (fdOpen_iff.mp (by simpa using ho)).2.2) k hk
  | read fd len => cases h; exact stillOpen_of_same (vfsRead_same fs input fd len) k hk
  | write fd buf len =>
      obtain ⟨⟨w, x⟩, hw, h⟩ := Outcome.bind_eq_done h
      cases h
      exact stillOpen_of_same (vfsWrite_cases hw).same k hk
  | lseek fd offset whence => cases h; exact stillOpen_of_same (vfsLseek_same fd offset whence) k hk
  | ftruncate fd length =>
      obtain ⟨⟨w, r⟩, ht, h⟩ := Outcome.bind_eq_done h
      cases h
      exact stillOpen_of_fds (vfsFtruncate_cases ht).fds k hk
  | fcntl fd cmd arg =>
      cases h
      unfold vfsFcntl
      split
      · exact hk
      · next ho =>
        split
        · exact hk
        · split
          · have hopen : (v.fds fd.toNat).isOpen = true := (fdOpen_iff.mp (by simpa using ho)).2.2
            exact stillOpen_setFd (e := { v.fds fd.toNat with flags := arg % 2 ^ 32 })
              (Or.inr hopen) k hk
          · exact hk

end Files

/-! ## The calls of the socket layer -/

section Calls

variable {fs : FrameService σ} {n n' : Net σ} {log : List Ev} {r : Int} {rep : Reply}

theorem allocSlot_vfs {i : Nat} (h : allocSlot n = some (n', i)) : n'.vfs = n.vfs := by
  rw [(allocSlot_freeSlot h).2]
  rfl

theorem unixSocket_vfs (domain type : Int) : (unixSocket n domain type).1.vfs = n.vfs := by
  unfold unixSocket
  split
  · rfl
  · split
    · rfl
    · split
      · rfl
      · next ha => exact allocSlot_vfs ha

theorem unixSocketpair_vfs (domain type : Int) (svNull : Bool) :
    (unixSocketpair n domain type svNull).1.vfs = n.vfs := by
  unfold unixSocketpair
  split
  · rfl
  · split
    · rfl
    · split
      · rfl
      · next ha =>
        have hv := allocSlot_vfs ha
        split
        · exact hv
        · next hb => exact (allocSlot_vfs hb).trans hv

theorem unixEventfd_vfs (initval flags : Nat) : (unixEventfd n initval flags).1.vfs = n.vfs := by
  unfold unixEventfd
  split
  · rfl
  · next ha =>
    have hv := allocSlot_vfs ha
    dsimp only
    split
    · exact hv
    · exact hv

theorem unixListen_vfs (fd : Int) : (unixListen n fd).1.vfs = n.vfs := by
  unfold unixListen
  split
  · rfl
  · split
    · rfl
    · rfl

theorem unixConnect_vfs (fd : Int) (addr : Option (Nat → UInt8)) (addrlen : Nat) :
    (unixConnect n fd addr addrlen).1.vfs = n.vfs := by
  unfold unixConnect
  split
  · rfl
  · split
    · rfl
    · split
      · rfl
      · split
        · rfl
        · split
          · rfl
          · next ha =>
            have hv := allocSlot_vfs ha
            dsimp only
            split
            · exact hv
            · exact hv

theorem resume_vfs (w : Wait) : (n.resume w).1.vfs = n.vfs := by
  cases w with
  | read i len =>
      rw [Net.resume, readFrom]
      split
      · rfl
      · rfl
  | recvmsg i msg =>
      rw [Net.resume, recvFrom]
      split
      · rfl
      · rfl
      · split
        · rfl
        · rfl
  | accept i =>
      rw [Net.resume, acceptFrom]
      dsimp only
      split
      · split
        · rfl
        · rfl
      · split
        · rfl
        · rfl

theorem unixAccept_vfs (fd : Int) : (unixAccept n fd).1.vfs = n.vfs := by
  unfold unixAccept
  split
  · rfl
  · split
    · rfl
    · exact resume_vfs (.accept _)

theorem unixSockRead_vfs (fd : Int) (len : Nat) : (unixSockRead n fd len).1.vfs = n.vfs := by
  unfold unixSockRead
  split
  · rfl
  · split
    · rfl
    · exact resume_vfs (.read _ len)

theorem unixSockWrite_vfs (fd : Int) (buf : Nat → UInt8) (len : Nat) :
    (unixSockWrite n fd buf len).1.vfs = n.vfs := by
  unfold unixSockWrite
  split
  · rfl
  · rfl

theorem unixSockRecvmsg_vfs (fd : Int) (msg : Option MsgHdr) : (unixSockRecvmsg n fd msg).1.vfs
    = n.vfs := by
  unfold unixSockRecvmsg
  split
  · rfl
  · split
    · rfl
    · split
      · rfl
      · exact resume_vfs (.recvmsg _ _)

theorem unixSockFcntl_vfs (fd cmd : Int) (arg : Nat) : (unixSockFcntl n fd cmd arg).1.vfs
    = n.vfs := by
  unfold unixSockFcntl
  split
  · rfl
  · split
    · rfl
    · split
      · rfl
      · rfl

/-- Binding opens the file and closes it again. -/
theorem unixBind_stillOpen {fd : Int} {addr : Option (Nat → UInt8)} {addrlen : Nat}
    (h : unixBind n fd addr addrlen = .done (n', log, r)) : StillOpen n.vfs n'.vfs := by
  unfold unixBind at h
  split at h
  · cases h; exact .refl _
  · split at h
    · cases h; exact .refl _
    · split at h
      · cases h; exact .refl _
      · dsimp only at h
        split at h
        · cases h; exact .refl _
        · split at h
          · cases h; exact .refl _
          · split at h
            · cases h; exact .refl _
            · obtain ⟨⟨v, tfd⟩, hv, h⟩ := Outcome.bind_eq_done h
              obtain ⟨hopen, hfree⟩ := vfsOpen_stillOpen hv
              dsimp only at h
              split at h
              · cases h; exact hopen
              · cases h; exact vfsClose_fresh hopen hfree

/-- A duplicate is queued, or closed again. -/
theorem sendFd_stillOpen (n : Net σ) (i j : Nat) (f : Int) :
    StillOpen n.vfs (sendFd n i j f).1.vfs := by
  unfold sendFd
  dsimp only
  have hp : StillOpen n.vfs (if unixIsSockfd n f = true then (n.vfs, f) else vfsDup n.vfs f).1 := by
    split
    · exact .refl _
    · exact (vfsDup_stillOpen f).1
  have hfree : unixIsSockfd n (if unixIsSockfd n f = true then (n.vfs, f) else vfsDup n.vfs f).2
    = false →
      0 ≤ (if unixIsSockfd n f = true then (n.vfs, f) else vfsDup n.vfs f).2 →
      (n.vfs.fds (if unixIsSockfd n f = true then (n.vfs, f) else vfsDup n.vfs f).2.toNat).isOpen
          = false := by
    split
    · next hs => exact fun hno => absurd hs (by simp [hno])
    · exact fun _ => (vfsDup_stillOpen f).2
  generalize (if unixIsSockfd n f = true then (n.vfs, f) else vfsDup n.vfs f) = p at hp hfree
  split
  · exact .refl _
  · split
    · split
      · exact hp
      · next hno =>
        refine vfsClose_fresh hp (hfree ?_)
        have hcongr : unixIsSockfd { n with vfs := p.1 } p.2 = unixIsSockfd n p.2 :=
          unixIsSockfd_congr (fun _ => rfl) p.2
        rw [← hcongr]
        simpa using hno
    · exact hp

theorem sendFds_stillOpen (i j : Nat) (fds : Nat → Int) : ∀ (k f : Nat) (n : Net σ),
    StillOpen n.vfs (sendFds i j fds k f n).1.vfs
  | 0, _, _ => .refl _
  | k + 1, f, n => by
      rw [sendFds]
      dsimp only
      split
      · exact sendFd_stillOpen n i j (fds f)
      · exact (sendFd_stillOpen n i j (fds f)).trans (sendFds_stillOpen i j fds k (f + 1) _)

theorem sendControl_stillOpen {i j : Nat} {control : Nat → UInt8} {controllen : Nat} :
    ∀ (fuel offset : Nat) {n n' : Net σ} {log : List Ev} {r : Int},
      sendControl i j control controllen fuel offset n = .done (n', log, r) → StillOpen n.vfs n'.vfs
  | 0, offset, n, n', log, r, h => absurd h (by simp [sendControl])
  | fuel + 1, offset, n, n', log, r, h => by
      rw [sendControl] at h
      split at h
      · dsimp only at h
        split at h
        · cases h; exact .refl _
        · generalize hg : (if readInt control (offset + 8) = solSocket
            ∧ readInt control (offset + 12) = scmRights then _ else _ : Net σ × List Ev × Int)
              = g at h
          have hm : StillOpen n.vfs g.1.vfs := by
            subst hg
            split
            · exact sendFds_stillOpen i j _ _ _ n
            · exact .refl _
          split at h
          · cases h; exact hm
          · obtain ⟨⟨m', log₂, r₂⟩, h₂, h⟩ := Outcome.bind_eq_done h
            cases h
            exact hm.trans (sendControl_stillOpen fuel _ h₂)
      · cases h; exact .refl _

theorem unixSockSendmsg_stillOpen {fuel : Nat} {fd : Int} {msg : Option MsgHdr}
    (h : unixSockSendmsg fuel n fd msg = .done (n', log, r)) : StillOpen n.vfs n'.vfs := by
  unfold unixSockSendmsg at h
  split at h
  · cases h; exact .refl _
  · split at h
    · cases h; exact .refl _
    · dsimp only at h
      split at h
      · cases h; exact .refl _
      · split at h
        · cases h; exact .refl _
        · split at h
          · cases h; exact .refl _
          · obtain ⟨⟨m, log₁, r₁⟩, hc, h⟩ := Outcome.bind_eq_done h
            cases h
            have hsent := sendControl_stillOpen _ _ hc
            exact hsent

theorem closeFds_open {k : Nat} : ∀ {fds : List Int} {v : Vfs σ}, (v.fds k).isOpen = true →
    (k : Int) ∉ fds → ((closeFds n fds v).fds k).isOpen = true
  | [], _, hk, _ => hk
  | fd :: fds, v, hk, hf => by
      rw [closeFds]
      rw [List.mem_cons, not_or] at hf
      refine closeFds_open ?_ hf.2
      split
      · exact vfsClose_open hk (Ne.symm hf.1)
      · exact hk

theorem unixSockClose_open {fd : Int} {k : Nat} (h : unixSockClose fs n fd = .done (n', log, r))
    (hk : (n.vfs.fds k).isOpen = true)
    (hd : ∀ i, sockOf n fd = some i → (k : Int) ∉ (n.socks i).fdsRx.toList) :
    (n'.vfs.fds k).isOpen = true := by
  unfold unixSockClose at h
  split at h
  · cases h; exact hk
  · next i hi =>
    obtain ⟨p, hp⟩ := unlinkPeer_eq n i i
    dsimp only at h
    rw [Net.setSock_self, hp] at h
    dsimp only at h
    have hall : ((n.socks i).fdsRx.popLoop fdsCap).1 = (n.socks i).fdsRx.toList := by
      rw [(RingBuf.popLoop_spec _ _).1, List.take_of_length_le (Nat.le_of_lt (RingBuf.length_lt _))]
    rw [hall, Net.setSock_vfs, unlinkPeer_vfs] at h
    split at h
    · obtain ⟨⟨v, r'⟩, hv, h⟩ := Outcome.bind_eq_done h
      cases h
      exact closeFds_open (stillOpen_of_fds (vfsUnlink_fds hv) k hk) (hd i hi)
    · cases h
      exact closeFds_open hk (hd i hi)

/-- The file descriptors a call closes that it did not open itself. -/
def SockOp.drops (n : Net σ) : SockOp → List Int
  | .close fd =>
      match sockOf n fd with
      | none => []
      | some i => (n.socks i).fdsRx.toList
  | .file (.close fd) => [fd]
  | _ => []

/-- **A file stays open until a call drops it.** -/
theorem call_stillOpen {input : DevInput} {fuel : Nat} {op : SockOp} {k : Nat}
    (h : n.call fs input fuel op = .done (n', log, rep)) (hk : (n.vfs.fds k).isOpen = true)
    (hd : (k : Int) ∉ op.drops n) : (n'.vfs.fds k).isOpen = true := by
  have hsame : n'.vfs = n.vfs → (n'.vfs.fds k).isOpen = true := fun he => by rw [he]; exact hk
  cases op with
  | socket domain type => cases h; exact hsame (unixSocket_vfs _ _)
  | socketpair domain type svNull => cases h; exact hsame (unixSocketpair_vfs _ _ _)
  | eventfd initval flags => cases h; exact hsame (unixEventfd_vfs _ _)
  | bind fd addr addrlen =>
      obtain ⟨⟨m, l, r⟩, hb, h⟩ := Outcome.bind_eq_done h
      cases h
      exact unixBind_stillOpen hb k hk
  | listen fd => cases h; exact hsame (unixListen_vfs _)
  | connect fd addr addrlen => cases h; exact hsame (unixConnect_vfs _ _ _)
  | accept fd =>
      have hv := congrArg (fun x => x.1.vfs) (Outcome.done.inj h)
      exact hsame (hv.symm.trans (unixAccept_vfs fd))
  | read fd len =>
      have hv := congrArg (fun x => x.1.vfs) (Outcome.done.inj h)
      exact hsame (hv.symm.trans (unixSockRead_vfs fd len))
  | write fd buf len => cases h; exact hsame (unixSockWrite_vfs _ _ _)
  | sendmsg fd msg =>
      obtain ⟨⟨m, l, r⟩, hs, h⟩ := Outcome.bind_eq_done h
      cases h
      exact unixSockSendmsg_stillOpen hs k hk
  | recvmsg fd msg =>
      have hv := congrArg (fun x => x.1.vfs) (Outcome.done.inj h)
      exact hsame (hv.symm.trans (unixSockRecvmsg_vfs fd msg))
  | close fd =>
      obtain ⟨⟨m, l, r⟩, hc, h⟩ := Outcome.bind_eq_done h
      cases h
      refine unixSockClose_open hc hk fun i hi => ?_
      rw [SockOp.drops, hi] at hd
      exact hd
  | fcntl fd cmd arg => cases h; exact hsame (unixSockFcntl_vfs _ _ _)
  | poll fd events => cases h; exact hk
  | file f =>
      obtain ⟨v, hv, h⟩ := Outcome.bind_eq_done h
      cases h
      exact step_stillOpen hv hk fun he => hd (by rw [he]; exact List.mem_cons_self)

end Calls

/-! ## Runs -/

section Steps

variable {fs : FrameService σ} {n n' : Net σ}

/-- The file descriptors a step closes that it did not open itself. -/
def Act.drops (n : Net σ) : Act → List Int
  | .call op => op.drops n
  | .wake _ => []

theorem sys_stillOpen {input : DevInput} {fuel : Nat} {s s' : Sys σ} {act : Act} {ans : Option Ans}
    {k : Nat}
    (h : s.step fs input fuel act = .done (s', ans)) (hk : (s.net.vfs.fds k).isOpen = true)
    (hd : (k : Int) ∉ act.drops s.net) : (s'.net.vfs.fds k).isOpen = true := by
  cases act with
  | call op =>
      obtain ⟨⟨n, log, rep⟩, hc, h⟩ := Outcome.bind_eq_done h
      cases rep with
      | ret a => cases h; exact call_stillOpen hc hk hd
      | sleep w => cases h; exact call_stillOpen hc hk hd
  | wake j =>
      rw [Sys.step] at h
      split at h
      · cases h; exact hk
      · next t _ =>
        have hv := resume_vfs (n := s.net) t.wait
        split at h
        · next hr =>
          cases h
          rw [hr] at hv
          rw [← hv] at hk
          exact hk
        · next hr =>
          cases h
          rw [hr] at hv
          rw [← hv] at hk
          exact hk

theorem used_setSock {i j : Nat} {s : USock} (hu : (n.socks i).used = true)
    (hs : i = j → s.used = true) :
    ((n.setSock j s).socks i).used = true := by
  by_cases hij : i = j
  · rw [hij, Net.setSock_self]; exact hs hij
  · rw [Net.setSock_ne _ hij]; exact hu

/-- A slot that is in use stays in use until it is given up. -/
theorem Edit.used {es : List Ev} {i : Nat} (he : Edit fs n es n') (hu : (n.socks i).used = true)
    (hc : ∀ fds, Ev.closed i fds ∉ es) : (n'.socks i).used = true := by
  have hother : ∀ {j : Nat}, (n.socks j).used = false → i ≠ j := fun hj he => by
    rw [he, hj] at hu
    cases hu
  cases he with
  | scratch hj _ => exact used_setSock hu fun he => absurd he (hother hj)
  | touched ht => exact used_setSock hu fun he => by rw [ht.used, ← he]; exact hu
  | opened _ hj => exact used_setSock hu fun he => absurd he (hother hj)
  | paired _ _ _ ha hb =>
      exact used_setSock (used_setSock hu fun he => absurd he (hother ha)) fun he =>
        absurd he (hother hb)
  | looped _ hj flags => exact used_setSock hu fun he => absurd he (hother hj)
  | linked _ huc _ _ hus _ hul _ _ =>
      refine used_setSock (used_setSock (used_setSock hu ?_) ?_) ?_
      · exact fun he => absurd he (hother hus)
      · exact fun _ => huc
      · exact fun _ => hul
  | accepted _ _ _ _ => exact used_setSock hu fun he => he ▸ hu
  | stale _ _ => exact used_setSock hu fun he => he ▸ hu
  | pushed _ _ => exact used_setSock hu fun he => he ▸ hu
  | popped _ => exact used_setSock hu fun he => he ▸ hu
  | sent _ _ _ => exact used_setSock hu fun he => he ▸ hu
  | received _ => exact used_setSock hu fun he => he ▸ hu
  | @closed j _ _ =>
      have hij : i ≠ j := fun he => hc (n.socks j).fdsRx.toList
        (by rw [he]; exact List.mem_cons_self)
      rcases shutSlot_ne (n := n) hij with hs | ⟨_, _, _, hs⟩
      · exact (congrArg USock.used hs).trans hu
      · exact (congrArg USock.used hs).trans hu
  | openFile _ => exact hu
  | closeFile _ => exact hu
  | dupFile _ => exact hu
  | unlinkFile _ => exact hu

theorem Edits.used {log : List Ev} {i : Nat} (he : Edits fs n log n') (hu : (n.socks i).used = true)
    (hc : ∀ fds, Ev.closed i fds ∉ log) : (n'.socks i).used = true := by
  induction he with
  | nil => exact hu
  | snoc _ hstep ih =>
      exact hstep.used (ih fun fds h => hc fds (List.mem_append_left _ h))
        fun fds h => hc fds (List.mem_append_right _ h)

/-- What a call hands out was free. -/
theorem takes_free {op : SockOp} {i : Nat} (hi : i ∈ op.takes n) : (n.socks i).used = false := by
  have hfirst : ∀ {m : Net σ} {j : Nat}, j ∈ (freeSlot m).toList → (m.socks j).used = false :=
      fun hj =>
    (freeSlot_some (Option.mem_toList.mp hj)).2
  cases op with
  | socket _ _ => exact hfirst hi
  | eventfd _ _ => exact hfirst hi
  | connect _ _ _ => exact hfirst hi
  | socketpair _ _ _ =>
      rw [SockOp.takes] at hi
      split at hi
      · exact absurd hi List.not_mem_nil
      · next a ha =>
        rcases List.mem_cons.mp hi with rfl | hi
        · exact (freeSlot_some ha).2
        · have hb := hfirst hi
          by_cases hia : i = a
          · rw [hia, Net.setSock_self] at hb
            exact absurd hb (by decide)
          · rwa [Net.setSock_ne _ hia] at hb
  | _ => exact absurd hi List.not_mem_nil

/-- **A socket is the same socket until it is closed.** -/
theorem step_same_socket {input : DevInput} {fuel : Nat} {s s' : Sys σ} {act : Act}
    {ans : Option Ans}
    {i : Nat} (hp : PeerInv s.net) (h : s.step fs input fuel act = .done (s', ans))
    (hu : (s.net.socks i).used = true)
    (hc : ∀ fd, act = .call (.close fd) → sockOf s.net fd ≠ some i) :
    (s'.net.socks i).used = true ∧ gen s'.hist i = gen s.hist i := by
  obtain ⟨log, hlog, hl⟩ := step_logged hp.created h
  have hlogs : (∀ fds, Ev.closed i fds ∉ log) ∧ gen log i = 0 := by
    rcases step_closes h hlog with hk | ⟨fd, j, pre, rfl, hj, hpre, rfl⟩
    · refine ⟨fun fds hm => ?_, gen_eq_zero hk fun hi => ?_⟩
      · exact absurd (hk _ hm).1 (by simp [Ev.closes])
      · cases act with
        | call op => rw [takes_free hi] at hu; cases hu
        | wake _ => exact absurd hi List.not_mem_nil
    · refine ⟨fun fds hm => ?_, gen_closed i j _ pre _ hpre⟩
      have hij : i = j := by
        rcases hpre with rfl | rfl <;> simp at hm <;> exact hm.1
      exact hc fd rfl (hij ▸ hj)
  refine ⟨?_, ?_⟩
  · cases hl with
    | edits he => exact he.used hu hlogs.1
    | files _ hv => rw [hv]; exact hu
  · rw [hlog, gen_append, hlogs.2, Nat.add_zero]

end Steps

end VnlKernel
