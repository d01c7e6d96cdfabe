import VnlKernel.Proof.SockFiles
import VnlKernel.Proof.VfsFile
import VnlKernel.Proof.VfsOpen

/-!
# Names of sockets

`unix_bind` copies the path into the slot before it knows whether the socket can have it, and
a call that fails afterwards leaves it there. The check for conflicts looks at every other slot
with a path, whatever its state, so a socket that was refused a name keeps it from the next one
as well, also when the rightful owner has closed and the file is gone.

No name is ever given out twice, though: a socket becomes bound only when no other slot has its
path.
-/

namespace VnlKernel

open Bits Run

variable {σ : Type}

/-- Bound, or listening. -/
def USock.Named (s : USock) : Prop := s.state = .bound ∨ s.state = .listening

/-- The slot has the name it had, or has none. -/
def KeepsName (s s' : USock) : Prop :=
  s'.used = true → (s.used = true ∧ s'.path = s.path ∧ (s'.Named ↔ s.Named)) ∨ (s'.path = [] ∧ ¬ s'.Named)

/-- No slot has been given a name, and the files below are in order. -/
structure NoneNamed (n n' : Net σ) : Prop where
  names : ∀ k, KeepsName (n.socks k) (n'.socks k)
  tree : TreeOk n.vfs → TreeOk n'.vfs

/-! ## Calls that give no names -/

section Slots

variable {s s' s'' : USock} {n n' n'' : Net σ} {i : Nat}

theorem KeepsName.same (hu : s'.used = s.used) (hp : s'.path = s.path) (hs : s'.state = s.state) :
    KeepsName s s' := fun h => Or.inl ⟨by rw [← hu]; exact h, hp, by unfold USock.Named; rw [hs]⟩

theorem KeepsName.nameless (hp : s'.path = []) (hb : s'.state ≠ .bound)
    (hl : s'.state ≠ .listening) :
    KeepsName s s' := fun _ => Or.inr ⟨hp, not_or.mpr ⟨hb, hl⟩⟩

theorem KeepsName.unused (hu : s'.used = false) : KeepsName s s' := fun h => absurd h (by simp [hu])

theorem KeepsName.trans (h : KeepsName s s') (h' : KeepsName s' s'') : KeepsName s s'' := by
  intro hu
  rcases h' hu with ⟨hu', hp', hn'⟩ | hnone
  · rcases h hu' with ⟨hu₀, hp, hn⟩ | ⟨hp, hn⟩
    · exact Or.inl ⟨hu₀, hp'.trans hp, hn'.trans hn⟩
    · exact Or.inr ⟨hp'.trans hp, fun hnamed => hn (hn'.mp hnamed)⟩
  · exact Or.inr hnone

theorem NoneNamed.refl (n : Net σ) : NoneNamed n n := ⟨fun _ => .same rfl rfl rfl, id⟩

theorem NoneNamed.trans (h : NoneNamed n n') (h' : NoneNamed n' n'') : NoneNamed n n'' :=
  ⟨fun k => (h.names k).trans (h'.names k), h'.tree ∘ h.tree⟩

theorem NoneNamed.setSock (h : KeepsName (n.socks i) s) : NoneNamed n (n.setSock i s) := by
  refine ⟨fun k => ?_, id⟩
  by_cases hk : k = i
  · rw [hk, Net.setSock_self]
    exact h
  · rw [Net.setSock_ne _ hk]
    exact .same rfl rfl rfl

theorem NoneNamed.sameTree {v : Vfs σ} (h : SameTree n.vfs v) : NoneNamed n { n with vfs := v } :=
  ⟨fun _ => .same rfl rfl rfl, fun hT =>
    ⟨hT.1.same h, by have := h.next; have := hT.2; show v.nextInode ≤ _; omega⟩⟩

theorem NoneNamed.fresh {m : Net σ} (h : allocSlot n = some (m, i)) : NoneNamed n m := by
  obtain ⟨_, _, rfl⟩ := allocSlot_some h
  exact .setSock (.nameless rfl (by decide) (by decide))

end Slots

section Calls

variable {fs : FrameService σ} {n n' : Net σ} {log : List Ev} {r : Int} {rep : Reply}

theorem unixSocket_noneNamed {domain type : Int} (h : unixSocket n domain type = (n', log, r)) :
    NoneNamed n n' := by
  unfold unixSocket at h
  split at h
  · cases h; exact .refl n
  · split at h
    · cases h; exact .refl n
    · split at h
      · cases h; exact .refl n
      · next m i ha =>
        cases h
        exact .fresh ha

/-- A slot without a name is connected. -/
theorem NoneNamed.connected {m : Net σ} {i : Nat} (hm : (m.socks i).path = []) (peer : Int) :
    NoneNamed m (m.setSock i { m.socks i with state := .connected, peerIdx := peer }) :=
  .setSock (.nameless hm (by simp) (by simp))

theorem unixSocketpair_noneNamed {domain type : Int} {svNull : Bool} {sv : Option (Int × Int)}
    (h : unixSocketpair n domain type svNull = (n', log, r, sv)) : NoneNamed n n' := by
  unfold unixSocketpair at h
  split at h
  · cases h; exact .refl n
  · split at h
    · cases h; exact .refl n
    · split at h
      · cases h; exact .refl n
      · next m a ha =>
        have hfirst := NoneNamed.fresh ha
        obtain ⟨_, hua, rfl⟩ := allocSlot_some ha
        split at h
        · cases h
          exact hfirst.trans (.setSock (.unused rfl))
        · next m' b hb =>
          have hboth := hfirst.trans (NoneNamed.fresh hb)
          obtain ⟨_, hub, rfl⟩ := allocSlot_some hb
          cases h
          have hne : a ≠ b := by
            rintro rfl
            rw [Net.setSock_self] at hub
            exact absurd hub (by decide)
          have hpath : ∀ k, k = a ∨ k = b → (((n.setSock a .fresh).setSock b .fresh).socks k).path
              = [] := by
            rintro k (rfl | rfl)
            · rw [Net.setSock_ne _ hne, Net.setSock_self]
              rfl
            · rw [Net.setSock_self]
              rfl
          refine hboth.trans ((NoneNamed.connected (hpath a (Or.inl rfl)) b).trans
            (NoneNamed.connected ?_ a))
          rw [Net.setSock_ne _ hne.symm]
          exact hpath b (Or.inr rfl)

theorem unixEventfd_noneNamed {initval flags : Nat}
    (h : unixEventfd n initval flags = (n', log, r)) :
    NoneNamed n n' := by
  unfold unixEventfd at h
  split at h
  · cases h; exact .refl n
  · next m i ha =>
    have hfirst := NoneNamed.fresh ha
    obtain ⟨_, _, rfl⟩ := allocSlot_some ha
    rw [Net.setSock_self] at h
    dsimp only at h
    split at h
    · cases h
      exact hfirst.trans (.setSock (.nameless rfl (by simp [pushRx, USock.fresh])
        (by simp [pushRx, USock.fresh])))
    · cases h
      exact hfirst.trans (.setSock (.nameless rfl (by simp) (by simp)))

/-- A bound socket that listens keeps its name. -/
theorem unixListen_noneNamed {fd : Int} (h : unixListen n fd = (n', r)) : NoneNamed n n' := by
  unfold unixListen at h
  split at h
  · cases h; exact .refl n
  · next i hi =>
    split at h
    · cases h; exact .refl n
    · next hst =>
      cases h
      refine .setSock fun hu => Or.inl ⟨hu, rfl, fun _ => Or.inl (not_not.mp hst),
        fun _ => Or.inr rfl⟩

theorem unixConnect_noneNamed {fd : Int} {addr : Option (Nat → UInt8)} {addrlen : Nat}
    (h : unixConnect n fd addr addrlen = (n', log, r)) : NoneNamed n n' := by
  -- the client had no name, and has none when it is connected
  have hclient : ∀ {c : Nat} {s : USock}, (n.socks c).state = .created → s.used = (n.socks c).used →
      s.path = (n.socks c).path → s.state ≠ .bound → s.state ≠ .listening
          → KeepsName (n.socks c) s := by
    intro c s hst hu hp hb hl hused
    refine Or.inl ⟨hu ▸ hused, hp, fun hn => absurd hn (not_or.mpr ⟨hb, hl⟩), fun hn => ?_⟩
    unfold USock.Named at hn
    rw [hst] at hn
    exact absurd hn (by simp)
  rcases unixConnect_cases h with ⟨rfl, _, _⟩ | ⟨c, s, hc, hst, hs, _, _, rfl⟩
    | ⟨c, s, l, path, hc, hst, hs, _, hl, _, _, _, rfl⟩
  · exact .refl _
  · obtain ⟨_, hus⟩ := freeSlot_some hs
    obtain ⟨_, _, huc⟩ := sockOf_some hc
    have hcs : c ≠ s := Net.used_ne huc hus
    refine NoneNamed.trans (.setSock (.unused rfl)) (.setSock ?_)
    rw [Net.setSock_ne _ hcs]
    exact hclient hst rfl rfl (by simp) (by simp)
  · obtain ⟨_, _, huc⟩ := sockOf_some hc
    obtain ⟨_, hus⟩ := freeSlot_some hs
    obtain ⟨_, hul, hsl⟩ := findListener_some hl
    have hcs : c ≠ s := Net.used_ne huc hus
    have hls : l ≠ s := Net.used_ne hul hus
    have hlc : l ≠ c := Net.listening_ne hsl hst
    refine NoneNamed.trans (.setSock (.nameless rfl (by simp [USock.joined])
      (by simp [USock.joined])))
      (NoneNamed.trans (.setSock ?_) (.setSock ?_))
    · rw [Net.setSock_ne _ hcs]
      exact hclient hst rfl rfl (by simp [USock.joined]) (by simp [USock.joined])
    · rw [Net.setSock_ne _ hlc, Net.setSock_ne _ hls]
      exact .same rfl rfl rfl

theorem acceptFrom_noneNamed {i : Nat} (h : acceptFrom n i = (n', log, rep)) : NoneNamed n n' := by
  rcases acceptFrom_cases h with ⟨rfl, _⟩ | ⟨_, rfl, _⟩
  · exact .refl _
  · exact .setSock (.same rfl rfl rfl)

theorem readFrom_noneNamed {i len : Nat} (h : readFrom n i len = (n', log, rep)) :
    NoneNamed n n' := by
  unfold readFrom at h
  split at h
  · cases h; exact .refl n
  · next s r out hp =>
    obtain ⟨rx, rfl, _⟩ := popRx_rx hp
    cases h
    exact .setSock (.same rfl rfl rfl)

theorem recvFrom_noneNamed {i : Nat} {msg : MsgHdr} (h : recvFrom n i msg = (n', log, rep)) :
    NoneNamed n n' := by
  unfold recvFrom at h
  split at h
  · cases h; exact .refl n
  · next s out e hr =>
    obtain ⟨rx, rfl, _⟩ := recvIovs_spec msg.iov 0 hr
    cases h
    exact .setSock (.same rfl rfl rfl)
  · next s out total hr =>
    obtain ⟨rx, rfl, _⟩ := recvIovs_spec msg.iov 0 hr
    split at h
    · cases h
      exact .setSock (.same rfl rfl rfl)
    · cases h
      exact .setSock (.same rfl rfl rfl)

theorem unixSockWrite_noneNamed {fd : Int} {buf : Nat → UInt8} {len : Nat}
    (h : unixSockWrite n fd buf len = (n', log, r)) : NoneNamed n n' := by
  unfold unixSockWrite at h
  split at h
  · cases h; exact .refl n
  · next i j hs =>
    cases h
    exact .setSock (.same rfl rfl rfl)

theorem sendFd_noneNamed (n : Net σ) (i j : Nat) (f : Int) : NoneNamed n (sendFd n i j f).1 := by
  have hdup : SameTree n.vfs (vfsDup n.vfs f).1 := by
    rcases vfsDup_moves (v := n.vfs) f with h | h
    · rw [h]
      exact .refl _
    · obtain ⟨k, _, hk⟩ := h
      rw [hk]
      exact .of_nodes rfl rfl rfl
  unfold sendFd
  dsimp only
  have hp : SameTree n.vfs (if unixIsSockfd n f = true then (n.vfs, f) else vfsDup n.vfs f).1 := by
    split
    · exact .refl _
    · exact hdup
  generalize (if unixIsSockfd n f = true then (n.vfs, f) else vfsDup n.vfs f) = p at hp
  split
  · exact .refl n
  · split
    · split
      · exact .sameTree hp
      · exact .sameTree (hp.trans (vfsClose_moves p.1 p.2).sameTree)
    · exact (NoneNamed.sameTree hp).trans (.setSock (.same rfl rfl rfl))

theorem sendFds_noneNamed (i j : Nat) (fds : Nat → Int) : ∀ (k f : Nat) (n : Net σ),
    NoneNamed n (sendFds i j fds k f n).1
  | 0, _, n => .refl n
  | k + 1, f, n => by
      rw [sendFds]
      dsimp only
      split
      · exact sendFd_noneNamed n i j (fds f)
      · exact (sendFd_noneNamed n i j (fds f)).trans (sendFds_noneNamed i j fds k (f + 1) _)

theorem sendControl_noneNamed {i j : Nat} {control : Nat → UInt8} {controllen : Nat} :
    ∀ (fuel offset : Nat) {n n' : Net σ} {log : List Ev} {r : Int},
      sendControl i j control controllen fuel offset n = .done (n', log, r) → NoneNamed n n'
  | 0, offset, n, n', log, r, h => absurd h (by simp [sendControl])
  | fuel + 1, offset, n, n', log, r, h => by
      rw [sendControl] at h
      split at h
      · dsimp only at h
        split at h
        · cases h; exact .refl n
        · generalize hg : (if readInt control (offset + 8) = solSocket
            ∧ readInt control (offset + 12) = scmRights then _ else _ : Net σ × List Ev × Int)
              = g at h
          have hm : NoneNamed n g.1 := by
            subst hg
            split
            · exact sendFds_noneNamed i j _ _ _ n
            · exact .refl n
          split at h
          · cases h; exact hm
          · obtain ⟨⟨m', log₂, r₂⟩, h₂, h⟩ := Outcome.bind_eq_done h
            cases h
            exact hm.trans (sendControl_noneNamed fuel _ h₂)
      · cases h; exact .refl n

theorem unixSockSendmsg_noneNamed {fuel : Nat} {fd : Int} {msg : Option MsgHdr}
    (h : unixSockSendmsg fuel n fd msg = .done (n', log, r)) : NoneNamed n n' := by
  unfold unixSockSendmsg at h
  split at h
  · cases h; exact .refl n
  · next i j _ =>
    split at h
    · cases h; exact .refl n
    · next msg =>
      have hpush : NoneNamed n (n.setSock j (sendIovs msg.iov 0 (n.socks j)).1) := by
        obtain ⟨rx, hp, _⟩ := sendIovs_spec msg.iov 0 (n.socks j)
        rw [hp]
        exact .setSock (.same rfl rfl rfl)
      dsimp only at h
      split at h
      · cases h; exact hpush
      · split at h
        · cases h; exact hpush
        · split at h
          · cases h; exact hpush
          · obtain ⟨⟨m, log₁, r₁⟩, hc, h⟩ := Outcome.bind_eq_done h
            cases h
            exact hpush.trans (sendControl_noneNamed _ _ hc)

theorem unlinked_treeOk {v v' : Vfs σ} {path : CStr} (hT : TreeOk v)
    (h : vfsUnlink fs v path = .done (v', r)) : TreeOk v' := by
  rcases vfsUnlink_cases h with rfl | ⟨i, s, shm, heap, hi, hroot, hempty, _, _, rfl⟩
  · exact hT
  · obtain ⟨_, hu, _⟩ := nodeGet_some hi
    have hsame : SameTree (v.setNode i .zero) (dropNode (v.withFrames s shm) i heap) :=
      .of_nodes rfl rfl rfl
    exact ⟨(hT.1.remove hu hroot hempty).same hsame, by rw [hsame.next]; exact hT.2⟩

theorem closeFds_sameTree : ∀ (fds : List Int) (v : Vfs σ), SameTree v (closeFds n fds v)
  | [], v => .refl v
  | fd :: fds, v => by
      rw [closeFds]
      refine SameTree.trans ?_ (closeFds_sameTree fds _)
      split
      · exact (vfsClose_moves v fd).sameTree
      · exact .refl v

/-- The name goes with the slot. -/
theorem unixSockClose_noneNamed {fd : Int} (h : unixSockClose fs n fd = .done (n', log, r)) :
    NoneNamed n n' := by
  unfold unixSockClose at h
  split at h
  · cases h; exact .refl n
  · next i hi =>
    have hpeer : NoneNamed n (unlinkPeer n i) := by
      refine ⟨fun k => ?_, fun hT => by rw [unlinkPeer_vfs]; exact hT⟩
      obtain ⟨p, hp⟩ := unlinkPeer_eq n i k
      rw [hp]
      exact .same rfl rfl rfl
    have hslot := hpeer.trans (.setSock (s := { (unlinkPeer n i).socks i with peerIdx := peerNone })
      (.same rfl rfl rfl))
    -- whatever the file system is like when the slot is given up
    have hend : ∀ {v : Vfs σ} (m m' : Net σ) (fds : List Int), NoneNamed n m
      → (TreeOk n.vfs → TreeOk v) →
        NoneNamed n ({ m with vfs := closeFds m' fds v }.setSock i .zero) := by
      intro v m m' fds hm hv
      have hsame : SameTree v (closeFds m' fds v) := closeFds_sameTree fds v
      have hmid : NoneNamed n { m with vfs := closeFds m' fds v } := by
        refine ⟨hm.names, fun hT => ⟨(hv hT).1.same hsame, ?_⟩⟩
        show (closeFds m' fds v).nextInode ≤ _
        rw [hsame.next]
        exact (hv hT).2
      exact hmid.trans (.setSock (.unused rfl))
    dsimp only at h
    rw [Net.setSock_vfs, unlinkPeer_vfs] at h
    split at h
    · obtain ⟨⟨v, r'⟩, hv, h⟩ := Outcome.bind_eq_done h
      cases h
      exact hend _ _ _ hslot fun hT => unlinked_treeOk hT hv
    · cases h
      exact hend _ _ _ hslot id

theorem unixSockFcntl_noneNamed {fd cmd : Int} {arg : Nat}
    (h : unixSockFcntl n fd cmd arg = (n', r)) :
    NoneNamed n n' := by
  unfold unixSockFcntl at h
  split at h
  · cases h; exact .refl n
  · split at h
    · cases h; exact .refl n
    · split at h
      · cases h
        exact .setSock (.same rfl rfl rfl)
      · cases h; exact .refl n

/-- **Only `unix_bind` gives names.** A call into the file system may run out of numbers. -/
theorem call_noneNamed {input : DevInput} {fuel : Nat} {op : SockOp}
    (h : n.call fs input fuel op = .done (n', log, rep)) (hnum : n'.vfs.nextInode ≤ 2 ^ 31) :
    NoneNamed n n' ∨ ∃ fd addr addrlen r, op = .bind fd addr addrlen
      ∧ unixBind n fd addr addrlen = .done (n', log, r) := by
  cases op with
  | socket domain type => cases h; exact Or.inl (unixSocket_noneNamed rfl)
  | socketpair domain type svNull => cases h; exact Or.inl (unixSocketpair_noneNamed rfl)
  | eventfd initval flags => cases h; exact Or.inl (unixEventfd_noneNamed rfl)
  | bind fd addr addrlen =>
      obtain ⟨⟨m, l, r⟩, hb, h⟩ := Outcome.bind_eq_done h
      cases h
      exact Or.inr ⟨fd, addr, addrlen, r, rfl, hb⟩
  | listen fd => cases h; exact Or.inl (unixListen_noneNamed rfl)
  | connect fd addr addrlen => cases h; exact Or.inl (unixConnect_noneNamed rfl)
  | accept fd =>
      have hcall := Outcome.done.inj h
      unfold unixAccept at hcall
      split at hcall
      · cases hcall; exact Or.inl (.refl n)
      · split at hcall
        · cases hcall; exact Or.inl (.refl n)
        · exact Or.inl (acceptFrom_noneNamed hcall)
  | read fd len =>
      have hcall := Outcome.done.inj h
      unfold unixSockRead at hcall
      split at hcall
      · cases hcall; exact Or.inl (.refl n)
      · split at hcall
        · cases hcall; exact Or.inl (.refl n)
        · exact Or.inl (readFrom_noneNamed hcall)
  | write fd buf len => cases h; exact Or.inl (unixSockWrite_noneNamed rfl)
  | sendmsg fd msg =>
      obtain ⟨⟨m, l, r⟩, hs, h⟩ := Outcome.bind_eq_done h
      cases h
      exact Or.inl (unixSockSendmsg_noneNamed hs)
  | recvmsg fd msg =>
      have hcall := Outcome.done.inj h
      unfold unixSockRecvmsg at hcall
      split at hcall
      · cases hcall; exact Or.inl (.refl n)
      · split at hcall
        · cases hcall; exact Or.inl (.refl n)
        · split at hcall
          · cases hcall; exact Or.inl (.refl n)
          · exact Or.inl (recvFrom_noneNamed hcall)
  | close fd =>
      obtain ⟨⟨m, l, r⟩, hc, h⟩ := Outcome.bind_eq_done h
      cases h
      exact Or.inl (unixSockClose_noneNamed hc)
  | fcntl fd cmd arg => cases h; exact Or.inl (unixSockFcntl_noneNamed rfl)
  | poll fd events => cases h; exact Or.inl (.refl n)
  | file f =>
      obtain ⟨v, hv, h⟩ := Outcome.bind_eq_done h
      cases h
      left
      refine ⟨fun _ => .same rfl rfl rfl, fun hT => ?_⟩
      have hbefore := hT.2
      exact ⟨hT.1.edit (step_treeEdit hv) (by omega), hnum⟩

theorem resume_noneNamed {w : Wait} (h : n.resume w = (n', log, rep)) : NoneNamed n n' := by
  cases w with
  | read i len => exact readFrom_noneNamed h
  | recvmsg i msg => exact recvFrom_noneNamed h
  | accept i => exact acceptFrom_noneNamed h

end Calls

/-! ## Binding -/

/-- Some other socket has the path. -/
def PathTaken (n : Net σ) (i : Nat) (path : CStr) : Prop :=
  ∃ k < unixSockMax, (n.socks k).used = true ∧ k ≠ i ∧ (n.socks k).path ≠ [] ∧ (n.socks k).path = path

/-- The call gets as far as copying the path into slot `i`. -/
def StoresPath (n : Net σ) (fd : Int) (addr : Option (Nat → UInt8)) (addrlen i : Nat) (path : CStr) : Prop :=
  sockOf n fd = some i ∧ (n.socks i).state = .created ∧ checkAddr addr addrlen = some path

/-- It gets as far as making the file. -/
def BindOpens (n : Net σ) (i : Nat) (path : CStr) : Prop :=
  path ≠ [] ∧ vfsResolve n.vfs path < 0 ∧ ¬ PathTaken n i path

/-- **The call leaves nothing behind**: it stops before the path is copied, or the file can be made,
or the path is the one that was there already and no device node is made. -/
def BindClean (n : Net σ) (fd : Int) (addr : Option (Nat → UInt8)) (addrlen : Nat) : Prop :=
  ∀ i path, StoresPath n fd addr addrlen i path →
    (BindOpens n i path ∧ OpenSucceeds n.vfs path bindFlags)
      ∨ (path = (n.socks i).path ∧ ¬ (BindOpens n i path ∧ MakesDevice n.vfs path bindFlags))

/-- A bind that fails changes no socket and no node. -/
def BindAtomic (n : Net σ) (fd : Int) (addr : Option (Nat → UInt8)) (addrlen : Nat) : Prop :=
  ∀ n' log r, unixBind n fd addr addrlen = .done (n', log, r) → r < 0 →
    n'.socks = n.socks ∧ n'.vfs.nodes = n.vfs.nodes

section Bind

variable {n n' : Net σ} {fd : Int} {addr : Option (Nat → UInt8)} {addrlen : Nat} {log : List Ev} {r : Int}

/-- The slot once the path is in it. -/
def withPath (n : Net σ) (i : Nat) (path : CStr) : Net σ := n.setSock i { n.socks i with path := path }

/-- The scan for conflicts. -/
theorem pathTaken_iff (n : Net σ) (i : Nat) (path : CStr) :
    (Scan.first (fun k => ((withPath n i path).socks k).used && k ≠ i &&
      ((withPath n i path).socks k).path ≠ []
      && ((withPath n i path).socks k).path = path) unixSockMax 0).isSome = true
        ↔ PathTaken n i path := by
  have hother : ∀ k, k ≠ i → (withPath n i path).socks k = n.socks k :=
    fun k hk => Net.setSock_ne _ hk
  constructor
  · intro h
    obtain ⟨k, hk⟩ := Option.isSome_iff_exists.mp h
    obtain ⟨hp, _, hlt, _⟩ := Scan.first_some hk
    simp only [Bool.and_eq_true, decide_eq_true_eq] at hp
    obtain ⟨⟨⟨hu, hki⟩, hne⟩, heq⟩ := hp
    rw [hother k hki] at hu hne heq
    exact ⟨k, by omega, hu, hki, hne, heq⟩
  · rintro ⟨k, hlt, hu, hki, hne, heq⟩
    by_contra hnone
    rw [Option.not_isSome_iff_eq_none] at hnone
    have := Scan.first_none hnone k (Nat.zero_le _) (by omega)
    rw [hother k hki] at this
    simp only [hu, hki, heq, ne_eq, not_false_eq_true, decide_true, Bool.and_true, Bool.true_and,
      decide_eq_false_iff_not, not_not] at this
    exact hne (heq.trans this)

/-- **What `unix_bind` does** once the path is in the slot. -/
inductive BindEnd (n : Net σ) (i : Nat) (path : CStr) : Net σ → List Ev → Int → Prop
  | abstract (h : path = []) : BindEnd n i path (withPath n i path) [] (-einval)
  | inUse (h : path ≠ []) (hu : 0 ≤ vfsResolve n.vfs path ∨ PathTaken n i path) :
      BindEnd n i path (withPath n i path) [] (-eaddrinuse)
  | noFile (h : BindOpens n i path) {v : Vfs σ} {tfd : Int} (ho : vfsOpen n.vfs path bindFlags = .done (v, tfd))
      (hf : tfd < 0) :
      BindEnd n i path { withPath n i path with vfs := v } [.openFile path bindFlags] (-eio)
  | bound (h : BindOpens n i path) {v : Vfs σ} {tfd : Int} (ho : vfsOpen n.vfs path bindFlags = .done (v, tfd))
      (hf : 0 ≤ tfd) :
      BindEnd n i path
        ({ withPath n i path with vfs := (vfsClose v tfd).1 }.setSock i
          { (withPath n i path).socks i with state := .bound })
        [.openFile path bindFlags, .closeFile tfd] 0

theorem unixBind_cases (h : unixBind n fd addr addrlen = .done (n', log, r)) :
    (n' = n ∧ (r = -ebadf ∨ r = -einval) ∧ ∀ i path, ¬ StoresPath n fd addr addrlen i path)
      ∨ ∃ i path, StoresPath n fd addr addrlen i path ∧ BindEnd n i path n' log r := by
  unfold unixBind at h
  cases hi : sockOf n fd with
  | none =>
      rw [hi] at h
      cases h
      exact Or.inl ⟨rfl, Or.inl rfl, fun i path hs => absurd hs.1 (by rw [hi]; simp)⟩
  | some i =>
      rw [hi] at h
      dsimp only at h
      by_cases hst : (n.socks i).state = .created
      · -- a socket just made: its name is stored before the file is
        rw [if_neg (not_not.mpr hst)] at h
        cases hc : checkAddr addr addrlen with
        | none =>
            rw [hc] at h
            cases h
            exact Or.inl ⟨rfl, Or.inr rfl, fun j path hs => absurd hs.2.2 (by rw [hc]; simp)⟩
        | some path =>
            rw [hc] at h
            dsimp only at h
            refine Or.inr ⟨i, path, ⟨hi, hst, hc⟩, ?_⟩
            by_cases hnil : path = []
            · rw [if_pos hnil] at h
              cases h
              exact .abstract hnil
            · rw [if_neg hnil, Net.setSock_vfs] at h
              by_cases hres : vfsResolve n.vfs path ≥ 0
              · rw [if_pos hres] at h
                cases h
                exact .inUse hnil (Or.inl hres)
              · rw [if_neg hres] at h
                -- another socket of that name, the one in hand left out
                have htaken := pathTaken_iff n i path
                unfold withPath at htaken
                by_cases ht : PathTaken n i path
                · rw [if_pos (htaken.mpr ht)] at h
                  cases h
                  exact .inUse hnil (Or.inr ht)
                · rw [if_neg (fun hs => ht (htaken.mp hs))] at h
                  have hopens : BindOpens n i path := ⟨hnil, by omega, ht⟩
                  obtain ⟨⟨v, tfd⟩, ho, h⟩ := Outcome.bind_eq_done h
                  dsimp only at h
                  by_cases hf : tfd < 0
                  · rw [if_pos hf] at h
                    cases h
                    exact .noFile hopens ho hf
                  · rw [if_neg hf] at h
                    cases h
                    exact .bound hopens ho (Int.not_lt.mp hf)
      · rw [if_pos hst] at h
        cases h
        exact Or.inl ⟨rfl, Or.inr rfl, fun j path hs => hst (by
          have := hs.1
          rw [hi] at this
          cases this
          exact hs.2.1)⟩

/-- Each of these ends is what the call comes to. -/
theorem unixBind_end {i : Nat} {path : CStr} (hs : StoresPath n fd addr addrlen i path)
    (he : BindEnd n i path n' log r) : unixBind n fd addr addrlen = .done (n', log, r) := by
  obtain ⟨hi, hst, hc⟩ := hs
  have htaken := pathTaken_iff n i path
  unfold withPath at htaken
  unfold unixBind
  rw [hi]
  dsimp only
  rw [if_neg (not_not.mpr hst), hc]
  dsimp only
  cases he with
  | abstract h =>
      rw [if_pos h]
      rfl
  | inUse h hu =>
      rw [if_neg h, Net.setSock_vfs]
      by_cases hres : vfsResolve n.vfs path ≥ 0
      · rw [if_pos hres]
        rfl
      · rcases hu with hu | hu
        · exact absurd hu hres
        · rw [if_neg hres, if_pos (htaken.mpr hu)]
          rfl
  | noFile h ho hf =>
      rw [if_neg h.1, Net.setSock_vfs, if_neg (by have := h.2.1; omega),
        if_neg (fun hs => h.2.2 (htaken.mp hs)), ho]
      exact if_pos hf
  | bound h ho hf =>
      rw [if_neg h.1, Net.setSock_vfs, if_neg (by have := h.2.1; omega),
        if_neg (fun hs => h.2.2 (htaken.mp hs)), ho]
      exact if_neg (Int.not_lt.mpr hf)

/-- The path that was there already. -/
theorem withPath_self (i : Nat) : withPath n i (n.socks i).path = n := Net.setSock_eta

theorem withPath_socks {i : Nat} {path : CStr} (h : (withPath n i path).socks = n.socks) :
    path = (n.socks i).path := by
  have hi := congrArg USock.path (congrFun h i)
  unfold withPath at hi
  rw [Net.setSock_self] at hi
  exact hi

/-- A file that cannot be opened leaves no node where no device node is made. -/
theorem failed_nodes {v v' : Vfs σ} {path : CStr} {flags : Nat} (h : ¬ OpenSucceeds v path flags)
    (hd : ¬ MakesDevice v path flags) (ho : vfsOpen v path flags = .done (v', r)) :
    v'.nodes = v.nodes := by
  obtain ⟨v₁, r₁, hfail, _, hleft⟩ := vfsOpen_fails h
  rw [ho] at hfail
  cases hfail
  by_cases hreach : ReachesObject v path
  · rw [hleft.object hreach hd]
    rfl
  · rw [hleft.nothing hreach]

theorem bindAtomic_iff (hT : TreeOk n.vfs) : BindAtomic n fd addr addrlen
    ↔ BindClean n fd addr addrlen := by
  -- an open that fails does not succeed
  have hfails : ∀ {path : CStr} {v : Vfs σ} {tfd : Int},
    vfsOpen n.vfs path bindFlags = .done (v, tfd) →
      tfd < 0 → ¬ OpenSucceeds n.vfs path bindFlags := by
    intro path v tfd ho hf hyes
    have hnum := hT.2
    have := vfsOpen_opens hT.1 (by omega) hyes ho
    omega
  constructor
  · intro hatomic i path hs
    by_cases hopens : BindOpens n i path
    · by_cases hyes : OpenSucceeds n.vfs path bindFlags
      · exact Or.inl ⟨hopens, hyes⟩
      · right
        obtain ⟨v, tfd, ho, hf, hleft⟩ := vfsOpen_fails hyes
        obtain ⟨hsocks, hnodes⟩ := hatomic _ _ _ (unixBind_end hs (.noFile hopens ho hf))
          (by decide)
        have hnodes : v.nodes = n.vfs.nodes := hnodes
        refine ⟨withPath_socks hsocks, fun hd => ?_⟩
        rw [hleft.device hd.2] at hnodes
        exact withDevice_nodes hd.2 hnodes
    · right
      refine ⟨?_, fun hd => hopens hd.1⟩
      -- the name is stored and left there, so it was the socket's already
      by_cases hnil : path = []
      · exact withPath_socks (hatomic _ _ _ (unixBind_end hs (.abstract hnil)) (by decide)).1
      · have hused : 0 ≤ vfsResolve n.vfs path ∨ PathTaken n i path := by
          by_contra hno
          rw [not_or] at hno
          exact hopens ⟨hnil, by omega, hno.2⟩
        exact withPath_socks (hatomic _ _ _ (unixBind_end hs (.inUse hnil hused)) (by decide)).1
  · intro hclean n' log r h hr
    rcases unixBind_cases h with ⟨rfl, _, _⟩ | ⟨i, path, hs, he⟩
    · exact ⟨rfl, rfl⟩
    · rcases hclean i path hs with ⟨hopens, hyes⟩ | ⟨hold, hnodev⟩
      · cases he with
        | abstract hnil => exact absurd hnil hopens.1
        | inUse _ hu =>
            rcases hu with hu | hu
            · exact absurd hopens.2.1 (by omega)
            · exact absurd hu hopens.2.2
        | noFile _ ho hf => exact absurd hyes (hfails ho hf)
        | bound _ _ _ => omega
      · -- the name stored is the one that was there
        have hsame : withPath n i path = n := by
          rw [hold]
          exact withPath_self i
        cases he with
        | abstract _ => rw [hsame]; exact ⟨rfl, rfl⟩
        | inUse _ _ => rw [hsame]; exact ⟨rfl, rfl⟩
        | noFile hopens ho hf =>
            rw [hsame]
            exact ⟨rfl, failed_nodes (hfails ho hf) (fun hd => hnodev ⟨hopens, hd⟩) ho⟩
        | bound _ _ _ => omega

end Bind

/-! ## Runs -/

/-- Names are not empty, and no two sockets have the same. -/
structure SockNames (n : Net σ) : Prop where
  named : ∀ k, (n.socks k).used = true → (n.socks k).Named → (n.socks k).path ≠ []
  unique : ∀ j k, (n.socks j).used = true → (n.socks j).Named → (n.socks k).used = true → (n.socks k).Named →
    (n.socks j).path = (n.socks k).path → j = k

/-- A path is stored for sockets that have it as their name, and for no others. -/
def OnlyNames (n : Net σ) : Prop := ∀ k, (n.socks k).used = true → (n.socks k).path ≠ [] → (n.socks k).Named

/-- Every bind leaves nothing behind. -/
def Sys.BindsCleanly (s : Sys σ) (act : Act) : Prop :=
  ∀ fd addr addrlen, act = .call (.bind fd addr addrlen) → BindClean s.net fd addr addrlen

/-- After `unix_socket_init`, above a file system that has been booted. -/
def Sys.StartsUp (s : Sys σ) : Prop := ∃ v : Vfs σ, v.Starts ∧ s = ⟨unixSocketInit v, [], []⟩

/-- Steps that meet a condition, with fewer than `2 ^ 31` nodes ever created. -/
def Sys.StepsWithin (fs : FrameService σ) (cond : Sys σ → Act → Prop) (s s' : Sys σ) : Prop :=
  Sys.StepsIf fs cond s s' ∧ s'.net.vfs.nextInode ≤ 2 ^ 31

section Names

variable {fs : FrameService σ} {n n' : Net σ} {log : List Ev} {r : Int}

theorem SockNames.noneNamed (h : SockNames n) (hk : NoneNamed n n') : SockNames n' := by
  have hback : ∀ k, (n'.socks k).used = true → (n'.socks k).Named →
      (n.socks k).used = true ∧ (n.socks k).Named ∧ (n'.socks k).path = (n.socks k).path := by
    intro k hu hn
    rcases hk.names k hu with ⟨hu₀, hp, hiff⟩ | ⟨_, hno⟩
    · exact ⟨hu₀, hiff.mp hn, hp⟩
    · exact absurd hn hno
  constructor
  · intro k hu hn
    obtain ⟨hu₀, hn₀, hp⟩ := hback k hu hn
    rw [hp]
    exact h.named k hu₀ hn₀
  · intro j k huj hnj huk hnk heq
    obtain ⟨huj₀, hnj₀, hpj⟩ := hback j huj hnj
    obtain ⟨huk₀, hnk₀, hpk⟩ := hback k huk hnk
    exact h.unique j k huj₀ hnj₀ huk₀ hnk₀ (by rw [← hpj, ← hpk, heq])

theorem OnlyNames.noneNamed (h : OnlyNames n) (hk : NoneNamed n n') : OnlyNames n' := by
  intro k hu hne
  rcases hk.names k hu with ⟨hu₀, hp, hiff⟩ | ⟨hp, _⟩
  · exact hiff.mpr (h k hu₀ (by rw [← hp]; exact hne))
  · exact absurd hp hne

/-- A path alone makes no name. -/
theorem SockNames.stored (h : SockNames n) {i : Nat} (hst : (n.socks i).state = .created)
    (path : CStr) :
    SockNames (withPath n i path) := by
  have hself : ¬ ((withPath n i path).socks i).Named := by
    unfold withPath USock.Named
    rw [Net.setSock_self]
    dsimp only
    rw [hst]
    simp
  have hother : ∀ k, k ≠ i → (withPath n i path).socks k = n.socks k := fun k hk =>
    Net.setSock_ne _ hk
  constructor
  · intro k hu hn
    have hk : k ≠ i := by
      rintro rfl
      exact hself hn
    rw [hother k hk] at hu hn ⊢
    exact h.named k hu hn
  · intro j k huj hnj huk hnk heq
    have hj : j ≠ i := by
      rintro rfl
      exact hself hnj
    have hk : k ≠ i := by
      rintro rfl
      exact hself hnk
    rw [hother j hj] at huj hnj heq
    rw [hother k hk] at huk hnk heq
    exact h.unique j k huj hnj huk hnk heq

theorem SockNames.vfs (h : SockNames n) (v : Vfs σ) : SockNames { n with vfs := v } :=
  ⟨h.named, h.unique⟩

/-- **A name that is given is one that no socket has.** -/
theorem SockNames.bind (h : SockNames n) (hp : PeerInv n) {fd : Int} {addr : Option (Nat → UInt8)}
    {addrlen : Nat}
    (hb : unixBind n fd addr addrlen = .done (n', log, r)) : SockNames n' := by
  rcases unixBind_cases hb with ⟨rfl, _, _⟩ | ⟨i, path, ⟨hi, hst, _⟩, he⟩
  · exact h
  · cases he with
    | abstract _ => exact h.stored hst path
    | inUse _ _ => exact h.stored hst path
    | noFile _ _ _ => exact (h.stored hst path).vfs _
    | @bound hopens v tfd _ _ =>
        generalize hm : { withPath n i path with vfs := (vfsClose v tfd).1 } = m
        have hmsocks : m.socks = (withPath n i path).socks := by rw [← hm]
        have hself : ((m.setSock i { (withPath n i path).socks i with state := .bound }).socks
            i).path = path := by
          rw [Net.setSock_self]
          show ((withPath n i path).socks i).path = path
          unfold withPath
          rw [Net.setSock_self]
        have hother : ∀ k, k ≠ i →
            (m.setSock i { (withPath n i path).socks i with state := .bound }).socks k
                = n.socks k := by
          intro k hk
          rw [Net.setSock_ne _ hk, hmsocks]
          exact Net.setSock_ne _ hk
        -- nobody else has the path
        have hnobody : ∀ k, k ≠ i → (n.socks k).used = true → (n.socks k).Named
            → (n.socks k).path ≠ path :=
          fun k hk hu hn heq => hopens.2.2 ⟨k, hp.bound k hu, hu, hk, h.named k hu hn, heq⟩
        constructor
        · intro k hu hn
          by_cases hk : k = i
          · rw [hk, hself]
            exact hopens.1
          · rw [hother k hk] at hu hn ⊢
            exact h.named k hu hn
        · intro j k huj hnj huk hnk heq
          by_cases hj : j = i
          · by_cases hk : k = i
            · rw [hj, hk]
            · rw [hother k hk] at huk hnk heq
              rw [hj, hself] at heq
              exact absurd heq.symm (hnobody k hk huk hnk)
          · rw [hother j hj] at huj hnj heq
            by_cases hk : k = i
            · rw [hk, hself] at heq
              exact absurd heq (hnobody j hj huj hnj)
            · rw [hother k hk] at huk hnk heq
              exact h.unique j k huj hnj huk hnk heq

/-- **A clean bind stores no path in vain.** -/
theorem OnlyNames.bind (h : OnlyNames n) (hT : TreeOk n.vfs) {fd : Int}
    {addr : Option (Nat → UInt8)}
    {addrlen : Nat} (hc : BindClean n fd addr addrlen)
    (hb : unixBind n fd addr addrlen = .done (n', log, r)) : OnlyNames n' := by
  by_cases hr : r < 0
  · have hsocks := ((bindAtomic_iff hT).mpr hc n' log r hb hr).1
    unfold OnlyNames
    rw [hsocks]
    exact h
  · rcases unixBind_cases hb with ⟨rfl, _, _⟩ | ⟨i, path, _, he⟩
    · exact h
    · cases he with
      | abstract _ => exact absurd (by decide) hr
      | inUse _ _ => exact absurd (by decide) hr
      | noFile _ _ _ => exact absurd (by decide) hr
      | bound hopens ho hf =>
          intro k hu hne
          by_cases hk : k = i
          · rw [hk, Net.setSock_self]
            exact Or.inl rfl
          · rw [Net.setSock_ne _ hk] at hu hne ⊢
            have hother : (withPath n i path).socks k = n.socks k := Net.setSock_ne _ hk
            rw [show ({ withPath n i path with vfs := _ } : Net σ).socks k = n.socks k from hother]
              at hu hne ⊢
            exact h k hu hne

end Names

/-- What holds of the sockets and the files in every state. -/
structure BindInv (s : Sys σ) : Prop where
  peers : PeerInv s.net
  tree : TreeOk s.net.vfs
  names : SockNames s.net

section Runs

variable {fs : FrameService σ} {s s' : Sys σ} {cond : Sys σ → Act → Prop}

/-- A step gives no names, or is a bind. -/
theorem sys_noneNamed {input : DevInput} {fuel : Nat} {act : Act} {ans : Option Ans}
    (h : s.step fs input fuel act = .done (s', ans)) (hnum : s'.net.vfs.nextInode ≤ 2 ^ 31) :
    NoneNamed s.net s'.net ∨ ∃ fd addr addrlen log r, act = .call (.bind fd addr addrlen)
      ∧ unixBind s.net fd addr addrlen = .done (s'.net, log, r) := by
  cases act with
  | call op =>
      obtain ⟨⟨n, log, rep⟩, hc, h⟩ := Outcome.bind_eq_done h
      have hnet : s'.net = n := by
        cases rep with
        | ret a => cases h; rfl
        | sleep w => cases h; rfl
      subst hnet
      rcases call_noneNamed hc hnum with hk | ⟨fd, addr, addrlen, r, rfl, hb⟩
      · exact Or.inl hk
      · exact Or.inr ⟨fd, addr, addrlen, log, r, rfl, hb⟩
  | wake k =>
      rw [Sys.step] at h
      split at h
      · cases h; exact Or.inl (.refl _)
      · split at h
        · next hr => cases h; exact Or.inl (resume_noneNamed hr)
        · next hr => cases h; exact Or.inl (resume_noneNamed hr)

/-- The file that a bind opens and closes keeps the tree in shape. -/
theorem unixBind_treeOk {n n' : Net σ} {fd : Int} {addr : Option (Nat → UInt8)} {addrlen : Nat}
    {log : List Ev}
    {r : Int} (hT : TreeOk n.vfs) (h : unixBind n fd addr addrlen = .done (n', log, r))
    (hnum : n'.vfs.nextInode ≤ 2 ^ 31) : TreeOk n'.vfs := by
  have hbefore := hT.2
  have hopened : ∀ {path : CStr} {v : Vfs σ} {tfd : Int},
    vfsOpen n.vfs path bindFlags = .done (v, tfd) →
      TreeInv v := by
    intro path v tfd ho
    obtain ⟨k, v₁, hk, _, hmade, hend⟩ := vfsOpen_cases ho
    have hT₁ := (hT.1.created hmade (by omega)).1
    rcases hend with ⟨rfl, _⟩ | ⟨_, _, _, _, _, _, _, hopen⟩
    · exact hT₁
    · exact hT₁.same hopen.sameTree
  rcases unixBind_cases h with ⟨rfl, _, _⟩ | ⟨i, path, _, he⟩
  · exact hT
  · cases he with
    | abstract _ => exact hT
    | inUse _ _ => exact hT
    | noFile _ ho _ => exact ⟨hopened ho, hnum⟩
    | @bound _ v tfd ho _ => exact ⟨(hopened ho).same (vfsClose_moves v tfd).sameTree, hnum⟩

theorem BindInv.step (h : BindInv s) (hstep : Sys.StepsWithin fs cond s s') : BindInv s' := by
  obtain ⟨⟨input, fuel, act, ans, _, hs⟩, hnum⟩ := hstep
  obtain ⟨log, _, hl⟩ := step_logged h.peers.created hs
  refine ⟨hl.peerInv h.peers, ?_, ?_⟩
  · rcases sys_noneNamed hs hnum with hk | ⟨fd, addr, addrlen, _, r, _, hb⟩
    · exact hk.tree h.tree
    · exact unixBind_treeOk h.tree hb hnum
  · rcases sys_noneNamed hs hnum with hk | ⟨fd, addr, addrlen, _, r, _, hb⟩
    · exact h.names.noneNamed hk
    · exact h.names.bind h.peers hb

theorem bindInv_reach (h : Reach Sys.StartsUp (Sys.StepsWithin fs cond) s) : BindInv s := by
  refine h.invariant ?_ fun _ _ hinv hstep => hinv.step hstep
  rintro s ⟨v, hv, rfl⟩
  have hunused : ∀ k, ¬ ((unixSocketInit v).socks k).used = true := fun k => by
    simp [unixSocketInit, USock.zero]
  exact ⟨peerInv_init v, treeOk_start hv, fun k hu => absurd hu (hunused k),
    fun j _ hu => absurd hu (hunused j)⟩

/-- In a run of clean binds, only names are stored. -/
theorem onlyNames_reach (h : Reach Sys.StartsUp (Sys.StepsWithin fs Sys.BindsCleanly) s) :
    OnlyNames s.net := by
  refine (h.invariant (P := fun s => BindInv s ∧ OnlyNames s.net) ?_ ?_).2
  · rintro s ⟨v, hv, rfl⟩
    have hstart : Reach Sys.StartsUp (Sys.StepsWithin fs Sys.BindsCleanly)
        ⟨unixSocketInit v, [], []⟩ :=
      .start ⟨v, hv, rfl⟩
    refine ⟨bindInv_reach hstart, fun k hu => ?_⟩
    simp [unixSocketInit, USock.zero] at hu
  · rintro s s' ⟨hinv, honly⟩ hstep
    refine ⟨hinv.step hstep, ?_⟩
    obtain ⟨⟨input, fuel, act, ans, hclean, hs⟩, hnum⟩ := hstep
    rcases sys_noneNamed hs hnum with hk | ⟨fd, addr, addrlen, log, r, hact, hb⟩
    · exact honly.noneNamed hk
    · exact honly.bind hinv.tree (hclean fd addr addrlen hact) hb

end Runs

/-- **Binding is atomic** exactly where it is clean. No two sockets ever have the same name; and in
a run of clean binds a path is refused only while it exists, or is some socket's name. -/
theorem Sys.bind_atomic_iff {fs : FrameService σ} {s : Sys σ}
    (h : Reach Sys.StartsUp (Sys.StepsWithin fs fun _ _ => True) s) :
    (∀ fd addr addrlen, BindAtomic s.net fd addr addrlen ↔ BindClean s.net fd addr addrlen)
      ∧ (∀ j k, (s.net.socks j).used = true → (s.net.socks j).Named → (s.net.socks k).used = true →
        (s.net.socks k).Named → (s.net.socks j).path = (s.net.socks k).path → j = k)
      ∧ (Reach Sys.StartsUp (Sys.StepsWithin fs Sys.BindsCleanly) s → ∀ fd addr addrlen n' log,
        unixBind s.net fd addr addrlen = .done (n', log, -eaddrinuse) →
          ∃ path, checkAddr addr addrlen = some path ∧ (0 ≤ vfsResolve s.net.vfs path
            ∨ ∃ k, (s.net.socks k).used = true ∧ (s.net.socks k).Named ∧ (s.net.socks k).path = path)) := by
  have hinv := bindInv_reach h
  refine ⟨fun _ _ _ => bindAtomic_iff hinv.tree, hinv.names.unique,
    fun hc fd addr addrlen n' log hb => ?_⟩
  have honly := onlyNames_reach hc
  generalize hr : -eaddrinuse = r at hb
  rcases unixBind_cases hb with ⟨_, herr, _⟩ | ⟨i, path, ⟨_, _, haddr⟩, he⟩
  · rcases herr with herr | herr
    · rw [← hr] at herr
      exact absurd herr (by decide)
    · rw [← hr] at herr
      exact absurd herr (by decide)
  · refine ⟨path, haddr, ?_⟩
    cases he with
    | abstract _ => exact absurd hr (by decide)
    | noFile _ _ _ => exact absurd hr (by decide)
    | bound _ _ _ => exact absurd hr (by decide)
    | inUse _ hu =>
        rcases hu with hu | ⟨k, _, hk, _, hne, heq⟩
        · exact Or.inl hu
        · exact Or.inr ⟨k, hk, honly k hk hne, heq⟩

theorem bootSys_startsUp : bootSys.StartsUp := ⟨bootVfs, bootVfs_starts, rfl⟩

/-- Calls in a row, as long as numbers last. -/
def Sys.callsWithin (fs : FrameService σ) (input : DevInput) (fuel : Nat) : List SockOp → Sys σ → Outcome (Sys σ)
  | [], s => .done s
  | op :: ops, s => do
      let (s, _) ← s.step fs input fuel (.call op)
      if s.net.vfs.nextInode ≤ 2 ^ 31 then s.callsWithin fs input fuel ops else .timeout

theorem reach_callsWithin {fs : FrameService σ} {input : DevInput} {fuel : Nat} :
    ∀ {ops : List SockOp} {s s' : Sys σ},
      Reach Sys.StartsUp (Sys.StepsWithin fs fun _ _ => True) s →
      s.callsWithin fs input fuel ops = .done s'
        → Reach Sys.StartsUp (Sys.StepsWithin fs fun _ _ => True) s'
  | [], s, s', hr, h => by
      cases h
      exact hr
  | op :: ops, s, s', hr, h => by
      obtain ⟨⟨s₁, ans⟩, hs, h⟩ := Outcome.bind_eq_done h
      dsimp only at h
      split at h
      · next hnum => exact reach_callsWithin (.next hr ⟨⟨input, fuel, .call op, ans, trivial, hs⟩, hnum⟩) h
      · cases h

/-- A `sockaddr_un` with this path. -/
def sunPath (path : CStr) : Option (Nat → UInt8) := some fun k => ([1, 0] ++ path).getD k 0

/-- After a clean bind the second socket is refused the name: that bind is not clean, and not
atomic. It may have another name, and the first socket is refused at once. -/
theorem Sys.bind_atomic_refused : ∃ s : Sys Nat,
    Reach Sys.StartsUp (Sys.StepsWithin zeroedService Sys.BindsCleanly) s
      ∧ ¬ BindAtomic s.net 129 (sunPath (cstr "/tmp/s")) 8
      ∧ BindAtomic s.net 128 (sunPath (cstr "/tmp/t")) 8 ∧ BindClean s.net 129 (sunPath (cstr "/tmp/t")) 8
      ∧ (∃ n' log, unixBind s.net 129 (sunPath (cstr "/tmp/s")) 8 = .done (n', log, -eaddrinuse))
      ∧ (0 ≤ vfsResolve s.net.vfs (cstr "/tmp/s")
        ∨ ∃ k, (s.net.socks k).used = true ∧ (s.net.socks k).Named ∧ (s.net.socks k).path = cstr "/tmp/s") := by
  have hrun : (do
      let (s₁, _) ← bootSys.step zeroedService noInput 0 (.call (.socket 1 1))
      let (s₂, a₂) ← s₁.step zeroedService noInput 0 (.call (.bind 128 (sunPath (cstr "/tmp/s")) 8))
      let (s, _) ← s₂.step zeroedService noInput 0 (.call (.socket 1 1))
      let (_, _, r₁) ← unixBind s₁.net 128 (sunPath (cstr "/tmp/s")) 8
      let (n', _, r) ← unixBind s.net 129 (sunPath (cstr "/tmp/s")) 8
      let (_, _, r') ← unixBind s.net 129 (sunPath (cstr "/tmp/t")) 8
      return decide (s₁.net.vfs.nextInode ≤ 2 ^ 31 ∧ s₂.net.vfs.nextInode ≤ 2 ^ 31
        ∧ s.net.vfs.nextInode ≤ 2 ^ 31 ∧ r₁ = 0 ∧ r' = 0 ∧ r = -eaddrinuse
        ∧ (n'.socks 1).path ≠ (s.net.socks 1).path ∧ (s.net.socks 0).state = SkState.bound))
            = .done true := by
    decide +kernel
  obtain ⟨⟨s₁, a₁⟩, h₁, hrun⟩ := Outcome.bind_eq_done hrun
  obtain ⟨⟨s₂, a₂⟩, h₂, hrun⟩ := Outcome.bind_eq_done hrun
  obtain ⟨⟨s, a₃⟩, h₃, hrun⟩ := Outcome.bind_eq_done hrun
  obtain ⟨⟨_, _, r₁⟩, hb₁, hrun⟩ := Outcome.bind_eq_done hrun
  obtain ⟨⟨n', log, r⟩, hb, hrun⟩ := Outcome.bind_eq_done hrun
  obtain ⟨⟨_, _, r'⟩, hb', hd⟩ := Outcome.bind_eq_done hrun
  obtain ⟨hn₁, hn₂, hn, hr₁, hr', hr, hpath, hstate⟩ := of_decide_eq_true (Outcome.done.inj hd)
  subst hr₁ hr' hr
  -- a bind that succeeds is atomic, hence clean
  have hclean : ∀ {t : Sys Nat} {fd addrlen} {addr : Option (Nat → UInt8)} {m l},
      BindInv t → unixBind t.net fd addr addrlen = .done (m, l, 0) →
        BindClean t.net fd addr addrlen := by
    intro t fd addrlen addr m l ht hdone
    refine (bindAtomic_iff ht.tree).mp fun m' l' r hdone' hneg => ?_
    rw [hdone] at hdone'
    cases hdone'
    exact absurd hneg (by decide)
  have hreach₁ : Reach Sys.StartsUp (Sys.StepsWithin zeroedService Sys.BindsCleanly) s₁ :=
    .next (.start bootSys_startsUp)
      ⟨⟨noInput, 0, .call (.socket 1 1), a₁, fun _ _ _ he => (by cases he), h₁⟩, hn₁⟩
  have hreach₂ : Reach Sys.StartsUp (Sys.StepsWithin zeroedService Sys.BindsCleanly) s₂ := by
    refine .next hreach₁ ⟨⟨noInput, 0, .call (.bind 128 (sunPath (cstr "/tmp/s")) 8), a₂,
      fun fd addr addrlen he => ?_, h₂⟩, hn₂⟩
    cases he
    exact hclean (bindInv_reach hreach₁) hb₁
  have hreach : Reach Sys.StartsUp (Sys.StepsWithin zeroedService Sys.BindsCleanly) s :=
    .next hreach₂ ⟨⟨noInput, 0, .call (.socket 1 1), a₃, fun _ _ _ he => (by cases he), h₃⟩, hn⟩
  have hany : Reach Sys.StartsUp (Sys.StepsWithin zeroedService fun _ _ => True) s :=
    hreach.mono fun _ _ hstep => ⟨hstep.1.elim fun i h => h.elim fun f h => h.elim fun act h =>
      h.elim fun ans h => ⟨i, f, act, ans, trivial, h.2⟩, hstep.2⟩
  obtain ⟨hiff, _, honly⟩ := Sys.bind_atomic_iff hany
  refine ⟨s, hreach, fun hatomic => ?_, (hiff _ _ _).mpr fun i path hstore => ?_, ?_, ⟨n', log, hb⟩,
    ?_⟩
  · exact hpath (congrArg (fun socks => (socks 1).path) (hatomic n' log _ hb (by decide)).1)
  · -- the first socket has a name, so the call stops before it copies the path
    have hfd : (128 : Int) = unixSockFdBase + i := (sockOf_some hstore.1).2.1
    have hi : i = 0 := by
      unfold unixSockFdBase at hfd
      omega
    have hcreated := hstore.2.1
    rw [hi, hstate] at hcreated
    exact absurd hcreated (by decide)
  · exact hclean (bindInv_reach hany) hb'
  · obtain ⟨path, hcheck, htaken⟩ := honly hreach _ _ _ _ _ hb
    rw [show checkAddr (sunPath (cstr "/tmp/s")) 8 = some (cstr "/tmp/s") by decide +kernel]
      at hcheck
    cases hcheck
    exact htaken

/-- A socket is refused the name of another, which then closes, and its slot is used again. -/
def refusedThenClosed : List SockOp :=
  [.socket 1 1, .socket 1 1, .bind 128 (sunPath (cstr "/tmp/s")) 8, .bind 129 (sunPath (cstr "/tmp/s")) 8,
    .close 128, .socket 1 1]

/-- Nothing is at the path and no socket is bound, but the path is refused, and stored once more. -/
theorem Sys.bind_refused_unowned : ∃ s : Sys Nat,
    Reach Sys.StartsUp (Sys.StepsWithin zeroedService fun _ _ => True) s
      ∧ vfsResolve s.net.vfs (cstr "/tmp/s") < 0 ∧ (∀ k, (s.net.socks k).used = true → ¬ (s.net.socks k).Named)
      ∧ (∃ n' log, unixBind s.net 128 (sunPath (cstr "/tmp/s")) 8 = .done (n', log, -eaddrinuse))
      ∧ ¬ BindAtomic s.net 128 (sunPath (cstr "/tmp/s")) 8 := by
  have hrun : (do
      let s ← bootSys.callsWithin zeroedService noInput 0 refusedThenClosed
      let (n', _, r) ← unixBind s.net 128 (sunPath (cstr "/tmp/s")) 8
      return decide (vfsResolve s.net.vfs (cstr "/tmp/s") < 0
        ∧ (∀ k < unixSockMax, (s.net.socks k).used = true →
          (s.net.socks k).state ≠ SkState.bound ∧ (s.net.socks k).state ≠ SkState.listening)
        ∧ r = -eaddrinuse ∧ (n'.socks 0).path ≠ (s.net.socks 0).path)) = .done true := by
    decide +kernel
  obtain ⟨s, hs, hrun⟩ := Outcome.bind_eq_done hrun
  obtain ⟨⟨n', log, r⟩, hb, hd⟩ := Outcome.bind_eq_done hrun
  obtain ⟨hres, hnone, hr, hpath⟩ := of_decide_eq_true (Outcome.done.inj hd)
  subst hr
  have hreach := reach_callsWithin (.start bootSys_startsUp) hs
  refine ⟨s, hreach, hres, fun k hu hn => ?_, ⟨n', log, hb⟩, fun hatomic => ?_⟩
  · obtain ⟨hbound, hlistening⟩ := hnone k ((bindInv_reach hreach).peers.bound k hu) hu
    rcases hn with hn | hn
    · exact hbound hn
    · exact hlistening hn
  · exact hpath (congrArg (fun socks => (socks 0).path) (hatomic n' log _ hb (by decide)).1)

end VnlKernel
