import VnlKernel.Kernel.Epoll
import VnlKernel.Proof.SockFiles

/-!
# What `sys_epoll_wait` reports

Interest lists and the tables of descriptors know nothing of each other: no call updates
both. An entry is a number, and what it says about the socket it was added for is
true as long as the number still denotes that socket.

Beside each entry the run keeps which socket the number denoted when it was added, as a
generation of its slot. Nothing else has to be remembered: a wait looks everything up
afresh, so the events it reports are those of the moment.
-/

namespace VnlKernel

open Run

variable {σ : Type}

/-! ## Runs -/

/-- The socket a number denotes, by the generation of its slot. -/
def Sys.denotes (s : Sys σ) (fd : Int) : Option Nat := (sockOf s.net fd).map (gen s.hist)

/-- The number is a socket or an open file. -/
def Sys.isOpen (s : Sys σ) (fd : Int) : Bool := unixIsSockfd s.net fd || fdOpen s.net.vfs fd

/-- The instance has an entry for the number. -/
def EpollInstance.Has (ep : EpollInstance) (fd : Int) : Prop := ∃ i, i < ep.count ∧ (ep.fds i).fd = fd

structure EpSys (σ : Type) where
  sys : Sys σ
  epolls : Epolls
  /-- The waits that are asleep. -/
  waiting : List EpollWait
  /-- What the numbers in each instance denoted when they were added. -/
  added : Nat → Int → Option Nat

/-- An event, the entry it is reported for, and the instance that entry is in. -/
structure EpReport where
  idx : Nat
  entry : EpollEventEntry
  event : EpollEvent

inductive EpAct where
  /-- Anything the socket layer does. -/
  | net (act : Act)
  | create
  | ctl (epfd op fd : Int) (ev : EpollEvent)
  | wait (epfd maxevents timeout : Int)
  /-- A wait that is asleep looks again. -/
  | look (k : Nat)

namespace EpSys

def note (s : EpSys σ) (idx : Nat) (fd : Int) : Nat → Int → Option Nat :=
  fun idx' fd' => if idx' = idx ∧ fd' = fd then s.sys.denotes fd else s.added idx' fd'

def reports (idx : Nat) (out : List (EpollEventEntry × EpollEvent)) : List EpReport :=
  out.map fun x => ⟨idx, x.1, x.2⟩

/-- The system afterwards, and what a wait that returns has reported. -/
def step (fs : FrameService σ) (input : DevInput) (fuel : Nat) (s : EpSys σ) :
    EpAct → Outcome (EpSys σ × List EpReport)
  | .net act => do
      let (sys, _) ← s.sys.step fs input fuel act
      return ({ s with sys := sys }, [])
  | .create => .done ({ s with epolls := (sysEpollCreate1 s.epolls).1 }, [])
  | .ctl epfd op fd ev =>
      let (eps, r) := sysEpollCtl s.epolls epfd op fd ev
      .done ({ s with
        epolls := eps
        added := if op = 1 ∧ r = 0 then s.note (epfd - epollFdBase).toNat fd else s.added }, [])
  | .wait epfd maxevents timeout =>
      match sysEpollWait s.sys.net s.epolls epfd maxevents timeout with
      | .ret _ out => .done (s, reports (epfd - epollFdBase).toNat out)
      | .sleep w => .done ({ s with waiting := s.waiting ++ [w] }, [])
  | .look k =>
      match s.waiting[k]? with
      | none => .done (s, [])
      | some w =>
          match epollTurn s.sys.net s.epolls w with
          | .ret _ out => .done ({ s with waiting := s.waiting.eraseIdx k }, reports w.idx out)
          | .sleep w => .done ({ s with waiting := s.waiting.set k w }, [])

/-- No instance, and no socket. -/
inductive Boots : EpSys σ → Prop
  | boot {s : Sys σ} (h : s.Boots) : Boots ⟨s, fun _ => .zero, [], fun _ _ => none⟩

def StepsIf (fs : FrameService σ) (cond : EpSys σ → EpAct → Prop) (s s' : EpSys σ) : Prop :=
  ∃ input fuel act out, cond s act ∧ s.step fs input fuel act = .done (s', out)

/-- The number in an entry is open, and denotes what it did when it was added. -/
def Alive (s : EpSys σ) (idx : Nat) (fd : Int) : Prop :=
  s.sys.isOpen fd = true ∧ s.sys.denotes fd = s.added idx fd

/-- Some instance has the number. -/
def Registered (s : EpSys σ) (fd : Int) : Prop := ∃ idx, (s.epolls idx).Has fd

end EpSys

/-- The step closes what the number denotes. -/
def Act.shuts (n : Net σ) (fd : Int) (act : Act) : Prop :=
  if unixIsSockfd n fd then act = .call (.close fd) else fd ∈ act.drops n

/-- **Only what is open is added, and nothing is closed while an instance has it.** -/
def EpSys.Tidy (s : EpSys σ) : EpAct → Prop
  | .net act => ∀ fd, s.Registered fd → ¬ act.shuts s.sys.net fd
  | .ctl epfd op fd _ => op = 1 → ∀ idx, epollOf s.epolls epfd = some idx →
      (s.epolls idx).count < maxEpollFds → s.sys.isOpen fd = true
  | _ => True

/-! ## Entries -/

section Entries

theorem epollOf_some {eps : Epolls} {epfd : Int} {idx : Nat} (h : epollOf eps epfd = some idx) :
    idx = (epfd - epollFdBase).toNat := by
  unfold epollOf at h
  dsimp only at h
  split at h
  · cases h
  · cases h; rfl

@[simp] theorem Epolls.set_self (eps : Epolls) (idx : Nat) (ep : EpollInstance) :
    eps.set idx ep idx = ep :=
  if_pos rfl

theorem Epolls.set_ne {eps : Epolls} {idx k : Nat} {ep : EpollInstance} (h : k ≠ idx) :
    eps.set idx ep k = eps k := if_neg h

theorem EpollInstance.find_none {ep : EpollInstance} {fd : Int} (h : ep.find fd = none) :
    ¬ ep.Has fd := by
  rintro ⟨i, hi, hfd⟩
  have := Scan.first_none h i (Nat.zero_le _) (by omega)
  exact absurd hfd (by simpa using this)

/-- Taking an entry out adds none. -/
theorem EpollInstance.has_remove {ep : EpollInstance} {i : Nat} {fd : Int}
    (h : (ep.remove i).Has fd) :
    ep.Has fd := by
  obtain ⟨j, hj, hfd⟩ := h
  dsimp only [EpollInstance.remove] at hj hfd
  split at hfd
  · exact ⟨j + 1, by omega, hfd⟩
  · exact ⟨j, by omega, hfd⟩

theorem EpollInstance.has_modify {ep : EpollInstance} {i : Nat} {ev : EpollEvent} {fd : Int}
    (h : (ep.setEntry i { ep.fds i with event := ev }).Has fd) : ep.Has fd := by
  obtain ⟨j, hj, hfd⟩ := h
  dsimp only [EpollInstance.setEntry] at hj hfd
  refine ⟨j, hj, ?_⟩
  split at hfd
  · next hji => rw [hji]; exact hfd
  · exact hfd

theorem EpollInstance.has_add {ep : EpollInstance} {fd f : Int} {ev : EpollEvent}
    (h : EpollInstance.Has { ep.setEntry ep.count ⟨fd, ev⟩ with count := ep.count + 1 } f) :
    ep.Has f ∨ f = fd := by
  obtain ⟨j, hj, hfd⟩ := h
  dsimp only [EpollInstance.setEntry] at hj hfd
  split at hfd
  · exact Or.inr hfd.symm
  · exact Or.inl ⟨j, by omega, hfd⟩

/-- One instance is rewritten, with entries it had. -/
theorem Epolls.has_set {eps : Epolls} {idx k : Nat} {ep : EpollInstance} {f : Int}
    (hep : ep.Has f → (eps idx).Has f) (h : (eps.set idx ep k).Has f) : (eps k).Has f := by
  by_cases hk : k = idx
  · rw [hk, Epolls.set_self] at h
    rw [hk]
    exact hep h
  · rwa [Epolls.set_ne hk] at h

/-- **What `sys_epoll_ctl` does to the numbers in the lists**: they are those there were, and the
one that was added. -/
theorem sysEpollCtl_has {eps eps' : Epolls} {epfd op fd : Int} {ev : EpollEvent} {r : Int}
    (h : sysEpollCtl eps epfd op fd ev = (eps', r)) {idx : Nat} {f : Int} (hf : (eps' idx).Has f) :
    ((eps idx).Has f ∧ ¬ (op = 1 ∧ r = 0 ∧ idx = (epfd - epollFdBase).toNat ∧ f = fd))
      ∨ (op = 1 ∧ r = 0 ∧ epollOf eps epfd = some idx ∧ (eps idx).count < maxEpollFds
        ∧ f = fd) := by
  unfold sysEpollCtl at h
  split at h
  · cases h
    exact Or.inl ⟨hf, fun h => absurd h.2.1 (by decide)⟩
  · next i hi =>
    dsimp only at h
    split at h
    · next hop =>
      refine Or.inl ⟨?_, fun h => absurd h.1 (by omega)⟩
      split at h
      · cases h; exact Epolls.has_set EpollInstance.has_remove hf
      · cases h; exact hf
    · split at h
      · next hop =>
        split at h
        · cases h
          exact Or.inl ⟨hf, fun h => absurd h.2.1 (by decide)⟩
        · next hcount =>
          split at h
          · cases h
            exact Or.inl ⟨hf, fun h => absurd h.2.1 (by decide)⟩
          · next hnone =>
            cases h
            by_cases hidx : idx = i
            · subst hidx
              rw [Epolls.set_self] at hf
              rcases EpollInstance.has_add hf with hold | rfl
              · refine Or.inl ⟨hold, fun h => EpollInstance.find_none hnone ?_⟩
                rw [← h.2.2.2]
                exact hold
              · exact Or.inr ⟨hop, rfl, hi, by omega, rfl⟩
            · rw [Epolls.set_ne hidx] at hf
              exact Or.inl ⟨hf, fun h => hidx (h.2.2.1.trans (epollOf_some hi).symm)⟩
      · next hop =>
        refine Or.inl ⟨?_, fun h => hop h.1⟩
        split at h
        · split at h
          · cases h; exact Epolls.has_set EpollInstance.has_modify hf
          · cases h; exact hf
        · cases h; exact hf

theorem sysEpollCreate1_has {eps : Epolls} {idx : Nat} {f : Int}
    (hf : ((sysEpollCreate1 eps).1 idx).Has f) : (eps idx).Has f := by
  unfold sysEpollCreate1 epollAlloc at hf
  cases hfree : Scan.first (fun i => !(eps i).used) maxEpolls 0 with
  | none =>
      rw [hfree] at hf
      exact hf
  | some i =>
      rw [hfree] at hf
      refine Epolls.has_set (fun h => ?_) hf
      obtain ⟨j, hj, _⟩ := h
      exact absurd hj (Nat.not_lt_zero j)

end Entries

/-! ## The invariant -/

section Alive

variable {fs : FrameService σ}

/-- What a step does not close stays open, and stays what it is. -/
theorem step_same_number {input : DevInput} {fuel : Nat} {s s' : Sys σ} {act : Act}
    {ans : Option Ans}
    {fd : Int} (hp : PeerInv s.net) (h : s.step fs input fuel act = .done (s', ans))
    (ho : s.isOpen fd = true) (hsh : ¬ act.shuts s.net fd) :
    s'.isOpen fd = true ∧ s'.denotes fd = s.denotes fd := by
  unfold Act.shuts at hsh
  split at hsh
  · next hsock =>
    obtain ⟨i, hi⟩ := Option.isSome_iff_exists.mp hsock
    obtain ⟨hlt, hfd, hu⟩ := sockOf_some hi
    obtain ⟨hu', hgen⟩ := step_same_socket hp h hu fun fd' hact hfd' => by
      rw [hact, (sockOf_some hfd').2.1, ← hfd] at hsh
      exact hsh rfl
    have hi' : sockOf s'.net fd = some i := by rw [hfd]; exact sockOf_fdOf hlt hu'
    refine ⟨?_, ?_⟩
    · simp [Sys.isOpen, unixIsSockfd, hi']
    · simp [Sys.denotes, hi, hi', hgen]
  · next hsock =>
    have hfile : fdOpen s.net.vfs fd = true := by
      rw [Sys.isOpen, Bool.or_eq_true] at ho
      exact ho.resolve_left hsock
    obtain ⟨h0, hlt, hk⟩ := fdOpen_iff.mp hfile
    have hnum : ((fd.toNat : Nat) : Int) = fd := Int.toNat_of_nonneg h0
    have hopen := sys_stillOpen h hk (by rw [hnum]; exact hsh)
    -- file descriptors are below the numbers of sockets
    have hno : ∀ n : Net σ, sockOf n fd = none := fun n => by
      have hidx : idxFromFd fd = none := if_pos (Or.inl (Int.lt_trans hlt (by decide)))
      simp [sockOf, hidx]
    refine ⟨?_, ?_⟩
    · rw [Sys.isOpen, fdOpen_iff.mpr ⟨h0, hlt, hopen⟩, Bool.or_true]
    · rw [Sys.denotes, Sys.denotes, hno, hno]
      rfl

/-- Every number in an instance is open and denotes what it was added for. -/
structure EpSys.Inv (s : EpSys σ) : Prop where
  peers : PeerInv s.sys.net
  alive : ∀ idx fd, (s.epolls idx).Has fd → s.Alive idx fd

theorem EpSys.Inv.step {s s' : EpSys σ} {input : DevInput} {fuel : Nat} {act : EpAct}
    {out : List EpReport}
    (hi : s.Inv) (ht : s.Tidy act) (h : s.step fs input fuel act = .done (s', out)) : s'.Inv := by
  cases act with
  | net act =>
      obtain ⟨⟨sys, ans⟩, hs, h⟩ := Outcome.bind_eq_done h
      cases h
      obtain ⟨log, _, hl⟩ := step_logged hi.peers.created hs
      refine ⟨hl.peerInv hi.peers, fun idx fd hf => ?_⟩
      obtain ⟨ho, hd⟩ := hi.alive idx fd hf
      obtain ⟨ho', hd'⟩ := step_same_number hi.peers hs ho (ht fd ⟨idx, hf⟩)
      exact ⟨ho', hd'.trans hd⟩
  | create =>
      cases h
      exact ⟨hi.peers, fun idx fd hf => hi.alive idx fd (sysEpollCreate1_has hf)⟩
  | ctl epfd op fd ev =>
      rw [EpSys.step] at h
      generalize hctl : sysEpollCtl s.epolls epfd op fd ev = x at h
      obtain ⟨eps, r⟩ := x
      cases h
      refine ⟨hi.peers, fun idx f hf => ?_⟩
      rcases sysEpollCtl_has hctl hf with ⟨hold, hother⟩ | ⟨hop, hr, hidx, hcount, rfl⟩
      · -- an entry there was: its note is not written
        obtain ⟨ho, hd⟩ := hi.alive idx f hold
        refine ⟨ho, hd.trans ?_⟩
        dsimp only
        split
        · next hadd => exact (if_neg fun hk => hother ⟨hadd.1, hadd.2, hk.1, hk.2⟩).symm
        · rfl
      · refine ⟨ht hop idx hidx hcount, ?_⟩
        dsimp only
        rw [if_pos ⟨hop, hr⟩]
        exact (if_pos ⟨epollOf_some hidx, rfl⟩).symm
  | wait epfd maxevents timeout =>
      rw [EpSys.step] at h
      split at h
      · cases h; exact hi
      · cases h; exact ⟨hi.peers, hi.alive⟩
  | look k =>
      rw [EpSys.step] at h
      split at h
      · cases h; exact hi
      · split at h
        · cases h; exact ⟨hi.peers, hi.alive⟩
        · cases h; exact ⟨hi.peers, hi.alive⟩

theorem EpSys.inv_reach {s : EpSys σ} (h : Reach EpSys.Boots (EpSys.StepsIf fs EpSys.Tidy) s) :
    s.Inv := by
  refine h.invariant (fun s h0 => ?_) fun s s' hi hs => ?_
  · obtain ⟨h0⟩ := h0
    obtain ⟨v, rfl⟩ := h0
    refine ⟨peerInv_init v, fun idx fd hf => ?_⟩
    obtain ⟨i, hi, _⟩ := hf
    exact absurd hi (Nat.not_lt_zero i)
  · obtain ⟨input, fuel, act, out, ht, hs⟩ := hs
    exact hi.step ht hs

end Alive

/-- Several steps in a row, and what the last one has reported. -/
def EpSys.run (fs : FrameService σ) : EpSys σ → List EpReport → List EpAct →
    Outcome (EpSys σ × List EpReport)
  | s, out, [] => .done (s, out)
  | s, _, act :: acts => do
      let (s, out) ← s.step fs noInput 0 act
      s.run fs out acts

theorem EpSys.run_reach {fs : FrameService σ} : ∀ {acts : List EpAct} {s s' : EpSys σ}
    {out out' : List EpReport}, Reach EpSys.Boots (EpSys.StepsIf fs fun _ _ => True) s →
    s.run fs out acts = .done (s', out') → Reach EpSys.Boots (EpSys.StepsIf fs fun _ _ => True) s'
  | [], s, s', out, out', hr, h => by
      cases h
      exact hr
  | act :: acts, s, s', out, out', hr, h => by
      obtain ⟨⟨s₁, out₁⟩, h₁, h⟩ := Outcome.bind_eq_done h
      exact EpSys.run_reach (hr.next ⟨noInput, 0, act, out₁, trivial, h₁⟩) h

end VnlKernel
