import VnlKernel.Net.UnSocket
import VnlKernel.Proof.VfsSteps

/-!
# What a call on sockets can do

Every call is a few edits of the table in a row, and its log says which. `Edit` is the
list of edits, each with all it may be assumed to do; one lemma for each call says
which of them it makes. What later modules prove about runs they prove for one edit.

Edits that no log mentions change nothing a socket's user can see of another: a slot
that is not in use, or the name, flags and state of one that is not connected.
-/

namespace VnlKernel

open Run

variable {σ : Type}

/-! ## The table -/

section Table

variable {n : Net σ} {i j : Nat}

@[simp] theorem Net.setSock_self (s : USock) : (n.setSock i s).socks i = s := if_pos rfl

theorem Net.setSock_ne (s : USock) (h : j ≠ i) : (n.setSock i s).socks j = n.socks j := if_neg h

/-- A slot in use is not a free one. -/
theorem Net.used_ne (hi : (n.socks i).used = true) (hj : (n.socks j).used = false) : i ≠ j := by
  rintro rfl
  rw [hj] at hi
  exact absurd hi (by decide)

/-- A listening socket is not one that was just created. -/
theorem Net.listening_ne (hi : (n.socks i).state = .listening) (hj : (n.socks j).state = .created) :
    i ≠ j := by
  rintro rfl
  rw [hj] at hi
  exact absurd hi (by decide)

@[simp] theorem Net.setSock_vfs (s : USock) : (n.setSock i s).vfs = n.vfs := rfl

@[simp] theorem Net.setSock_setSock (s s' : USock) : (n.setSock i s).setSock i s'
    = n.setSock i s' := by
  unfold Net.setSock
  congr 1
  funext k
  dsimp only
  split
  · rfl
  · rfl

theorem Net.setSock_eta : n.setSock i (n.socks i) = n := by
  unfold Net.setSock
  cases n with
  | mk socks vfs =>
      congr 1
      funext k
      dsimp only
      split
      · next h => rw [h]
      · rfl

theorem Net.setSock_comm (s s' : USock) (h : i ≠ j) :
    (n.setSock i s).setSock j s' = (n.setSock j s').setSock i s := by
  unfold Net.setSock
  congr 1
  funext k
  dsimp only
  by_cases h1 : k = j
  · rw [if_pos h1, if_neg (by omega), if_pos h1]
  · rw [if_neg h1, if_neg h1]

theorem fdOf_bounds (i : Nat) : unixSockFdBase ≤ fdOf i := by
  unfold fdOf
  omega

theorem idxFromFd_some {fd : Int} (h : idxFromFd fd = some i) : i < unixSockMax ∧ fd = fdOf i := by
  unfold idxFromFd at h
  split at h
  · exact absurd h (by simp)
  · next hr =>
    cases h
    unfold fdOf
    omega

theorem idxFromFd_fdOf (h : i < unixSockMax) : idxFromFd (fdOf i) = some i := by
  unfold idxFromFd fdOf
  rw [if_neg (by omega)]
  congr 1
  omega

theorem sockOf_some {fd : Int} (h : sockOf n fd = some i) :
    i < unixSockMax ∧ fd = fdOf i ∧ (n.socks i).used = true := by
  unfold sockOf at h
  split at h
  · exact absurd h (by simp)
  · next k hk =>
    split at h
    · next hu =>
      cases h
      exact ⟨(idxFromFd_some hk).1, (idxFromFd_some hk).2, hu⟩
    · exact absurd h (by simp)

theorem sockOf_fdOf (hi : i < unixSockMax) (hu : (n.socks i).used = true) :
    sockOf n (fdOf i) = some i := by
  unfold sockOf
  rw [idxFromFd_fdOf hi]
  exact if_pos hu

theorem freeSlot_some (h : freeSlot n = some i) : i < unixSockMax ∧ (n.socks i).used = false := by
  obtain ⟨hp, _, hlt, _⟩ := Scan.first_some h
  exact ⟨by omega, by simpa using hp⟩

theorem allocSlot_some {n' : Net σ} (h : allocSlot n = some (n', i)) :
    i < unixSockMax ∧ (n.socks i).used = false ∧ n' = n.setSock i .fresh := by
  unfold allocSlot at h
  split at h
  · exact absurd h (by simp)
  · next k hk =>
    cases h
    exact ⟨(freeSlot_some hk).1, (freeSlot_some hk).2, rfl⟩

end Table

/-! ## Edits -/

/-- What may be left in a slot that is not in use. -/
structure Scrap (s : USock) : Prop where
  used : s.used = false
  rx : s.rx.toList = []
  fds : s.fdsRx.toList = []
  wait : s.nWait = 0
  /-- Only a slot that says it is connected, or one of zeros, names a peer. -/
  peer : s.state ≠ .connected → s.state ≠ .unused → s.peerIdx = peerNone

/-- The name, flags and state have changed, and the state only on its way to listening. -/
structure Touched (s s' : USock) : Prop where
  used : s'.used = s.used
  rx : s'.rx = s.rx
  peer : s'.peerIdx = s.peerIdx
  queue : s'.listenQ = s.listenQ
  wait : s'.nWait = s.nWait
  fds : s'.fdsRx = s.fdsRx
  state : s'.state = s.state ∨ (s.state = .created ∧ s'.state = .bound)
    ∨ (s.state = .bound ∧ s'.state = .listening)

/-- A slot in use is not the one that scrap was left in. -/
theorem Scrap.elsewhere {n : Net σ} {s : USock} {i k : Nat} (hs : Scrap s)
    (hk : ((n.setSock i s).socks k).used = true) : k ≠ i := by
  rintro rfl
  rw [Net.setSock_self, hs.used] at hk
  exact absurd hk (by decide)

/-- Listening and connected sockets stay in their state. -/
theorem Touched.stays {s s' : USock} (ht : Touched s s') (hc : s.state ≠ .created)
    (hb : s.state ≠ .bound) : s'.state = s.state := by
  rcases ht.state with hst | ⟨hst, _⟩ | ⟨hst, _⟩
  · exact hst
  · exact absurd hst hc
  · exact absurd hst hb

/-- A slot connected to slot `j`. -/
def USock.joined (s : USock) (j : Nat) : USock := { s with state := .connected, peerIdx := j }

/-- A slot with one more entry in its queue. -/
def USock.enqueue (s : USock) (k : Nat) : USock :=
  { s with listenQ := fun m => if m = s.nWait then (k : Int) else s.listenQ m, nWait := s.nWait + 1 }

/-- A slot without the first entry of its queue. -/
def USock.dequeue (s : USock) : USock :=
  { s with listenQ := fun k => if k < s.nWait - 1 then s.listenQ (k + 1) else s.listenQ k,
           nWait := s.nWait - 1 }

/-- A slot whose calls store into slot `j`. -/
structure Sends (n : Net σ) (i j : Nat) : Prop where
  bound : i < unixSockMax
  used : (n.socks i).used = true
  state : (n.socks i).state = .connected
  peer : (n.socks i).peerIdx ≠ peerNone
  target : (n.socks i).peerIdx.toNat = j

/-- How `f` became the descriptor that was queued: a socket as it is, anything else duplicated. -/
inductive Passed (n : Net σ) (f : Int) : Int → Vfs σ → Prop
  | sock (h : unixIsSockfd n f = true) : Passed n f f n.vfs
  | file (h : unixIsSockfd n f = false) {r : Int} (hr : 0 ≤ r) {v : Vfs σ} (hd : vfsDup n.vfs f = (v, r)) :
      Passed n f r v

/-- The table without slot `i`: its peer is on its own, and the slot is zeros. -/
def shutSlot (n : Net σ) (i : Nat) : Net σ := (unlinkPeer n i).setSock i .zero

/-- **One edit.** -/
inductive Edit (fs : FrameService σ) (n : Net σ) : List Ev → Net σ → Prop
  | scratch {i : Nat} {s : USock} (hu : (n.socks i).used = false) (hs : Scrap s) :
      Edit fs n [] (n.setSock i s)
  | touched {i : Nat} {s : USock} (h : Touched (n.socks i) s) : Edit fs n [] (n.setSock i s)
  | opened {i : Nat} (hi : i < unixSockMax) (hu : (n.socks i).used = false) :
      Edit fs n [.opened i] (n.setSock i .fresh)
  | paired {a b : Nat} (ha : a < unixSockMax) (hb : b < unixSockMax) (hne : a ≠ b)
      (hua : (n.socks a).used = false) (hub : (n.socks b).used = false) :
      Edit fs n [.paired a b]
        ((n.setSock a (USock.fresh.joined b)).setSock b (USock.fresh.joined a))
  | looped {i : Nat} (hi : i < unixSockMax) (hu : (n.socks i).used = false) (flags : Nat) :
      Edit fs n [.looped i] (n.setSock i { USock.fresh.joined i with flags := flags })
  | linked {c s l : Nat} (hc : c < unixSockMax) (huc : (n.socks c).used = true)
      (hsc : (n.socks c).state = .created) (hs : s < unixSockMax) (hus : (n.socks s).used = false)
      (hl : l < unixSockMax) (hul : (n.socks l).used = true) (hsl : (n.socks l).state = .listening)
      (hw : (n.socks l).nWait < acceptQ) :
      Edit fs n [.linked c s l]
        (((n.setSock s (USock.fresh.joined c)).setSock c ((n.socks c).joined s)).setSock l
          ((n.socks l).enqueue s))
  | accepted {l s : Nat} (hw : (n.socks l).nWait ≠ 0) (hs : (n.socks l).listenQ 0 = s)
      (hlt : s < unixSockMax) (hu : (n.socks s).used = true) :
      Edit fs n [.accepted l s] (n.setSock l (n.socks l).dequeue)
  | stale {l : Nat} (hw : (n.socks l).nWait ≠ 0)
      (hs : ∀ s : Nat, (n.socks l).listenQ 0 = s → s < unixSockMax → (n.socks s).used = false) :
      Edit fs n [.stale l ((n.socks l).listenQ 0)] (n.setSock l (n.socks l).dequeue)
  | pushed {i j : Nat} {bytes : List UInt8} {rx : RingBuf UInt8 rxCap} (h : Sends n i j)
      (hrx : rx.toList = (n.socks j).rx.toList ++ bytes) :
      Edit fs n [.pushed i j bytes] (n.setSock j { n.socks j with rx := rx })
  | popped {j : Nat} {bytes : List UInt8} {rx : RingBuf UInt8 rxCap}
      (hrx : (n.socks j).rx.toList = bytes ++ rx.toList) :
      Edit fs n [.popped j bytes] (n.setSock j { n.socks j with rx := rx })
  | sent {i j : Nat} {f r : Int} {v : Vfs σ} {q : RingBuf Int fdsCap} (h : Sends n i j)
      (hp : Passed n f r v) (hq : q.toList = (n.socks j).fdsRx.toList ++ [r]) :
      Edit fs n [.sent i j f r] ({ n with vfs := v }.setSock j { n.socks j with fdsRx := q })
  | received {j : Nat} {fds : List Int} {q : RingBuf Int fdsCap}
      (hq : (n.socks j).fdsRx.toList = fds ++ q.toList) :
      Edit fs n [.received j fds] (n.setSock j { n.socks j with fdsRx := q })
  | closed {i : Nat} (hi : i < unixSockMax) (hu : (n.socks i).used = true) :
      Edit fs n [.closed i (n.socks i).fdsRx.toList]
        { shutSlot n i with vfs := closeFds n (n.socks i).fdsRx.toList n.vfs }
  | openFile {path : CStr} {flags : Nat} {v : Vfs σ} {r : Int}
      (h : vfsOpen n.vfs path flags = .done (v, r)) :
      Edit fs n [.openFile path flags] { n with vfs := v }
  | closeFile (fd : Int) : Edit fs n [.closeFile fd] { n with vfs := (vfsClose n.vfs fd).1 }
  | dupFile (fd : Int) : Edit fs n [.dupFile fd] { n with vfs := (vfsDup n.vfs fd).1 }
  | unlinkFile {path : CStr} {v : Vfs σ} {r : Int} (h : vfsUnlink fs n.vfs path = .done (v, r)) :
      Edit fs n [.unlinkFile path] { n with vfs := v }

/-- Edits in a row. -/
abbrev Edits (fs : FrameService σ) : Net σ → List Ev → Net σ → Prop := Trace (Edit fs)

/-! ## Opening -/

section Opening

variable {fs : FrameService σ} {n n' : Net σ} {log : List Ev} {r : Int}

theorem unixSocket_edits {domain type : Int} (h : unixSocket n domain type = (n', log, r)) :
    Edits fs n log n' := by
  unfold unixSocket at h
  split at h
  · cases h; exact .nil n
  · split at h
    · cases h; exact .nil n
    · split at h
      · cases h; exact .nil n
      · next m i ha =>
        obtain ⟨hi, hu, rfl⟩ := allocSlot_some ha
        cases h
        exact .one (.opened hi hu)

theorem unixSocketpair_edits {domain type : Int} {svNull : Bool} {sv : Option (Int × Int)}
    (h : unixSocketpair n domain type svNull = (n', log, r, sv)) : Edits fs n log n' := by
  unfold unixSocketpair at h
  split at h
  · cases h; exact .nil n
  · split at h
    · cases h; exact .nil n
    · split at h
      · cases h; exact .nil n
      · next m a ha =>
        obtain ⟨hla, hua, rfl⟩ := allocSlot_some ha
        split at h
        · -- only one slot was left, and it goes back
          cases h
          rw [Net.setSock_self, Net.setSock_setSock]
          exact .one (.scratch hua ⟨rfl, RingBuf.toList_fresh _, RingBuf.toList_fresh _, rfl,
            fun _ _ => rfl⟩)
        · next m b hb =>
          obtain ⟨hlb, hub, rfl⟩ := allocSlot_some hb
          have hne : b ≠ a := by
            rintro rfl
            rw [Net.setSock_self] at hub
            exact absurd hub (by decide)
          rw [Net.setSock_ne _ hne] at hub
          dsimp only at h
          rw [Net.setSock_ne _ hne.symm, Net.setSock_self,
            Net.setSock_comm _ _ hne.symm, Net.setSock_setSock,
            Net.setSock_ne _ hne, Net.setSock_self,
            Net.setSock_comm _ _ hne, Net.setSock_setSock] at h
          cases h
          exact .one (.paired hla hlb hne.symm hua hub)

/-- What `push_rx` does to a slot. -/
theorem pushRx_spec (dst : USock) (data : Nat → UInt8) (len : Nat) :
    ∃ rx, (pushRx dst data len).1 = { dst with rx := rx }
      ∧ rx.toList = dst.rx.toList ++ (pushRx dst data len).2.2 := by
  unfold pushRx
  dsimp only
  exact ⟨_, rfl, (RingBuf.pushLoop_spec data len 0 dst.rx).2⟩

theorem unixEventfd_edits {initval flags : Nat} (h : unixEventfd n initval flags = (n', log, r)) :
    Edits fs n log n' := by
  unfold unixEventfd at h
  split at h
  · cases h; exact .nil n
  · next m i ha =>
    obtain ⟨hi, hu, rfl⟩ := allocSlot_some ha
    rw [Net.setSock_self] at h
    have hloop : Edit fs n [.looped i] (n.setSock
        i { USock.fresh.joined i with flags := Bits.u32 flags }) :=
      .looped hi hu _
    dsimp only at h
    split at h
    · obtain ⟨rx, hs, hrx⟩ := pushRx_spec { USock.fresh.joined i with flags := Bits.u32 flags }
        (le64 (Bits.u32 initval)) 8
      have hpush : Edit fs (n.setSock i { USock.fresh.joined i with flags := Bits.u32 flags }) _
          _ :=
        .pushed (i := i) (j := i) ⟨hi, by simp [USock.joined, USock.fresh],
          by simp [USock.joined], by simp [USock.joined, peerNone], by simp [USock.joined]⟩
          (by rw [Net.setSock_self]; exact hrx)
      rw [Net.setSock_self, Net.setSock_setSock, ← hs] at hpush
      have hboth := (Trace.one hloop).snoc hpush
      cases h
      rw [Net.setSock_setSock]
      exact hboth
    · cases h
      rw [Net.setSock_setSock]
      exact .one hloop

end Opening

/-! ## Connecting -/

section Connecting

variable {fs : FrameService σ} {n n' : Net σ} {log : List Ev} {r : Int}

theorem unixBind_edits {fd : Int} {addr : Option (Nat → UInt8)} {addrlen : Nat}
    (h : unixBind n fd addr addrlen = .done (n', log, r)) : Edits fs n log n' := by
  unfold unixBind at h
  split at h
  · cases h; exact .nil n
  · next i hi =>
    split at h
    · cases h; exact .nil n
    · next hst =>
      split at h
      · cases h; exact .nil n
      · next path _ =>
        have hname : Edits fs n [] (n.setSock i { n.socks i with path := path }) :=
          .one (.touched ⟨rfl, rfl, rfl, rfl, rfl, rfl, Or.inl rfl⟩)
        dsimp only at h
        split at h
        · cases h; exact hname
        · split at h
          · cases h; exact hname
          · split at h
            · cases h; exact hname
            · obtain ⟨⟨v, tfd⟩, ho, h⟩ := Outcome.bind_eq_done h
              dsimp only at h
              have hopen : Edits fs n _ _ := hname.snoc (.openFile ho)
              split at h
              · cases h; exact hopen
              · cases h
                have hclose := hopen.snoc (Edit.closeFile tfd)
                refine Trace.snoc hclose
                  (.touched ⟨rfl, rfl, rfl, rfl, rfl, rfl, Or.inr (Or.inl ⟨?_, rfl⟩)⟩)
                dsimp only
                rw [Net.setSock_self]
                exact not_not.mp hst

theorem unixListen_edits {fd : Int} (h : unixListen n fd = (n', r)) : Edits fs n [] n' := by
  unfold unixListen at h
  split at h
  · cases h; exact .nil n
  · split at h
    · cases h; exact .nil n
    · next hst =>
      cases h
      exact .one (.touched ⟨rfl, rfl, rfl, rfl, rfl, rfl, Or.inr (Or.inr ⟨not_not.mp hst, rfl⟩)⟩)

theorem findListener_some {path : CStr} {l : Nat} (h : findListener n path = some l) :
    l < unixSockMax ∧ (n.socks l).used = true ∧ (n.socks l).state = .listening := by
  obtain ⟨hp, _, hlt, _⟩ := Scan.first_some h
  simp only [Bool.and_eq_true, decide_eq_true_eq] at hp
  exact ⟨by omega, hp.1.1, hp.1.2⟩

/-- A new slot and the client's, once they name each other. -/
theorem Net.link_eq {n₁ n₂ n₃ : Net σ} {c s : Nat} (hcs : c ≠ s)
    (h₁ : n₁ = (n.setSock s .fresh).setSock s
      { (n.setSock s .fresh).socks s with state := .connected })
    (h₂ : n₂ = n₁.setSock c { n₁.socks c with state := .connected, peerIdx := s })
    (h₃ : n₃ = n₂.setSock s { n₂.socks s with peerIdx := c }) :
    n₃ = (n.setSock s (USock.fresh.joined c)).setSock c ((n.socks c).joined s) := by
  rw [Net.setSock_self, Net.setSock_setSock] at h₁
  have hc : n₁.socks c = n.socks c := by rw [h₁, Net.setSock_ne _ hcs]
  have hs : n₂.socks s = { USock.fresh with state := .connected } := by
    rw [h₂, Net.setSock_ne _ hcs.symm, h₁, Net.setSock_self]
  rw [h₃, hs, h₂, hc, h₁, Net.setSock_comm _ _ hcs, Net.setSock_setSock]
  rfl

/-- **What `unix_connect` does**: nothing, or it leaves scrap in a free slot because the queue is
full, or it makes the connection. -/
theorem unixConnect_cases {fd : Int} {addr : Option (Nat → UInt8)} {addrlen : Nat}
    (h : unixConnect n fd addr addrlen = (n', log, r)) :
    (n' = n ∧ log = [] ∧ r < 0)
      ∨ (∃ c s, sockOf n fd = some c ∧ (n.socks c).state = .created ∧ freeSlot n = some s ∧ log = []
          ∧ r < 0
          ∧ n' = (n.setSock s { USock.fresh.joined c with used := false }).setSock c
            { n.socks c with peerIdx := peerNone, state := .created })
      ∨ ∃ c s l path, sockOf n fd = some c ∧ (n.socks c).state = .created ∧ freeSlot n = some s
          ∧ checkAddr addr addrlen = some path ∧ findListener n path = some l
          ∧ (n.socks l).nWait < acceptQ ∧ log = [.linked c s l] ∧ r = 0
          ∧ n' = ((n.setSock s (USock.fresh.joined c)).setSock c ((n.socks c).joined s)).setSock l
            ((n.socks l).enqueue s) := by
  unfold unixConnect at h
  split at h
  · cases h; exact Or.inl ⟨rfl, rfl, by decide⟩
  · next c hc =>
    obtain ⟨_, _, huc⟩ := sockOf_some hc
    split at h
    · cases h; exact Or.inl ⟨rfl, rfl, by decide⟩
    · next hst =>
      have hst : (n.socks c).state = .created := not_not.mp hst
      split at h
      · cases h; exact Or.inl ⟨rfl, rfl, by decide⟩
      · next path hpath =>
        split at h
        · cases h; exact Or.inl ⟨rfl, rfl, by decide⟩
        · next l hl =>
          obtain ⟨_, hul, hsl⟩ := findListener_some hl
          split at h
          · cases h; exact Or.inl ⟨rfl, rfl, by decide⟩
          · next m s ha =>
            have hfree : freeSlot n = some s := by
              unfold allocSlot at ha
              split at ha
              · exact absurd ha (by simp)
              · next hk => cases ha; exact hk
            obtain ⟨hlt, hus, rfl⟩ := allocSlot_some ha
            -- three different slots
            have hcs : c ≠ s := Net.used_ne huc hus
            have hls : l ≠ s := Net.used_ne hul hus
            have hlc : l ≠ c := Net.listening_ne hsl hst
            extract_lets +onlyGivenNames a₁ n₁ a₂ n₂ a₃ n₃ L at h
            have h₃ : n₃ = (n.setSock s (USock.fresh.joined c)).setSock c ((n.socks c).joined s) :=
              Net.link_eq hcs rfl rfl rfl
            have hL : L = n.socks l := by
              change n₃.socks l = _
              rw [h₃, Net.setSock_ne _ hlc, Net.setSock_ne _ hls]
            clear_value n₃ L
            subst h₃ hL
            split at h
            · -- the queue is full: both slots go back to what they were
              cases h
              refine Or.inr (Or.inl ⟨c, s, hc, hst, hfree, rfl, by decide, ?_⟩)
              unfold Net.setSock
              congr 1
              funext k
              dsimp only
              by_cases hkc : k = c
              · simp only [hkc, hcs, if_true, if_false]
                rfl
              · by_cases hks : k = s
                · subst hks
                  simp only [hkc, if_true, if_false]
                · simp only [hkc, hks, if_false]
            · next hw =>
              cases h
              refine Or.inr (Or.inr ⟨c, s, l, path, hc, hst, hfree, hpath,
                hl, by omega, rfl, rfl, ?_⟩)
              rfl

theorem unixConnect_edits {fd : Int} {addr : Option (Nat → UInt8)} {addrlen : Nat}
    (hcr : ∀ i, (n.socks i).state = .created → (n.socks i).peerIdx = peerNone)
    (h : unixConnect n fd addr addrlen = (n', log, r)) : Edits fs n log n' := by
  rcases unixConnect_cases h with ⟨rfl, rfl, _⟩ | ⟨c, s, hc, hst, hs, rfl, _, rfl⟩
    | ⟨c, s, l, path, hc, hst, hs, _, hl, hw, rfl, _, rfl⟩
  · exact .nil _
  · obtain ⟨_, hus⟩ := freeSlot_some hs
    obtain ⟨_, _, huc⟩ := sockOf_some hc
    have hcs : c ≠ s := Net.used_ne huc hus
    have hback : { n.socks c with peerIdx := peerNone, state := .created } = n.socks c := by
      cases hsc : n.socks c with
      | mk used state path rx peer queue wait fds flags =>
          have hp := hcr c hst
          rw [hsc] at hst hp
          dsimp only at hst hp ⊢
          rw [hst, hp]
    rw [hback, Net.setSock_comm _ _ hcs.symm, Net.setSock_eta]
    exact .one (.scratch hus ⟨rfl, RingBuf.toList_fresh _, RingBuf.toList_fresh _, rfl,
      fun hc _ => absurd rfl hc⟩)
  · obtain ⟨hlc, _, huc⟩ := sockOf_some hc
    obtain ⟨hls, hus⟩ := freeSlot_some hs
    obtain ⟨hll, hul, hsl⟩ := findListener_some hl
    exact .one (.linked hlc huc hst hls hus hll hul hsl hw)

/-- The rest of `unix_accept`, once the queue is not empty. -/
theorem acceptFrom_cases {i : Nat} {rep : Reply} (h : acceptFrom n i = (n', log, rep)) :
    (n' = n ∧ log = [] ∧ (n.socks i).nWait = 0
        ∧ (rep = .ret (.plain (-eagain)) ∧ hasFlag (n.socks i).flags oNonblock = true
          ∨ rep = .sleep (.accept i)))
      ∨ (n.socks i).nWait ≠ 0 ∧ n' = n.setSock i (n.socks i).dequeue
        ∧ ((∃ s : Nat, (n.socks i).listenQ 0 = s ∧ s < unixSockMax ∧ (n.socks s).used = true
              ∧ log = [.accepted i s] ∧ rep = .ret (.plain (fdOf s)))
          ∨ (∀ s : Nat, (n.socks i).listenQ 0 = s → s < unixSockMax → (n.socks s).used = false)
              ∧ log = [.stale i ((n.socks i).listenQ 0)] ∧ rep = .ret (.plain (-eio))) := by
  -- taking an entry out of the queue makes no slot free
  have hused : ∀ k, ((n.setSock i (n.socks i).dequeue).socks k).used = (n.socks k).used := by
    intro k
    by_cases hk : k = i
    · rw [hk, Net.setSock_self]; rfl
    · rw [Net.setSock_ne _ hk]
  unfold acceptFrom at h
  dsimp only at h
  split at h
  · next hw =>
    left
    split at h
    · next hf =>
      cases h
      exact ⟨rfl, rfl, hw, Or.inl ⟨rfl, hf⟩⟩
    · cases h
      exact ⟨rfl, rfl, hw, Or.inr rfl⟩
  · next hw =>
    right
    refine ⟨hw, ?_⟩
    change (if (n.socks i).listenQ 0 < 0 ∨ (n.socks i).listenQ 0 ≥ unixSockMax
      ∨ (!((n.setSock i (n.socks i).dequeue).socks ((n.socks i).listenQ 0).toNat).used) = true
        then _ else _) = _ at h
    rw [hused] at h
    split at h
    · -- the entry names no slot, or one that is free
      next hbad =>
      cases h
      refine ⟨rfl, Or.inr ⟨?_, rfl, rfl⟩⟩
      intro s hs hlt
      rw [hs] at hbad
      rcases hbad with hneg | hbig | hu
      · omega
      · omega
      · simpa using hu
    · -- the entry names a socket
      next hgood =>
      cases h
      simp only [not_or] at hgood
      obtain ⟨h1, h2, h3⟩ := hgood
      refine ⟨rfl, Or.inl ⟨((n.socks i).listenQ 0).toNat, by omega, by omega, by simpa using h3, rfl, ?_⟩⟩
      unfold fdOf
      rw [Int.toNat_of_nonneg (by omega)]

theorem acceptFrom_edits {i : Nat} {rep : Reply} (h : acceptFrom n i = (n', log, rep)) :
    Edits fs n log n' := by
  rcases acceptFrom_cases h with ⟨rfl, rfl, _⟩ | ⟨hw, rfl, ⟨s, hs, hlt, hu, rfl, _⟩ | ⟨hs, rfl, _⟩⟩
  · exact .nil _
  · exact .one (.accepted hw hs hlt hu)
  · exact .one (.stale hw hs)

theorem unixAccept_edits {fd : Int} {rep : Reply} (h : unixAccept n fd = (n', log, rep)) :
    Edits fs n log n' := by
  unfold unixAccept at h
  split at h
  · cases h; exact .nil n
  · split at h
    · cases h; exact .nil n
    · exact acceptFrom_edits h

end Connecting

/-! ## Reading and writing -/

section Transfer

variable {fs : FrameService σ} {n n' : Net σ} {log : List Ev} {r : Int}

/-- What `pop_rx` does to a slot, if it does not sleep. -/
theorem popRx_some {s s' : USock} {len : Nat} {out : List UInt8}
    (h : popRx s len = some (s', r, out)) :
    (s' = s ∧ r = -eagain ∧ out = [] ∧ s.rx.toList = [] ∧ s.peerIdx ≠ peerNone
        ∧ hasFlag s.flags oNonblock = true)
      ∨ (s.rx.toList = [] → s.peerIdx = peerNone)
        ∧ ∃ rx, s' = { s with rx := rx } ∧ r = toInt32 out.length ∧ out = s.rx.toList.take len
          ∧ rx.toList = s.rx.toList.drop len := by
  unfold popRx at h
  split at h
  · next hw =>
    split at h
    · next hf =>
      cases h
      exact Or.inl ⟨rfl, rfl, rfl, (RingBuf.toList_eq_nil _).mpr hw.1, hw.2, hf⟩
    · exact absurd h (by simp)
  · next hw =>
    cases h
    obtain ⟨h1, h2⟩ := RingBuf.popLoop_spec len s.rx
    exact Or.inr ⟨fun he => not_not.mp fun hp => hw ⟨(RingBuf.toList_eq_nil _).mp he, hp⟩,
      _, rfl, rfl, h1, h2⟩

/-- Either way, the bytes copied out are the oldest of those held. -/
theorem popRx_rx {s s' : USock} {len : Nat} {out : List UInt8}
    (h : popRx s len = some (s', r, out)) :
    ∃ rx, s' = { s with rx := rx } ∧ s.rx.toList = out ++ rx.toList := by
  rcases popRx_some h with ⟨rfl, _, rfl, _⟩ | ⟨_, rx, rfl, _, rfl, hrx⟩
  · exact ⟨s'.rx, rfl, rfl⟩
  · exact ⟨rx, rfl, by rw [hrx, List.take_append_drop]⟩

theorem readFrom_edits {i len : Nat} {rep : Reply} (h : readFrom n i len = (n', log, rep)) :
    Edits fs n log n' := by
  unfold readFrom at h
  split at h
  · cases h; exact .nil n
  · next s r out hp =>
    obtain ⟨rx, rfl, hrx⟩ := popRx_rx hp
    cases h
    exact .one (.popped hrx)

theorem unixSockRead_edits {fd : Int} {len : Nat} {rep : Reply}
    (h : unixSockRead n fd len = (n', log, rep)) : Edits fs n log n' := by
  unfold unixSockRead at h
  split at h
  · cases h; exact .nil n
  · split at h
    · cases h; exact .nil n
    · exact readFrom_edits h

theorem sendTo_ok {fd : Int} {i j : Nat} (h : sendTo n fd = .ok (i, j)) :
    sockOf n fd = some i ∧ Sends n i j := by
  unfold sendTo at h
  split at h
  · exact absurd h (by simp)
  · next k hk =>
    split at h
    · exact absurd h (by simp)
    · next hst =>
      cases h
      rw [not_or] at hst
      obtain ⟨hlt, _, hu⟩ := sockOf_some hk
      exact ⟨hk, hlt, hu, not_not.mp hst.1, hst.2, rfl⟩

theorem unixSockWrite_edits {fd : Int} {buf : Nat → UInt8} {len : Nat}
    (h : unixSockWrite n fd buf len = (n', log, r)) : Edits fs n log n' := by
  unfold unixSockWrite at h
  split at h
  · cases h; exact .nil n
  · next i j hs =>
    cases h
    exact .one (.pushed (sendTo_ok hs).2 (RingBuf.pushLoop_spec buf len 0 _).2)

/-! ## Messages -/

/-- The loop over the buffers to send stores bytes and does nothing else. -/
theorem sendIovs_spec : ∀ (vs : List IoVec) (total : Int) (peer : USock),
    ∃ rx, (sendIovs vs total peer).1 = { peer with rx := rx }
      ∧ rx.toList = peer.rx.toList ++ (sendIovs vs total peer).2.1
  | [], total, peer => ⟨peer.rx, rfl, by simp [sendIovs]⟩
  | v :: vs, total, peer => by
      rw [sendIovs]
      split
      · exact sendIovs_spec vs total peer
      · split
        · exact ⟨peer.rx, rfl, by simp⟩
        · next data _ =>
          obtain ⟨rx, hp, hrx⟩ := pushRx_spec peer data v.len
          dsimp only
          split
          · exact ⟨rx, hp, hrx⟩
          · obtain ⟨rx', hp', hrx'⟩ := sendIovs_spec vs (total + (pushRx peer data v.len).2.1)
              (pushRx peer data v.len).1
            refine ⟨rx', by rw [hp', hp], ?_⟩
            rw [hrx', hp]
            dsimp only
            rw [hrx, List.append_assoc]

theorem Sends.setSock {i j : Nat} (h : Sends n i j) {s : USock} (hu : s.used = (n.socks j).used)
    (hst : s.state = (n.socks j).state) (hp : s.peerIdx = (n.socks j).peerIdx) :
    Sends (n.setSock j s) i j := by
  by_cases hij : i = j
  · subst hij
    refine ⟨h.bound, ?_, ?_, ?_, ?_⟩
    · rw [Net.setSock_self, hu]; exact h.used
    · rw [Net.setSock_self, hst]; exact h.state
    · rw [Net.setSock_self, hp]; exact h.peer
    · rw [Net.setSock_self, hp]; exact h.target
  · refine ⟨h.bound, ?_, ?_, ?_, ?_⟩
    · rw [Net.setSock_ne _ hij]; exact h.used
    · rw [Net.setSock_ne _ hij]; exact h.state
    · rw [Net.setSock_ne _ hij]; exact h.peer
    · rw [Net.setSock_ne _ hij]; exact h.target

/-- Another file system below. -/
theorem Sends.vfs {i j : Nat} (h : Sends n i j) (v : Vfs σ) : Sends { n with vfs := v } i j :=
  ⟨h.bound, h.used, h.state, h.peer, h.target⟩

/-- A duplicate is a free descriptor filled in. -/
theorem vfsDup_ok {v : Vfs σ} {f : Int} (h : 0 ≤ (vfsDup v f).2) :
    ∃ k, freeFd v = some k ∧ fdOpen v f = true
      ∧ vfsDup v f = (v.setFd k (v.fds f.toNat), (k : Int)) := by
  unfold vfsDup at h ⊢
  split
  · next ho => rw [if_pos ho] at h; exact absurd h (by decide : ¬ 0 ≤ -ebadf)
  · next ho =>
    rw [if_neg ho] at h
    split
    · next hk => rw [hk] at h; exact absurd h (by decide : ¬ 0 ≤ -emfile)
    · next k hk => exact ⟨k, hk, by simpa using ho, rfl⟩

/-- Its number is below those of sockets. -/
theorem vfsDup_not_sock {v : Vfs σ} {f : Int} (h : 0 ≤ (vfsDup v f).2) :
    unixIsSockfd n (vfsDup v f).2 = false := by
  obtain ⟨k, hk, _, hd⟩ := vfsDup_ok h
  have hlt := (freeFd_some hk).2.1
  rw [hd]
  cases hsock : unixIsSockfd n (k : Int) with
  | false => rfl
  | true =>
      unfold unixIsSockfd at hsock
      rw [Option.isSome_iff_exists] at hsock
      obtain ⟨m, hm⟩ := hsock
      have hfd := (sockOf_some hm).2.1
      unfold fdOf unixSockFdBase at hfd
      unfold vfsMaxFds at hlt
      omega

/-- **What becomes of one descriptor**: refused, duplicated and closed again because the queue is
full, or queued. -/
theorem sendFd_edits {i j : Nat} {f : Int} (hs : Sends n i j) (h : sendFd n i j f = (n', log, r)) :
    Edits fs n log n' ∧ Sends n' i j := by
  unfold sendFd at h
  cases hsock : unixIsSockfd n f with
  | true =>
      simp only [hsock, if_true, Bool.not_true, Bool.false_eq_true, false_and, if_false] at h
      split at h
      · cases h; exact ⟨.nil _, hs⟩
      · next q hq =>
        cases h
        exact ⟨.one (.sent hs (.sock hsock) (RingBuf.toList_push hq)), hs.setSock rfl rfl rfl⟩
  | false =>
      simp only [hsock, if_false, Bool.not_false, Bool.false_eq_true, true_and] at h
      split at h
      · cases h; exact ⟨.nil n, hs⟩
      · next hr =>
        split at h
        · split at h
          · next hbad =>
            rw [vfsDup_not_sock (by omega)] at hbad
            exact absurd hbad (by decide)
          · cases h
            have hdup : Edits fs n _ _ := (Trace.nil n).snoc (.dupFile f)
            exact ⟨hdup.snoc (.closeFile _), (hs.vfs _).vfs _⟩
        · next q hq =>
          cases h
          exact ⟨.one (.sent hs (.file hsock (by omega) rfl) (RingBuf.toList_push hq)),
            (hs.vfs _).setSock rfl rfl rfl⟩

theorem sendFds_edits {i j : Nat} (fds : Nat → Int) : ∀ (k f : Nat) {n n' : Net σ} {log : List Ev}
    {r : Int}, Sends n i j → sendFds i j fds k f n = (n', log, r) → Edits fs n log n' ∧ Sends n' i j
  | 0, f, n, n', log, r, hs, h => by
      cases h
      exact ⟨.nil n, hs⟩
  | k + 1, f, n, n', log, r, hs, h => by
      rw [sendFds] at h
      cases hf : sendFd n i j (fds f) with
      | mk m p =>
          obtain ⟨log₁, r₁⟩ := p
          rw [hf] at h
          dsimp only at h
          obtain ⟨he, hs'⟩ : Edits fs n log₁ m ∧ Sends m i j := sendFd_edits hs hf
          split at h
          · cases h; exact ⟨he, hs'⟩
          · cases h₂ : sendFds i j fds k (f + 1) m with
            | mk m' p =>
                obtain ⟨log₂, r₂⟩ := p
                rw [h₂] at h
                cases h
                obtain ⟨he', hs''⟩ := sendFds_edits fds k (f + 1) hs' h₂
                exact ⟨he.append he', hs''⟩

theorem sendControl_edits {i j : Nat} {control : Nat → UInt8} {controllen : Nat} :
    ∀ (fuel offset : Nat) {n n' : Net σ} {log : List Ev} {r : Int}, Sends n i j →
      sendControl i j control controllen fuel offset n = .done (n', log, r) → Edits fs n log n'
  | 0, offset, n, n', log, r, _, h => absurd h (by simp [sendControl])
  | fuel + 1, offset, n, n', log, r, hs, h => by
      rw [sendControl] at h
      split at h
      · dsimp only at h
        split at h
        · cases h; exact .nil n
        · -- the descriptors of this message, if it has any
          generalize hg : (if readInt control (offset + 8) = solSocket
            ∧ readInt control (offset + 12) = scmRights then _ else _ : Net σ × List Ev × Int)
              = g at h
          obtain ⟨m, log₁, r₁⟩ := g
          have hm : Edits fs n log₁ m ∧ Sends m i j := by
            split at hg
            · exact sendFds_edits _ _ _ hs hg
            · cases hg; exact ⟨.nil n, hs⟩
          dsimp only at h
          split at h
          · cases h; exact hm.1
          · obtain ⟨⟨m', log₂, r₂⟩, h₂, h⟩ := Outcome.bind_eq_done h
            cases h
            exact hm.1.append (sendControl_edits fuel _ hm.2 h₂)
      · cases h; exact .nil n

theorem unixSockSendmsg_edits {fuel : Nat} {fd : Int} {msg : Option MsgHdr}
    (h : unixSockSendmsg fuel n fd msg = .done (n', log, r)) : Edits fs n log n' := by
  unfold unixSockSendmsg at h
  split at h
  · cases h; exact .nil n
  · next i j hs =>
    have hs := (sendTo_ok hs).2
    split at h
    · cases h; exact .nil n
    · next msg =>
      obtain ⟨rx, hpeer, hrx⟩ := sendIovs_spec msg.iov 0 (n.socks j)
      have hpush : Edit fs n [.pushed i j (sendIovs msg.iov 0 (n.socks j)).2.1]
          (n.setSock j { n.socks j with rx := rx }) := .pushed hs hrx
      dsimp only at h
      rw [hpeer] at h
      split at h
      · cases h; exact .one hpush
      · split at h
        · cases h; exact .one hpush
        · split at h
          · cases h; exact .one hpush
          · obtain ⟨⟨m, log₁, r₁⟩, hc, h⟩ := Outcome.bind_eq_done h
            cases h
            exact (Trace.one hpush).append (sendControl_edits _ _ (hs.setSock rfl rfl rfl) hc)

/-- The loop over the buffers to fill takes bytes and does nothing else. -/
theorem recvIovs_spec : ∀ (vs : List IoVec) (total : Int) {s s' : USock} {out : List UInt8}
    {res : Except Int Int}, recvIovs vs total s = some (s', out, res) →
    ∃ rx, s' = { s with rx := rx } ∧ s.rx.toList = out ++ rx.toList
  | [], total, s, s', out, res, h => by
      cases h
      exact ⟨s.rx, rfl, rfl⟩
  | v :: vs, total, s, s', out, res, h => by
      rw [recvIovs] at h
      split at h
      · exact recvIovs_spec vs total h
      · split at h
        · cases h; exact ⟨s.rx, rfl, rfl⟩
        · split at h
          · exact absurd h (by simp)
          · next s₁ recvd out₁ hp =>
            obtain ⟨rx, rfl, hrx⟩ := popRx_rx hp
            split at h
            · cases h; exact ⟨rx, rfl, hrx⟩
            · split at h
              · cases h; exact ⟨rx, rfl, hrx⟩
              · split at h
                · exact absurd h (by simp)
                · next s₂ more res' hr =>
                  obtain ⟨rx', rfl, hrx'⟩ := recvIovs_spec vs _ hr
                  cases h
                  refine ⟨rx', rfl, ?_⟩
                  rw [hrx, hrx', List.append_assoc]

theorem recvFrom_edits {i : Nat} {msg : MsgHdr} {rep : Reply}
    (h : recvFrom n i msg = (n', log, rep)) :
    Edits fs n log n' := by
  unfold recvFrom at h
  split at h
  · cases h; exact .nil n
  · next s out e hr =>
    obtain ⟨rx, rfl, hrx⟩ := recvIovs_spec msg.iov 0 hr
    cases h
    exact .one (.popped hrx)
  · next s out total hr =>
    obtain ⟨rx, rfl, hrx⟩ := recvIovs_spec msg.iov 0 hr
    have hpop : Edit fs n [.popped i out] (n.setSock i { n.socks i with rx := rx }) := .popped hrx
    split at h
    · obtain ⟨h1, h2⟩ := RingBuf.popLoop_spec ((msg.controllen - cmsghdrSize) / 4) (n.socks i).fdsRx
      dsimp only at h
      cases h
      have hrecv : Edit fs (n.setSock i { n.socks i with rx := rx }) [.received i _] _ :=
        .received (q := (RingBuf.popLoop ((msg.controllen - cmsghdrSize) / 4) (n.socks i).fdsRx).2)
          (by rw [Net.setSock_self, h2]; exact (List.take_append_drop _ _).symm)
      rw [Net.setSock_self, Net.setSock_setSock, ← h1] at hrecv
      exact (Trace.one hpop).snoc hrecv
    · cases h
      exact .one hpop

theorem unixSockRecvmsg_edits {fd : Int} {msg : Option MsgHdr} {rep : Reply}
    (h : unixSockRecvmsg n fd msg = (n', log, rep)) : Edits fs n log n' := by
  unfold unixSockRecvmsg at h
  split at h
  · cases h; exact .nil n
  · split at h
    · cases h; exact .nil n
    · split at h
      · cases h; exact .nil n
      · exact recvFrom_edits h

end Transfer

/-! ## Closing -/

section Closing

variable {fs : FrameService σ} {n n' : Net σ} {log : List Ev} {r : Int}

/-- Only the peer's mention of the slot changes. -/
theorem unlinkPeer_socks (n : Net σ) (i k : Nat) :
    (unlinkPeer n i).socks k = n.socks k
      ∨ (n.socks i).peerIdx = k ∧ (n.socks k).used = true ∧ (n.socks k).peerIdx = i
        ∧ (unlinkPeer n i).socks k = { n.socks k with peerIdx := peerNone } := by
  unfold unlinkPeer
  dsimp only
  split
  · next hp =>
    split
    · next hq =>
      by_cases hk : k = (n.socks i).peerIdx.toNat
      · right
        subst hk
        exact ⟨by omega, hq.1, hq.2, by rw [Net.setSock_self]⟩
      · exact Or.inl (Net.setSock_ne _ hk)
    · exact Or.inl rfl
  · exact Or.inl rfl

theorem unlinkPeer_eq (n : Net σ) (i k : Nat) :
    ∃ p, (unlinkPeer n i).socks k = { n.socks k with peerIdx := p } := by
  rcases unlinkPeer_socks n i k with h | ⟨_, _, _, h⟩
  · exact ⟨(n.socks k).peerIdx, h⟩
  · exact ⟨peerNone, h⟩

theorem unlinkPeer_vfs (n : Net σ) (i : Nat) : (unlinkPeer n i).vfs = n.vfs := by
  unfold unlinkPeer
  dsimp only
  split
  · split
    · rfl
    · rfl
  · rfl

/-- The file system below has no part in it. -/
theorem unlinkPeer_withVfs (n : Net σ) (i : Nat) (v : Vfs σ) :
    (unlinkPeer { n with vfs := v } i).socks = (unlinkPeer n i).socks := by
  unfold unlinkPeer
  dsimp only
  split
  · split
    · rfl
    · rfl
  · rfl

/-- Which descriptors are sockets depends on which slots are in use only. -/
theorem unixIsSockfd_congr {m : Net σ} (h : ∀ k, (m.socks k).used = (n.socks k).used) (fd : Int) :
    unixIsSockfd m fd = unixIsSockfd n fd := by
  unfold unixIsSockfd sockOf
  split
  · rfl
  · rw [h]

theorem closeFds_congr {m : Net σ} (h : ∀ k, (m.socks k).used = (n.socks k).used) :
    ∀ (fds : List Int) (v : Vfs σ), closeFds m fds v = closeFds n fds v
  | [], _ => rfl
  | fd :: fds, v => by rw [closeFds, closeFds, unixIsSockfd_congr h, closeFds_congr h fds]

/-- **What `unix_sock_close` does**: the path of a bound socket is removed, and the slot is given up
with all that was queued for it. -/
theorem unixSockClose_cases {fd : Int} (h : unixSockClose fs n fd = .done (n', log, r)) :
    (n' = n ∧ log = [] ∧ sockOf n fd = none)
      ∨ ∃ i v pre, sockOf n fd = some i ∧ Edits fs n pre { n with vfs := v }
        ∧ (pre = [] ∨ pre = [.unlinkFile (n.socks i).path])
        ∧ log = pre ++ [.closed i (n.socks i).fdsRx.toList]
        ∧ Edit fs { n with vfs := v } [.closed i (n.socks i).fdsRx.toList] n' := by
  unfold unixSockClose at h
  split at h
  · next hn => cases h; exact Or.inl ⟨rfl, rfl, hn⟩
  · next i hi =>
    obtain ⟨hlt, _, hu⟩ := sockOf_some hi
    right
    obtain ⟨p, hp⟩ := unlinkPeer_eq n i i
    dsimp only at h
    rw [Net.setSock_self, hp] at h
    dsimp only at h
    -- every slot is in use as before
    have hused : ∀ k, (((unlinkPeer n i).setSock i { n.socks i with peerIdx := peerNone }).socks
      k).used
        = (n.socks k).used := by
      intro k
      by_cases hk : k = i
      · rw [hk, Net.setSock_self]
      · obtain ⟨q, hq⟩ := unlinkPeer_eq n i k
        rw [Net.setSock_ne _ hk, hq]
    have hall : ((n.socks i).fdsRx.popLoop fdsCap).1 = (n.socks i).fdsRx.toList := by
      rw [(RingBuf.popLoop_spec _ _).1, List.take_of_length_le (Nat.le_of_lt (RingBuf.length_lt _))]
    -- the slot is given up, above the file system `v`
    have hend : ∀ v, Edit fs { n with vfs := v } [.closed i (n.socks i).fdsRx.toList]
        ({ (unlinkPeer n i).setSock i { n.socks i with peerIdx := peerNone } with
          vfs := closeFds ((unlinkPeer n i).setSock i { n.socks i with peerIdx := peerNone })
            ((n.socks i).fdsRx.popLoop fdsCap).1 v }.setSock i .zero) := by
      intro v
      have hcl : Edit fs { n with vfs := v } _ _ := .closed (i := i) hlt hu
      have hfds : closeFds { n with vfs := v } (n.socks i).fdsRx.toList v
          = closeFds n (n.socks i).fdsRx.toList v :=
            closeFds_congr (n := n) (m := { n with vfs := v }) (fun _ => rfl) _ _
      rw [hall, closeFds_congr hused, ← hfds]
      have hshut : { shutSlot { n with vfs := v } i with
            vfs := closeFds { n with vfs := v } (n.socks i).fdsRx.toList v }
          = ({ (unlinkPeer n i).setSock i { n.socks i with peerIdx := peerNone } with
            vfs := closeFds { n with vfs := v } (n.socks i).fdsRx.toList v }).setSock i .zero := by
        unfold shutSlot Net.setSock
        dsimp only
        congr 1
        funext k
        rw [unlinkPeer_withVfs]
        split
        · rfl
        · rfl
      rw [← hshut]
      exact hcl
    rw [Net.setSock_vfs, unlinkPeer_vfs] at h
    rw [hall] at h hend
    split at h
    · obtain ⟨⟨v, r'⟩, hv, h⟩ := Outcome.bind_eq_done h
      cases h
      exact ⟨i, v, [.unlinkFile (n.socks i).path], hi, .one (.unlinkFile hv), Or.inr rfl, rfl,
        hend v⟩
    · cases h
      exact ⟨i, n.vfs, [], hi, .nil n, Or.inl rfl, rfl, hend n.vfs⟩

theorem unixSockFcntl_edits {fd cmd : Int} {arg : Nat} (h : unixSockFcntl n fd cmd arg = (n', r)) :
    Edits fs n [] n' := by
  unfold unixSockFcntl at h
  split at h
  · cases h; exact .nil n
  · split at h
    · cases h; exact .nil n
    · split at h
      · cases h
        exact .one (.touched ⟨rfl, rfl, rfl, rfl, rfl, rfl, Or.inl rfl⟩)
      · cases h; exact .nil n

end Closing

/-! ## All calls -/

/-- A call, with its arguments. `file` is any call into the file system. -/
inductive SockOp where
  | socket (domain type : Int)
  | socketpair (domain type : Int) (svNull : Bool)
  | eventfd (initval flags : Nat)
  | bind (fd : Int) (addr : Option (Nat → UInt8)) (addrlen : Nat)
  | listen (fd : Int)
  | connect (fd : Int) (addr : Option (Nat → UInt8)) (addrlen : Nat)
  | accept (fd : Int)
  | read (fd : Int) (len : Nat)
  | write (fd : Int) (buf : Nat → UInt8) (len : Nat)
  | sendmsg (fd : Int) (msg : Option MsgHdr)
  | recvmsg (fd : Int) (msg : Option MsgHdr)
  | close (fd : Int)
  | fcntl (fd cmd : Int) (arg : Nat)
  | poll (fd : Int) (events : Nat)
  | file (op : VfsOp)

/-- A call that returns at once. -/
def atOnce (x : Net σ × List Ev × Int) : Net σ × List Ev × Reply := (x.1, x.2.1, .ret (.plain x.2.2))

/-- The table after a call, what it logged, and its reply. -/
def Net.call (fs : FrameService σ) (input : DevInput) (fuel : Nat) (n : Net σ) :
    SockOp → Outcome (Net σ × List Ev × Reply)
  | .socket domain type => .done (atOnce (unixSocket n domain type))
  | .socketpair domain type svNull =>
      let (n, log, r, sv) := unixSocketpair n domain type svNull
      .done (n, log, .ret { Ans.plain r with fds := match sv with
        | none => []
        | some (a, b) => [a, b] })
  | .eventfd initval flags => .done (atOnce (unixEventfd n initval flags))
  | .bind fd addr addrlen => do
      let x ← unixBind n fd addr addrlen
      return atOnce x
  | .listen fd =>
      let (n, r) := unixListen n fd
      .done (n, [], .ret (.plain r))
  | .connect fd addr addrlen => .done (atOnce (unixConnect n fd addr addrlen))
  | .accept fd => .done (unixAccept n fd)
  | .read fd len => .done (unixSockRead n fd len)
  | .write fd buf len => .done (atOnce (unixSockWrite n fd buf len))
  | .sendmsg fd msg => do
      let x ← unixSockSendmsg fuel n fd msg
      return atOnce x
  | .recvmsg fd msg => .done (unixSockRecvmsg n fd msg)
  | .close fd => do
      let x ← unixSockClose fs n fd
      return atOnce x
  | .fcntl fd cmd arg =>
      let (n, r) := unixSockFcntl n fd cmd arg
      .done (n, [], .ret (.plain r))
  | .poll fd events => .done (n, [], .ret (.plain (unixSockPoll n fd events)))
  | .file op => do
      let v ← n.vfs.step fs input fuel op
      return ({ n with vfs := v }, [], .ret (.plain 0))

/-- The rest of a call that slept, which is all it does when it is woken. -/
def Net.resume (n : Net σ) : Wait → Net σ × List Ev × Reply
  | .read i len => readFrom n i len
  | .recvmsg i msg => recvFrom n i msg
  | .accept i => acceptFrom n i

/-- **Every call is edits of the table**, unless it is a call into the file system. -/
theorem call_edits {fs : FrameService σ} {input : DevInput} {fuel : Nat} {n n' : Net σ}
    {op : SockOp}
    {log : List Ev} {rep : Reply}
    (hcr : ∀ i, (n.socks i).state = .created → (n.socks i).peerIdx = peerNone)
    (h : n.call fs input fuel op = .done (n', log, rep)) :
    Edits fs n log n' ∨ log = [] ∧ ∃ f v, op = .file f ∧ n.vfs.step fs input fuel f = .done v
      ∧ n' = { n with vfs := v } := by
  cases op with
  | socket domain type => cases h; exact Or.inl (unixSocket_edits rfl)
  | socketpair domain type svNull => cases h; exact Or.inl (unixSocketpair_edits rfl)
  | eventfd initval flags => cases h; exact Or.inl (unixEventfd_edits rfl)
  | bind fd addr addrlen =>
      obtain ⟨⟨m, l, r⟩, hb, h⟩ := Outcome.bind_eq_done h
      cases h
      exact Or.inl (unixBind_edits hb)
  | listen fd => cases h; exact Or.inl (unixListen_edits rfl)
  | connect fd addr addrlen => cases h; exact Or.inl (unixConnect_edits hcr rfl)
  | accept fd => exact Or.inl (unixAccept_edits (Outcome.done.inj h))
  | read fd len => exact Or.inl (unixSockRead_edits (Outcome.done.inj h))
  | write fd buf len => cases h; exact Or.inl (unixSockWrite_edits rfl)
  | sendmsg fd msg =>
      obtain ⟨⟨m, l, r⟩, hs, h⟩ := Outcome.bind_eq_done h
      cases h
      exact Or.inl (unixSockSendmsg_edits hs)
  | recvmsg fd msg => exact Or.inl (unixSockRecvmsg_edits (Outcome.done.inj h))
  | close fd =>
      obtain ⟨⟨m, l, r⟩, hc, h⟩ := Outcome.bind_eq_done h
      cases h
      rcases unixSockClose_cases hc with ⟨rfl, rfl, _⟩ | ⟨i, v, pre, _, hpre, _, rfl, hcl⟩
      · exact Or.inl (.nil _)
      · exact Or.inl (hpre.snoc hcl)
  | fcntl fd cmd arg => cases h; exact Or.inl (unixSockFcntl_edits rfl)
  | poll fd events => cases h; exact Or.inl (.nil n)
  | file f =>
      obtain ⟨v, hv, h⟩ := Outcome.bind_eq_done h
      cases h
      exact Or.inr ⟨rfl, f, v, rfl, hv, rfl⟩

theorem resume_edits {fs : FrameService σ} {n n' : Net σ} {w : Wait} {log : List Ev} {rep : Reply}
    (h : n.resume w = (n', log, rep)) : Edits fs n log n' := by
  cases w with
  | read i len => exact readFrom_edits h
  | recvmsg i msg => exact recvFrom_edits h
  | accept i => exact acceptFrom_edits h

end VnlKernel
