import VnlKernel.Proof.SockAccept

/-!
# What poll reports

Whether a socket is ready is computed by formulas of its own, and the calls that sleep look
at their slot with others. For a connected socket the two agree at every position of its
rings. A socket without a peer is always reported as readable, so a listener is, whether or
not anyone waits in its queue.
-/

namespace VnlKernel

open Run Bits

variable {σ : Type}

/-- The call returns, and not to say that it would have to wait. -/
def Reply.Prompt : Reply → Prop
  | .ret a => a.ret ≠ -eagain
  | .sleep _ => False

/-- The next call that takes something from the socket in slot `i` is prompt. A socket that is
neither connected nor listening has no such call, and `idle` says whether it counts as readable. -/
def Readable (n : Net σ) (fd : Int) (i : Nat) (idle : Prop) : Prop :=
  match (n.socks i).state with
  | .listening => (unixAccept n fd).2.2.Prompt
  | .connected => ∀ len, (unixSockRead n fd len).2.2.Prompt
  | _ => idle

/-- The next write of one byte succeeds, whatever the byte. -/
def Writable (n : Net σ) (fd : Int) : Prop := ∀ buf, (unixSockWrite n fd buf 1).2.2 = 1

/-- Poll reports what it is asked for where it is the case, and nowhere else. -/
def PollTruthful (n : Net σ) (fd : Int) (i : Nat) (idle : Prop) : Prop :=
  ∀ events,
    (hasFlag (unixSockPoll n fd events) pollIn ↔ hasFlag events pollIn ∧ Readable n fd i idle)
      ∧ (hasFlag (unixSockPoll n fd events) pollOut ↔ hasFlag events pollOut ∧ Writable n fd)

/-! ## The three bits -/

section Poll

variable {n : Net σ} {fd : Int} {i : Nat}

/-- Bits that come from different conditions do not disturb each other. -/
theorem hasFlag_bits (p q r : Prop) [Decidable p] [Decidable q] [Decidable r] :
    (hasFlag ((if p then pollIn else 0) ||| (if q then pollOut else 0) ||| if r then pollHup else 0)
        pollIn = true ↔ p)
      ∧ (hasFlag ((if p then pollIn else 0) ||| (if q then pollOut else 0)
        ||| if r then pollHup else 0) pollOut = true ↔ q) := by
  by_cases hp : p
  all_goals by_cases hq : q
  all_goals by_cases hr : r
  all_goals simp [hp, hq, hr, hasFlag, pollIn, pollOut, pollHup]

/-- The free space that poll computes is what the ring has room for. -/
theorem freeSpace_pos (r : RingBuf UInt8 rxCap) :
    0 < (r.tl.val + rxCap - 1 - r.hd.val) % rxCap ↔ r.toList.length + 1 < rxCap := by
  have h1 := r.hd.isLt
  have h2 := r.tl.isLt
  have hcap : rxCap = 8192 := rfl
  rw [RingBuf.length_toList, r.count_eq]
  split
  · next hle =>
    rw [Nat.mod_eq_of_lt (by omega)]
    omega
  · next hle =>
    rw [show r.tl.val + rxCap - 1 - r.hd.val = r.tl.val - 1 - r.hd.val + rxCap by omega,
      Nat.add_mod_right, Nat.mod_eq_of_lt (by omega)]
    omega

/-- When the first bit is set. -/
theorem poll_in (hi : sockOf n fd = some i) (events : Nat) :
    hasFlag (unixSockPoll n fd events) pollIn = true ↔ hasFlag events pollIn = true
      ∧ ((n.socks i).rx.toList ≠ [] ∨ (n.socks i).peerIdx = peerNone) := by
  unfold unixSockPoll
  rw [hi]
  dsimp only
  rw [← ite_and, (hasFlag_bits _ _ _).1, Ne, Ne, RingBuf.toList_eq_nil]

/-- When the second bit is set. -/
theorem poll_out (hi : sockOf n fd = some i) (events : Nat) :
    hasFlag (unixSockPoll n fd events) pollOut = true ↔ hasFlag events pollOut = true
      ∧ (n.socks i).peerIdx ≠ peerNone
      ∧ (n.socks (n.socks i).peerIdx.toNat).rx.toList.length + 1 < rxCap := by
  unfold unixSockPoll
  rw [hi]
  dsimp only
  rw [← ite_and, (hasFlag_bits _ _ _).2, gt_iff_lt, freeSpace_pos, and_assoc]

/-! ## The calls -/

/-- Accepting is prompt when someone waits. -/
theorem accept_prompt (hi : sockOf n fd = some i) (hs : (n.socks i).state = .listening) :
    (unixAccept n fd).2.2.Prompt ↔ (n.socks i).nWait ≠ 0 := by
  have hacc : unixAccept n fd = acceptFrom n i := by
    unfold unixAccept
    rw [hi]
    exact if_neg (not_not.mpr hs)
  rw [hacc]
  obtain ⟨n', log, rep, hf⟩ : ∃ n' log rep, acceptFrom n i = (n', log, rep) := ⟨_, _, _, rfl⟩
  rw [hf]
  dsimp only
  rcases acceptFrom_cases hf with
    ⟨_, _, hw, ⟨hr, _⟩ | hr⟩ | ⟨hw, _, ⟨s, _, _, _, _, hr⟩ | ⟨_, _, hr⟩⟩
  · rw [hr]; simp [Reply.Prompt, Ans.plain, hw]
  · rw [hr]; simp [Reply.Prompt, hw]
  · have hfd := fdOf_bounds s
    have hbase : unixSockFdBase = 128 := rfl
    have hagain : eagain = 11 := rfl
    rw [hr]
    simp only [Reply.Prompt, Ans.plain, hw, ne_eq, not_false_eq_true, iff_true]
    omega
  · rw [hr]; simp [Reply.Prompt, Ans.plain, hw, eio, eagain]

/-- Reading is prompt when there is something to read, or nobody who could send it. -/
theorem read_prompt (hi : sockOf n fd = some i) (hs : (n.socks i).state = .connected) :
    (∀ len, (unixSockRead n fd len).2.2.Prompt)
      ↔ (n.socks i).rx.toList ≠ [] ∨ (n.socks i).peerIdx = peerNone := by
  have hread : ∀ len, unixSockRead n fd len = readFrom n i len := by
    intro len
    unfold unixSockRead
    rw [hi]
    exact if_neg (not_not.mpr hs)
  constructor
  · intro h
    by_contra hc
    rw [not_or, not_not] at hc
    have h0 := h 0
    rw [hread] at h0
    unfold readFrom popRx at h0
    rw [if_pos ⟨(RingBuf.toList_eq_nil _).mp hc.1, hc.2⟩] at h0
    by_cases hf : hasFlag (n.socks i).flags oNonblock = true
    · rw [if_pos hf] at h0
      exact h0 rfl
    · rw [if_neg hf] at h0
      exact h0
  · intro h len
    have hwait : ¬((n.socks i).rx.tl = (n.socks i).rx.hd ∧ (n.socks i).peerIdx ≠ peerNone) := by
      rintro ⟨he, hp⟩
      rcases h with h | h
      · exact h ((RingBuf.toList_eq_nil _).mpr he)
      · exact hp h
    have hlt := (n.socks i).rx.length_lt
    have hcap : rxCap = 8192 := rfl
    have hagain : eagain = 11 := rfl
    rw [hread]
    unfold readFrom popRx
    rw [if_neg hwait]
    dsimp only [Reply.Prompt, Ans.plain]
    -- at most a ring full is returned, so the count is no error
    rw [(RingBuf.popLoop_spec len (n.socks i).rx).1, List.length_take, toInt32_of_lt (by omega)]
    omega

/-- One byte is written when there is a peer whose ring is not full. -/
theorem write_one (hp : PeerInv n) (hi : sockOf n fd = some i) :
    Writable n fd ↔ (n.socks i).peerIdx ≠ peerNone
      ∧ (n.socks (n.socks i).peerIdx.toNat).rx.toList.length + 1 < rxCap := by
  have hcap : rxCap = 8192 := rfl
  obtain ⟨_, _, hu⟩ := sockOf_some hi
  by_cases hpeer : (n.socks i).peerIdx = peerNone
  · refine iff_of_false (fun h => ?_) (fun h => h.1 hpeer)
    have h0 := h fun _ => 0
    unfold unixSockWrite sendTo at h0
    rw [hi] at h0
    dsimp only at h0
    rw [if_pos (Or.inr hpeer)] at h0
    have hneg : -enotconn = 1 := h0
    exact absurd hneg (by decide)
  · have hst : sendTo n fd = .ok (i, (n.socks i).peerIdx.toNat) := by
      unfold sendTo
      rw [hi]
      exact if_neg (by rw [not_or, not_not]; exact ⟨hp.connected hu hpeer, hpeer⟩)
    have hwrite : ∀ buf, (unixSockWrite n fd buf 1).2.2
        = if min 1 (rxCap - 1 - (n.socks (n.socks i).peerIdx.toNat).rx.toList.length) = 1
          then 1 else -enomem := by
      intro buf
      unfold unixSockWrite pushRx
      rw [hst]
      dsimp only
      rw [(RingBuf.pushLoop_spec buf 1 0 _).1]
      rfl
    constructor
    · intro h
      refine ⟨hpeer, ?_⟩
      by_contra hfull
      have h0 := h fun _ => 0
      rw [hwrite, if_neg (by omega)] at h0
      exact absurd h0 (by decide)
    · rintro ⟨_, hroom⟩ buf
      rw [hwrite, if_pos (by omega)]

end Poll

/-- **Poll tells the truth** about connected sockets, and about listeners that someone waits for. -/
theorem Sys.poll_truthful_iff {fs : FrameService σ} {s : Sys σ}
    (h : Reach Sys.Boots (Sys.Steps fs) s) {fd : Int} {i : Nat} (hi : sockOf s.net fd = some i)
    (idle : Prop) :
    PollTruthful s.net fd i idle ↔ match (s.net.socks i).state with
      | .listening => (s.net.socks i).nWait ≠ 0
      | .connected => True
      | _ => idle := by
  have hp : PeerInv s.net := reach_peerInv h
  obtain ⟨_, _, hu⟩ := sockOf_some hi
  -- a socket that is not connected has no peer
  have hnone : (s.net.socks i).state ≠ .connected → (s.net.socks i).peerIdx = peerNone := by
    intro hs
    by_contra hne
    exact hs (hp.connected hu hne)
  have hin : ∀ P : Prop, ((s.net.socks i).rx.toList ≠ [] ∨ (s.net.socks i).peerIdx = peerNone ↔ P)
      → (PollTruthful s.net fd i idle ↔ (P ↔ Readable s.net fd i idle)) := by
    intro P hP
    unfold PollTruthful
    simp only [poll_in hi, poll_out hi, write_one hp hi, hP, iff_self, and_true]
    constructor
    · intro hall
      simpa [hasFlag, pollIn] using hall pollIn
    · intro heq events
      rw [heq]
  have hout : (s.net.socks i).state ≠ .connected →
      (PollTruthful s.net fd i idle ↔ Readable s.net fd i idle) := by
    intro hs
    rw [hin True (iff_true_intro (Or.inr (hnone hs))), true_iff]
  cases hs : (s.net.socks i).state with
  | listening =>
      rw [hout (by rw [hs]; decide), Readable, hs]
      exact accept_prompt hi hs
  | connected =>
      rw [hin _ Iff.rfl, Readable, hs]
      dsimp only
      rw [read_prompt hi hs]
      exact iff_true_intro Iff.rfl
  | unused =>
      rw [hout (by rw [hs]; decide), Readable, hs]
  | created =>
      rw [hout (by rw [hs]; decide), Readable, hs]
  | bound =>
      rw [hout (by rw [hs]; decide), Readable, hs]

/-- A fresh pair is polled truthfully at its first end. -/
theorem Sys.poll_truthful_pair : ∃ s : Sys Nat, Reach Sys.Boots (Sys.Steps zeroedService) s
    ∧ sockOf s.net 128 = some 0 ∧ (s.net.socks 0).state = .connected
    ∧ PollTruthful s.net 128 0 False := by
  have hrun : (do
      let (s, _) ← bootSys.run zeroedService noInput 0 [.call (.socketpair 1 1 false)]
      return decide (sockOf s.net 128 = some 0 ∧ (s.net.socks 0).state = SkState.connected))
      = .done true := by
    decide +kernel
  obtain ⟨⟨s, anss⟩, hs, hd⟩ := Outcome.bind_eq_done hrun
  have hd := of_decide_eq_true (Outcome.done.inj hd)
  have hr := run_reach (fun _ _ _ => trivial) (.start bootSys_boots) hs
  refine ⟨s, hr, hd.1, hd.2, (Sys.poll_truthful_iff hr hd.1 False).mpr ?_⟩
  rw [hd.2]
  trivial

/-- A listener that nobody has connected to is reported as readable, and accepting goes to sleep. -/
theorem Sys.poll_listener : ∃ s : Sys Nat, Reach Sys.Boots (Sys.Steps zeroedService) s
    ∧ sockOf s.net 128 = some 0 ∧ (s.net.socks 0).state = .listening
    ∧ unixSockPoll s.net 128 1 = 1 ∧ (∃ w, (unixAccept s.net 128).2.2 = .sleep w)
    ∧ ∀ idle, ¬ PollTruthful s.net 128 0 idle := by
  have hrun : (do
      let (s, _) ← bootSys.run zeroedService noInput 0 [.call (.socket 1 1),
        .call (.bind 128 (unAddr (cstr "/tmp/s")) 8), .call (.listen 128)]
      return decide (sockOf s.net 128 = some 0 ∧ (s.net.socks 0).state = SkState.listening
        ∧ (s.net.socks 0).nWait = 0 ∧ unixSockPoll s.net 128 1 = 1
        ∧ hasFlag (s.net.socks 0).flags oNonblock = false)) = .done true := by
    decide +kernel
  obtain ⟨⟨s, anss⟩, hs, hd⟩ := Outcome.bind_eq_done hrun
  obtain ⟨hi, hst, hw, hpoll, hf⟩ := of_decide_eq_true (Outcome.done.inj hd)
  have hr := run_reach (fun _ _ _ => trivial) (.start bootSys_boots) hs
  have hsleep : (unixAccept s.net 128).2.2 = .sleep (.accept 0) := by
    unfold unixAccept
    rw [hi]
    dsimp only
    rw [if_neg (not_not.mpr hst)]
    unfold acceptFrom
    dsimp only
    rw [if_pos hw, hf]
    rfl
  refine ⟨s, hr, hi, hst, hpoll, ⟨_, hsleep⟩, ?_⟩
  intro idle htrue
  have hin := ((htrue 1).1.mp (by rw [hpoll]; decide)).2
  rw [Readable, hst] at hin
  dsimp only at hin
  rw [hsleep] at hin
  exact hin

end VnlKernel
