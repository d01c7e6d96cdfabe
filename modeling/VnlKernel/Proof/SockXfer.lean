import VnlKernel.Proof.SockRun

/-!
# Transfers that fail

A call that sends or receives finds out on the way that it cannot go on, and what it has
moved by then stays moved. This module says for each of the three calls when a failure
leaves everything as it was: a write that finds no room at all or room for everything, a
message whose first failure comes before its first byte or descriptor, a receive whose
first buffer without an address is reached with nothing taken or not reached.
-/

namespace VnlKernel

open Bits

variable {σ : Type}

/-- Nothing that a caller who tries again would notice has changed: the bytes and descriptors that
wait in each slot, and the open file descriptors. -/
structure Untouched (n n' : Net σ) : Prop where
  rx : ∀ k, (n'.socks k).rx.toList = (n.socks k).rx.toList
  fdsRx : ∀ k, (n'.socks k).fdsRx.toList = (n.socks k).fdsRx.toList
  isOpen : ∀ fd, (n'.vfs.fds fd).isOpen = (n.vfs.fds fd).isOpen
  entry : ∀ fd, (n.vfs.fds fd).isOpen = true → n'.vfs.fds fd = n.vfs.fds fd

theorem Untouched.refl (n : Net σ) : Untouched n n :=
  ⟨fun _ => rfl, fun _ => rfl, fun _ => rfl, fun _ _ => rfl⟩

/-- How many bytes fit into a slot's ring. -/
def room (s : USock) : Nat := rxCap - 1 - s.rx.toList.length

/-- How many descriptors fit into its queue. -/
def fdRoom (s : USock) : Nat := fdsCap - 1 - s.fdsRx.toList.length

def iovTotal : List IoVec → Nat
  | [] => 0
  | v :: vs => v.len + iovTotal vs

/-- How many bytes come before the first buffer that has a length and no address. -/
def beforeNull : List IoVec → Option Nat
  | [] => none
  | v :: vs =>
      if v.len = 0 then beforeNull vs
      else if v.base.isNone then some 0
      else (beforeNull vs).map (v.len + ·)

/-! ## Bytes to send -/

section Bytes

/-- The result of `push_rx`, and how many bytes it stores. -/
theorem pushRx_result (dst : USock) (data : Nat → UInt8) (len : Nat) :
    ((pushRx dst data len).2.1 = if len ≤ room dst then (len : Int) else -enomem)
      ∧ (pushRx dst data len).2.2.length = min len (room dst) := by
  obtain ⟨h1, _⟩ := RingBuf.pushLoop_spec data len 0 dst.rx
  have hcap : rxCap = 8192 := rfl
  unfold pushRx
  dsimp only
  rw [RingBuf.length_slice, h1]
  refine ⟨?_, rfl⟩
  change (if min len (room dst) = len then toInt32 len else -enomem) = _
  have hroom : room dst ≤ 8191 := by unfold room; omega
  by_cases hlen : len ≤ room dst
  · rw [if_pos hlen, if_pos (by omega), toInt32_of_lt (by omega)]
  · rw [if_neg hlen, if_neg (by omega)]

theorem pushRx_room (dst : USock) (data : Nat → UInt8) (len : Nat) :
    room (pushRx dst data len).1 = room dst - min len (room dst) := by
  obtain ⟨rx, hp, hrx⟩ := pushRx_spec dst data len
  rw [hp]
  change rxCap - 1 - rx.toList.length = _
  rw [hrx, List.length_append, (pushRx_result dst data len).2]
  unfold room
  omega

/-- The buffers can be sent: each has an address, and all of them fit. -/
def Storable (vs : List IoVec) (peer : USock) : Prop := beforeNull vs = none ∧ iovTotal vs ≤ room peer

/-- What the loop over the buffers comes to. -/
theorem sendIovs_result : ∀ (vs : List IoVec) (total : Int) (peer : USock),
    (Storable vs peer → (sendIovs vs total peer).2.2 = .ok (total + iovTotal vs)
        ∧ (sendIovs vs total peer).2.1.length = iovTotal vs)
      ∧ (¬ Storable vs peer → (∃ e, (sendIovs vs total peer).2.2 = .error e ∧ e < 0)
        ∧ (sendIovs vs total peer).2.1.length = min ((beforeNull vs).getD (iovTotal vs))
        (room peer))
  | [], total, peer => by
      refine ⟨fun _ => ⟨by simp [sendIovs, iovTotal], rfl⟩,
        fun hn => absurd ⟨rfl, Nat.zero_le _⟩ hn⟩
  | v :: vs, total, peer => by
      rw [sendIovs]
      by_cases h0 : v.len = 0
      · -- an empty buffer is passed over
        have hb : beforeNull (v :: vs) = beforeNull vs := by rw [beforeNull, if_pos h0]
        have ht : iovTotal (v :: vs) = iovTotal vs := by rw [iovTotal, h0, Nat.zero_add]
        unfold Storable
        rw [if_pos h0, hb, ht]
        exact sendIovs_result vs total peer
      · rw [if_neg h0]
        cases hbase : v.base with
        | none =>
            -- a null buffer ends the loop with nothing stored
            have hb : beforeNull (v :: vs) = some 0 := by
              rw [beforeNull, if_neg h0, if_pos (by rw [hbase]; rfl)]
            unfold Storable
            rw [hb]
            exact ⟨fun hs => absurd hs.1 (by simp), fun _ => ⟨⟨_, rfl, by decide⟩, by simp⟩⟩
        | some data =>
            have hb : beforeNull (v :: vs) = (beforeNull vs).map (v.len + ·) := by
              rw [beforeNull, if_neg h0, if_neg (by rw [hbase]; simp)]
            obtain ⟨hr, hlen⟩ := pushRx_result peer data v.len
            have hroom := pushRx_room peer data v.len
            unfold Storable
            rw [hb, iovTotal]
            dsimp only
            by_cases hfit : v.len ≤ room peer
            · -- this buffer is stored; go on with the room that is left
              rw [if_pos hfit] at hr
              rw [if_neg (by rw [hr]; omega)]
              obtain ⟨h1, h2⟩ := sendIovs_result vs (total + (pushRx peer data v.len).2.1)
                (pushRx peer data v.len).1
              unfold Storable at h1 h2
              rw [hroom, hr] at h1 h2
              rw [hr]
              refine ⟨?_, ?_⟩
              · rintro ⟨hn, hle⟩
                clear h2
                obtain ⟨e1, e2⟩ := h1 ⟨by simpa using hn, by omega⟩
                refine ⟨by rw [e1]; push_cast; rw [add_assoc], ?_⟩
                rw [List.length_append, hlen, e2]
                omega
              · intro hn
                have hleft : ¬ (beforeNull vs = none
                    ∧ iovTotal vs ≤ room peer - min v.len (room peer)) := by
                  rintro ⟨g1, g2⟩
                  exact hn ⟨by simpa using g1, by clear h1 h2; omega⟩
                obtain ⟨e1, e2⟩ := h2 hleft
                refine ⟨e1, ?_⟩
                rw [List.length_append, hlen, e2]
                clear e1 h1 h2
                cases hbn : beforeNull vs with
                | none => simp only [Option.map_none, Option.getD_none]; omega
                | some k => simp only [Option.map_some, Option.getD_some]; omega
            · -- the ring is full before the buffer ends
              rw [if_neg hfit] at hr
              rw [if_pos (by rw [hr]; decide)]
              refine ⟨fun hs => absurd hs.2 (by omega), fun _ => ⟨⟨_, rfl, by rw [hr]; decide⟩, ?_⟩⟩
              dsimp only
              rw [hlen]
              cases hbn : beforeNull vs with
              | none => simp only [Option.map_none, Option.getD_none]; omega
              | some k => simp only [Option.map_some, Option.getD_some]; omega

end Bytes

/-! ## Descriptors to send -/

/-- The descriptors named in the first `fuel` control messages from `offset` on. -/
def rightsAt (control : Nat → UInt8) (controllen : Nat) : Nat → Nat → List Int
  | 0, _ => []
  | fuel + 1, offset =>
      if u64 (offset + cmsghdrSize) ≤ controllen then
        let cmsgLen := ByteMem.read64 control offset
        if cmsgLen < cmsghdrSize ∨ u64 (offset + cmsgLen) > controllen then []
        else
          (if readInt control (offset + 8) = solSocket ∧ readInt control (offset + 12) = scmRights then
            RingBuf.slice (fun f => readInt control (offset + cmsghdrSize + 4 * f)) 0
              ((cmsgLen - cmsghdrSize) / 4)
          else [])
            ++ rightsAt control controllen fuel (u64 (offset + alignUp cmsgLen 8))
      else []

/-- The descriptors a message carries, as far as its first `fuel` control messages. -/
def MsgHdr.rights (msg : MsgHdr) (fuel : Nat) : List Int :=
  match msg.control with
  | none => []
  | some control => if msg.controllen < cmsghdrSize then [] else rightsAt control msg.controllen fuel 0

/-- There is room for these descriptors, and those that are not sockets can be duplicated one after
the other. -/
def CanQueue (n : Net σ) : List Int → Nat → Vfs σ → Prop
  | [], _, _ => True
  | f :: fds, free, v =>
      0 < free ∧
        if unixIsSockfd n f then CanQueue n fds (free - 1) v
        else 0 ≤ (vfsDup v f).2 ∧ CanQueue n fds (free - 1) (vfsDup v f).1

/-- Slot `j` can be sent these descriptors. -/
def Passes (n : Net σ) (j : Nat) (fds : List Int) : Prop := CanQueue n fds (fdRoom (n.socks j)) n.vfs

/-- So many descriptors have been queued for slot `j`, and no bytes have moved. -/
structure Queued (n n' : Net σ) (j m : Nat) : Prop where
  rx : ∀ k, (n'.socks k).rx.toList = (n.socks k).rx.toList
  more : (n'.socks j).fdsRx.toList.length = (n.socks j).fdsRx.toList.length + m

section Rights

variable {n n' : Net σ} {i j : Nat} {log : List Ev} {r : Int}

theorem Queued.trans {n₁ n₂ : Net σ} {a b : Nat} (h : Queued n n₁ j a) (h' : Queued n₁ n₂ j b) :
    Queued n n₂ j (a + b) :=
  ⟨fun k => (h'.rx k).trans (h.rx k), by rw [h'.more, h.more]; omega⟩

theorem Untouched.queued (h : Untouched n n') : Queued n n' j 0 := ⟨h.rx, by rw [h.fdsRx j]; rfl⟩

theorem canQueue_congr {m : Net σ} (h : ∀ k, (m.socks k).used = (n.socks k).used) :
    ∀ (fds : List Int) (free : Nat) (v : Vfs σ), CanQueue m fds free v ↔ CanQueue n fds free v
  | [], _, _ => Iff.rfl
  | f :: fds, free, v => by
      rw [CanQueue, CanQueue, unixIsSockfd_congr h f, canQueue_congr h fds, canQueue_congr h fds]

theorem canQueue_take_one {f : Int} {fds : List Int} {free : Nat} {v : Vfs σ}
    (h : CanQueue n (f :: fds) free v) :
    CanQueue n [f] free v := by
  rw [CanQueue] at h ⊢
  refine ⟨h.1, ?_⟩
  by_cases hs : unixIsSockfd n f = true
  · rw [if_pos hs]; trivial
  · rw [if_neg hs]
    have h2 := h.2
    rw [if_neg hs] at h2
    exact ⟨h2.1, trivial⟩

theorem fdRoom_push {q q' : RingBuf Int fdsCap} {x : Int} (h : q.push x = some q') :
    fdsCap - 1 - q'.toList.length = fdsCap - 1 - q.toList.length - 1
      ∧ 0 < fdsCap - 1 - q.toList.length := by
  have happ := RingBuf.toList_push h
  have hlt := q'.length_lt
  rw [happ, List.length_append, List.length_singleton] at hlt ⊢
  omega

theorem fdRoom_full {q : RingBuf Int fdsCap} {x : Int} (h : q.push x = none) :
    fdsCap - 1 - q.toList.length = 0 := by
  have := q.push_none.mp h
  rw [← RingBuf.length_toList] at this
  omega

/-- Duplicate and close again: the same descriptors are open. -/
theorem close_dup (v : Vfs σ) {f : Int} (h : 0 ≤ (vfsDup v f).2) (fd : Nat) :
    ((vfsClose (vfsDup v f).1 (vfsDup v f).2).1.fds fd).isOpen = (v.fds fd).isOpen
      ∧ ((v.fds fd).isOpen = true → (vfsClose (vfsDup v f).1 (vfsDup v f).2).1.fds fd
        = v.fds fd) := by
  obtain ⟨k, hk, ho, hd⟩ := vfsDup_ok h
  obtain ⟨_, hlt, hfree⟩ := freeFd_some hk
  have hopen : fdOpen (v.setFd k (v.fds f.toNat)) k = true := by
    unfold fdOpen at ho ⊢
    simp only [Bool.and_eq_true, decide_eq_true_eq] at ho
    simp only [Int.toNat_natCast, Vfs.setFd_self, ho.2, Bool.and_true, Bool.and_eq_true,
      decide_eq_true_eq]
    exact ⟨by omega, by exact_mod_cast hlt⟩
  rw [hd]
  unfold vfsClose
  rw [hopen, Bool.not_true, if_neg (by decide), Int.toNat_natCast]
  by_cases hfd : fd = k
  · subst hfd
    rw [Vfs.setFd_self, hfree]
    exact ⟨rfl, fun hc => absurd hc (by decide)⟩
  · rw [Vfs.setFd_ne _ hfd, Vfs.setFd_ne _ hfd]
    exact ⟨rfl, fun _ => rfl⟩

/-- What can be sent once one more descriptor is in the queue. -/
theorem passes_queue {v : Vfs σ} {x : Int} {q : RingBuf Int fdsCap}
    (hq : (n.socks j).fdsRx.push x = some q) (rest : List Int) :
    Passes (Net.setSock { n with vfs := v } j { n.socks j with fdsRx := q }) j rest
      ↔ CanQueue n rest (fdRoom (n.socks j) - 1) v := by
  have hroom : fdRoom { n.socks j with fdsRx := q } = fdRoom (n.socks j) - 1 := (fdRoom_push hq).1
  unfold Passes
  rw [Net.setSock_self, hroom]
  refine canQueue_congr (fun k => ?_) rest _ _
  by_cases hk : k = j
  · rw [hk, Net.setSock_self]
  · rw [Net.setSock_ne _ hk]

theorem queued_setSock {v : Vfs σ} {x : Int} {q : RingBuf Int fdsCap}
    (hq : (n.socks j).fdsRx.push x = some q) :
    Queued n (Net.setSock { n with vfs := v } j { n.socks j with fdsRx := q }) j 1 := by
  refine ⟨fun k => ?_, ?_⟩
  · by_cases hk : k = j
    · rw [hk, Net.setSock_self]
    · rw [Net.setSock_ne _ hk]
  · rw [Net.setSock_self]
    dsimp only
    rw [RingBuf.toList_push hq, List.length_append, List.length_singleton]

/-- All of `l` has been queued. -/
def AllQueued (n n' : Net σ) (j : Nat) (l : List Int) : Prop :=
  (l = [] ∧ n' = n ∨ l ≠ [] ∧ ∃ m, Queued n n' j m ∧ 0 < m)
    ∧ ∀ rest, Passes n j (l ++ rest) ↔ Passes n' j rest

/-- One of `l` has been refused. If it is the first, nothing has changed. -/
def Refused (n n' : Net σ) (j : Nat) (l : List Int) : Prop :=
  (∀ rest, ¬ Passes n j (l ++ rest)) ∧ ∃ f l', l = f :: l'
    ∧ (Untouched n n' ∧ ¬ Passes n j [f] ∨ (∃ m, Queued n n' j m ∧ 0 < m) ∧ Passes n j [f])

theorem AllQueued.nil (n : Net σ) (j : Nat) : AllQueued n n j [] :=
  ⟨Or.inl ⟨rfl, rfl⟩, fun _ => Iff.rfl⟩

theorem AllQueued.queued {l : List Int} (h : AllQueued n n' j l) : ∃ m, Queued n n' j m := by
  rcases h.1 with ⟨_, rfl⟩ | ⟨_, m, hm, _⟩
  · exact ⟨0, (Untouched.refl _).queued⟩
  · exact ⟨m, hm⟩

theorem AllQueued.append {n₁ n₂ : Net σ} {l l' : List Int} (h : AllQueued n n₁ j l)
    (h' : AllQueued n₁ n₂ j l') : AllQueued n n₂ j (l ++ l') := by
  refine ⟨?_, fun rest => ?_⟩
  · rcases h.1 with ⟨rfl, rfl⟩ | ⟨hne, a, ha, hpos⟩
    · exact h'.1
    · obtain ⟨b, hb⟩ := h'.queued
      exact Or.inr ⟨by simp [hne], a + b, ha.trans hb, by omega⟩
  · rw [List.append_assoc]
    exact (h.2 _).trans (h'.2 rest)

/-- The loop stops here. -/
theorem Refused.append {l : List Int} (h : Refused n n' j l) (l' : List Int) :
    Refused n n' j (l ++ l') := by
  obtain ⟨hall, f, l₁, rfl, hend⟩ := h
  exact ⟨fun rest => by rw [List.append_assoc]; exact hall _, f, l₁ ++ l', rfl, hend⟩

/-- The loop goes on and stops later. -/
theorem AllQueued.refused {n₁ n₂ : Net σ} {l l' : List Int} (h : AllQueued n n₁ j l)
    (h' : Refused n₁ n₂ j l') : Refused n n₂ j (l ++ l') := by
  refine ⟨fun rest hc => ?_, ?_⟩
  · rw [List.append_assoc] at hc
    exact h'.1 rest ((h.2 _).mp hc)
  · obtain ⟨hall, f, l₁, rfl, hend⟩ := h'
    rcases h.1 with ⟨rfl, rfl⟩ | ⟨hne, a, ha, hpos⟩
    · exact ⟨f, l₁, rfl, hend⟩
    · -- something is queued already
      obtain ⟨g, l, rfl⟩ := List.exists_cons_of_ne_nil hne
      refine ⟨g, l ++ f :: l₁, rfl, Or.inr ⟨?_, canQueue_take_one ((h.2 []).mpr trivial)⟩⟩
      rcases hend with ⟨hu, _⟩ | ⟨⟨b, hb, _⟩, _⟩
      · exact ⟨a, ha.trans hu.queued, hpos⟩
      · exact ⟨a + b, ha.trans hb, by omega⟩

/-- It is queued: what can be sent after it is what can be sent now. -/
theorem allQueued_one {f x : Int} {v : Vfs σ} {q : RingBuf Int fdsCap}
    (hq : (n.socks j).fdsRx.push x = some q)
    (hf : ∀ rest, Passes n j (f :: rest) ↔ CanQueue n rest (fdRoom (n.socks j) - 1) v) :
    AllQueued n (Net.setSock { n with vfs := v } j { n.socks j with fdsRx := q }) j [f] :=
  ⟨Or.inr ⟨by simp, 1, queued_setSock hq, Nat.one_pos⟩,
    fun rest => (hf rest).trans (passes_queue hq rest).symm⟩

theorem refused_one {f : Int} (hu : Untouched n n') (hf : ∀ rest, ¬ Passes n j (f :: rest)) :
    Refused n n' j [f] :=
  ⟨hf, f, [], rfl, Or.inl ⟨hu, hf []⟩⟩

/-- **One descriptor**: it is queued, or the call ends and nothing has changed. -/
theorem sendFd_result {f : Int} (h : sendFd n i j f = (n', log, r)) :
    r = 0 ∧ AllQueued n n' j [f] ∨ r < 0 ∧ Refused n n' j [f] := by
  have hfull : ∀ {x : Int}, (n.socks j).fdsRx.push x = none → ∀ rest, ¬ Passes n j (f :: rest) := by
    intro x hx rest hp
    have hpos := hp.1
    rw [fdRoom, fdRoom_full hx] at hpos
    exact absurd hpos (by decide)
  unfold sendFd at h
  cases hsock : unixIsSockfd n f with
  | true =>
      simp only [hsock, if_true, Bool.not_true, Bool.false_eq_true, false_and, if_false] at h
      split at h
      · next hx =>
        cases h
        exact Or.inr ⟨by decide, refused_one (.refl n) (hfull hx)⟩
      · next q hq =>
        cases h
        refine Or.inl ⟨rfl, allQueued_one hq fun rest => ?_⟩
        rw [Passes, CanQueue, hsock, if_pos rfl]
        exact and_iff_right (fdRoom_push hq).2
  | false =>
      simp only [hsock, if_false, Bool.not_false, Bool.false_eq_true, true_and] at h
      split at h
      · next hneg =>
        cases h
        refine Or.inr ⟨hneg, refused_one (.refl n) fun rest hp => ?_⟩
        have h2 := hp.2
        rw [hsock, if_neg (by decide)] at h2
        omega
      · next hr =>
        split at h
        · next hx =>
          split at h
          · next hbad =>
            rw [vfsDup_not_sock (by omega)] at hbad
            exact absurd hbad (by decide)
          · cases h
            refine Or.inr ⟨by decide, refused_one ⟨fun _ => rfl, fun _ => rfl, ?_, ?_⟩ (hfull hx)⟩
            · exact fun fd => (close_dup n.vfs (by omega) fd).1
            · exact fun fd => (close_dup n.vfs (by omega) fd).2
        · next q hq =>
          cases h
          refine Or.inl ⟨rfl, allQueued_one hq fun rest => ?_⟩
          rw [Passes, CanQueue, hsock, if_neg (by decide)]
          exact (and_iff_right (fdRoom_push hq).2).trans (and_iff_right (by omega))

/-- **The descriptors of one control message.** -/
theorem sendFds_result (fds : Nat → Int) : ∀ (k f : Nat) {n n' : Net σ} {log : List Ev} {r : Int},
    sendFds i j fds k f n = (n', log, r) →
    r = 0 ∧ AllQueued n n' j (RingBuf.slice fds f k) ∨ r < 0
      ∧ Refused n n' j (RingBuf.slice fds f k)
  | 0, f, n, n', log, r, h => by
      cases h
      exact Or.inl ⟨rfl, .nil n j⟩
  | k + 1, f, n, n', log, r, h => by
      rw [sendFds] at h
      obtain ⟨⟨m, log₁, r₁⟩, hf⟩ : ∃ x, sendFd n i j (fds f) = x := ⟨_, rfl⟩
      rw [hf] at h
      dsimp only at h
      rw [RingBuf.slice_succ, ← List.singleton_append]
      rcases sendFd_result hf with ⟨hr, hq⟩ | ⟨hr, hq⟩
      · rw [if_neg (by omega)] at h
        obtain ⟨⟨m', log₂, r₂⟩, h₂⟩ : ∃ x, sendFds i j fds k (f + 1) m = x := ⟨_, rfl⟩
        rw [h₂] at h
        cases h
        rcases sendFds_result fds k (f + 1) h₂ with ⟨hr₂, hq₂⟩ | ⟨hr₂, hq₂⟩
        · exact Or.inl ⟨hr₂, hq.append hq₂⟩
        · exact Or.inr ⟨hr₂, hq.refused hq₂⟩
      · rw [if_pos hr] at h
        cases h
        exact Or.inr ⟨hr, hq.append _⟩

/-- What the loop over control messages does with the next one, and that its descriptors come first.
-/
theorem rightsAt_succ (i j : Nat) {control : Nat → UInt8} {controllen offset : Nat} (n : Net σ)
    (hoff : u64 (offset + cmsghdrSize) ≤ controllen)
    (hgood : ¬ (ByteMem.read64 control offset < cmsghdrSize
      ∨ u64 (offset + ByteMem.read64 control offset) > controllen)) :
    ∃ l m log r, (r = 0 ∧ AllQueued n m j l ∨ r < 0 ∧ Refused n m j l)
      ∧ (∀ k, rightsAt control controllen (k + 1) offset
        = l ++ rightsAt control controllen k
          (u64 (offset + alignUp (ByteMem.read64 control offset) 8)))
      ∧ ∀ k, sendControl i j control controllen (k + 1) offset n
        = if r < 0 then .done (m, log, r) else do
        let (n', log', r) ← sendControl i j control controllen k
          (u64 (offset + alignUp (ByteMem.read64 control offset) 8)) m
        return (n', log ++ log', r) := by
  by_cases hrights : readInt control (offset + 8) = solSocket
    ∧ readInt control (offset + 12) = scmRights
  · obtain ⟨⟨m, log, r⟩, hs⟩ : ∃ x, sendFds i j
        (fun f => readInt control (offset + cmsghdrSize + 4 * f))
        ((ByteMem.read64 control offset - cmsghdrSize) / 4) 0 n = x := ⟨_, rfl⟩
    refine ⟨_, m, log, r, sendFds_result _ _ _ hs, fun k => ?_, fun k => ?_⟩
    · rw [rightsAt, if_pos hoff]
      dsimp only
      rw [if_neg hgood, if_pos hrights]
    · rw [sendControl, if_pos hoff]
      dsimp only
      rw [if_neg hgood, if_pos hrights, hs]
  · refine ⟨[], n, [], 0, Or.inl ⟨rfl, .nil n j⟩, fun k => ?_, fun k => ?_⟩
    · rw [rightsAt, if_pos hoff]
      dsimp only
      rw [if_neg hgood, if_neg hrights]
    · rw [sendControl, if_pos hoff]
      dsimp only
      rw [if_neg hgood, if_neg hrights]

/-- The loop is over. -/
theorem rightsAt_end {control : Nat → UInt8} {controllen offset : Nat}
    (h : u64 (offset + cmsghdrSize) ≤ controllen → ByteMem.read64 control offset < cmsghdrSize
      ∨ u64 (offset + ByteMem.read64 control offset) > controllen) :
    (∀ k, rightsAt control controllen k offset = [])
      ∧ ∀ i j k (n : Net σ), sendControl i j control controllen (k + 1) offset n
        = .done (n, [], 0) := by
  by_cases hoff : u64 (offset + cmsghdrSize) ≤ controllen
  · refine ⟨fun k => ?_, fun i j k n => ?_⟩
    · cases k with
      | zero => rfl
      | succ k => rw [rightsAt, if_pos hoff]; dsimp only; rw [if_pos (h hoff)]
    · rw [sendControl, if_pos hoff]; dsimp only; rw [if_pos (h hoff)]
  · refine ⟨fun k => ?_, fun i j k n => ?_⟩
    · cases k with
      | zero => rfl
      | succ k => rw [rightsAt, if_neg hoff]
    · rw [sendControl, if_neg hoff]

/-- **The loop over control messages.** -/
theorem sendControl_result {control : Nat → UInt8} {controllen : Nat} :
    ∀ (fuel offset : Nat) {n n' : Net σ} {log : List Ev} {r : Int},
      sendControl i j control controllen fuel offset n = .done (n', log, r) →
      r = 0 ∧ (∀ fuel', Passes n j (rightsAt control controllen fuel' offset))
        ∨ r < 0 ∧ Refused n n' j (rightsAt control controllen fuel offset)
  | 0, offset, n, n', log, r, h => absurd h (by simp [sendControl])
  | fuel + 1, offset, n, n', log, r, h => by
      by_cases hend : u64 (offset + cmsghdrSize) ≤ controllen
        → ByteMem.read64 control offset < cmsghdrSize
          ∨ u64 (offset + ByteMem.read64 control offset) > controllen
      · obtain ⟨hnil, hstop⟩ := rightsAt_end (σ := σ) hend
        rw [hstop] at h
        cases h
        refine Or.inl ⟨rfl, fun fuel' => ?_⟩
        rw [hnil fuel']
        trivial
      · rw [Classical.not_imp] at hend
        obtain ⟨l, m, log₁, r₁, hm, hl, hs⟩ := rightsAt_succ i j n hend.1 hend.2
        rw [hs] at h
        rcases hm with ⟨hr, hq⟩ | ⟨hr, hq⟩
        · rw [if_neg (by omega)] at h
          obtain ⟨⟨m', log₂, r₂⟩, h₂, h⟩ := Outcome.bind_eq_done h
          cases h
          rcases sendControl_result fuel _ h₂ with ⟨hr₂, hp₂⟩ | ⟨hr₂, hq₂⟩
          · refine Or.inl ⟨hr₂, fun fuel' => ?_⟩
            cases fuel' with
            | zero => trivial
            | succ k =>
                rw [hl]
                exact (hq.2 _).mpr (hp₂ k)
          · refine Or.inr ⟨hr₂, ?_⟩
            rw [hl]
            exact hq.refused hq₂
        · rw [if_pos hr] at h
          cases h
          refine Or.inr ⟨hr, ?_⟩
          rw [hl]
          exact hq.append _

/-- If one of the descriptors is refused then the loop ends. -/
theorem sendControl_refuses {control : Nat → UInt8} {controllen : Nat} :
    ∀ (fuel offset : Nat) {n : Net σ}, ¬ Passes n j (rightsAt control controllen fuel offset) →
      ∃ n' log r, sendControl i j control controllen fuel offset n = .done (n', log, r) ∧ r < 0
  | 0, offset, n, h => absurd trivial h
  | fuel + 1, offset, n, h => by
      by_cases hend : u64 (offset + cmsghdrSize) ≤ controllen
        → ByteMem.read64 control offset < cmsghdrSize
          ∨ u64 (offset + ByteMem.read64 control offset) > controllen
      · rw [(rightsAt_end (σ := σ) hend).1] at h
        exact absurd trivial h
      · rw [Classical.not_imp] at hend
        obtain ⟨l, m, log₁, r₁, hm, hl, hs⟩ := rightsAt_succ i j n hend.1 hend.2
        rw [hs]
        rcases hm with ⟨hr, hq⟩ | ⟨hr, hq⟩
        · rw [if_neg (by omega)]
          rw [hl, hq.2] at h
          obtain ⟨n', log, r, h₂, hneg⟩ := sendControl_refuses fuel _ h
          rw [h₂]
          exact ⟨n', log₁ ++ log, r, rfl, hneg⟩
        · rw [if_pos hr]
          exact ⟨m, log₁, r₁, rfl, hr⟩

end Rights

/-! ## Bytes to receive -/

section Receive

/-- `pop_rx` on a ring that holds something. -/
theorem popRx_held {s : USock} (len : Nat) (h : s.rx.toList ≠ []) :
    ∃ rx, popRx s len = some ({ s with rx := rx }, ((s.rx.toList.take len).length : Int),
      s.rx.toList.take len)
      ∧ rx.toList = s.rx.toList.drop len := by
  obtain ⟨h1, h2⟩ := RingBuf.popLoop_spec len s.rx
  have hlt := s.rx.length_lt
  have hcap : rxCap = 8192 := rfl
  refine ⟨(s.rx.popLoop len).2, ?_, h2⟩
  unfold popRx
  rw [if_neg fun hc => h ((RingBuf.toList_eq_nil _).mpr hc.1)]
  dsimp only
  rw [h1, toInt32_of_lt (by rw [List.length_take]; omega)]

/-- The loop over the buffers goes on only while bytes are left. -/
theorem recvIovs_step {v : IoVec} (vs : List IoVec) (total : Int) {s : USock} (h0 : v.len ≠ 0)
    (hb : v.base.isNone = false) (h : s.rx.toList ≠ []) :
    ∃ rx, rx.toList = s.rx.toList.drop v.len ∧ recvIovs (v :: vs) total s
      = if s.rx.toList.length ≤ v.len then
          some ({ s with rx := rx }, s.rx.toList.take v.len,
            .ok (total + (s.rx.toList.take v.len).length))
        else (recvIovs vs (total + v.len) { s with rx := rx }).map
          fun x => (x.1, s.rx.toList.take v.len ++ x.2.1, x.2.2) := by
  obtain ⟨rx, hp, hrx⟩ := popRx_held v.len h
  refine ⟨rx, hrx, ?_⟩
  rw [recvIovs, if_neg h0, if_neg (by rw [hb]; decide), hp]
  dsimp only
  rw [if_neg (by omega)]
  have hempty : rx.tl = rx.hd ↔ s.rx.toList.length ≤ v.len := by
    rw [← RingBuf.toList_eq_nil, hrx, List.drop_eq_nil_iff]
  by_cases hle : s.rx.toList.length ≤ v.len
  · rw [if_pos hle, if_pos (hempty.mpr hle)]
  · rw [if_neg hle, if_neg fun hc => hle (hempty.mp hc), List.length_take,
      Nat.min_eq_left (by omega)]
    cases recvIovs vs (total + v.len) { s with rx := rx } with
    | none => rfl
    | some x => rfl

/-- A total is never negative. -/
theorem recvIovs_ok : ∀ (vs : List IoVec) {total : Int} {s s' : USock} {out : List UInt8} {t : Int},
    0 ≤ total → recvIovs vs total s = some (s', out, .ok t) → 0 ≤ t
  | [], total, s, s', out, t, ht, h => by
      cases h
      exact ht
  | v :: vs, total, s, s', out, t, ht, h => by
      rw [recvIovs] at h
      split at h
      · exact recvIovs_ok vs ht h
      · split at h
        · exact absurd h (by simp)
        · split at h
          · exact absurd h (by simp)
          · split at h
            · exact absurd h (by simp)
            · split at h
              · cases h; omega
              · split at h
                · exact absurd h (by simp)
                · next hr =>
                  cases h
                  exact recvIovs_ok vs (by omega) hr

/-- **Where a receive stops**: at the first buffer without an address, if bytes are left by then. -/
theorem recvIovs_result : ∀ (vs : List IoVec) (total : Int) {s : USock}, s.rx.toList ≠ [] →
    ∃ s' out res, recvIovs vs total s = some (s', out, res)
      ∧ ((∃ e, res = .error e ∧ e < 0 ∧ beforeNull vs = some out.length
        ∧ out.length < s.rx.toList.length)
        ∨ (∃ t, res = .ok t) ∧ ∀ k, beforeNull vs = some k → s.rx.toList.length ≤ k)
  | [], total, s, h =>
      ⟨s, [], .ok total, rfl, Or.inr ⟨⟨total, rfl⟩, fun k hk => absurd hk (by simp [beforeNull])⟩⟩
  | v :: vs, total, s, h => by
      have hpos : 0 < s.rx.toList.length := List.length_pos_iff.mpr h
      by_cases h0 : v.len = 0
      · have hb : beforeNull (v :: vs) = beforeNull vs := by rw [beforeNull, if_pos h0]
        rw [recvIovs, if_pos h0, hb]
        exact recvIovs_result vs total h
      · cases hnull : v.base.isNone with
        | true =>
            have hb : beforeNull (v :: vs) = some 0 := by rw [beforeNull, if_neg h0, if_pos hnull]
            rw [recvIovs, if_neg h0, if_pos hnull, hb]
            exact ⟨s, [], _, rfl, Or.inl ⟨_, rfl, by decide, rfl, hpos⟩⟩
        | false =>
            have hb : beforeNull (v :: vs) = (beforeNull vs).map (v.len + ·) := by
              rw [beforeNull, if_neg h0, if_neg (by rw [hnull]; decide)]
            obtain ⟨rx, hrx, hstep⟩ := recvIovs_step vs total h0 hnull h
            rw [hstep, hb]
            -- the ring is empty before the buffer is full, or the loop goes on
            by_cases hle : s.rx.toList.length ≤ v.len
            · rw [if_pos hle]
              refine ⟨_, _, _, rfl, Or.inr ⟨⟨_, rfl⟩, fun k hk => ?_⟩⟩
              obtain ⟨k', _, rfl⟩ := Option.map_eq_some_iff.mp hk
              omega
            · rw [if_neg hle]
              have hlen : rx.toList.length
                = s.rx.toList.length - v.len := by rw [hrx, List.length_drop]
              have hne : rx.toList ≠ [] := by
                rw [← List.length_pos_iff, hlen]
                omega
              have htake : (s.rx.toList.take v.len).length = v.len := by
                rw [List.length_take]
                omega
              obtain ⟨s', out, res, hr, hres⟩ := recvIovs_result vs (total + v.len)
                (s := { s with rx := rx }) hne
              rw [hr]
              refine ⟨s', s.rx.toList.take v.len ++ out, res, rfl, ?_⟩
              rw [List.length_append, htake]
              dsimp only at hres
              rw [hlen] at hres
              rcases hres with ⟨e, he, hneg, hk, hlt⟩ | ⟨hok, hk⟩
              · exact Or.inl ⟨e, he, hneg, by rw [hk]; rfl, by omega⟩
              · refine Or.inr ⟨hok, fun k hc => ?_⟩
                obtain ⟨k', hk', rfl⟩ := Option.map_eq_some_iff.mp hc
                have := hk k' hk'
                omega

end Receive

/-! ## The three calls -/

/-- A write finds no room at all, or room for everything. -/
def WritesWhole (n : Net σ) (fd : Int) (len : Nat) : Prop :=
  ∀ i j, sendTo n fd = .ok (i, j) → room (n.socks j) = 0 ∨ len ≤ room (n.socks j)

/-- If the buffers cannot all be stored then the first byte cannot; if they can then all descriptors
can be queued, or there are no bytes and the first descriptor is refused. -/
def SendsWhole (n : Net σ) (fd : Int) (msg : Option MsgHdr) : Prop :=
  ∀ i j m, sendTo n fd = .ok (i, j) → msg = some m →
    (¬ Storable m.iov (n.socks j) → room (n.socks j) = 0 ∨ beforeNull m.iov = some 0)
    ∧ (Storable m.iov (n.socks j) → ∀ fuel, Passes n j (m.rights fuel)
      ∨ iovTotal m.iov = 0 ∧ ¬ Passes n j ((m.rights fuel).take 1))

/-- The first buffer without an address comes before the first byte, or after all that waits. -/
def RecvsWhole (s : USock) (msg : MsgHdr) : Prop :=
  ∀ k, beforeNull msg.iov = some k → k = 0 ∨ s.rx.toList.length ≤ k

section Calls

variable {n n' : Net σ}

/-- Bytes have been stored or taken: that can be seen. -/
theorem not_untouched_rx (j : Nat) (h : (n'.socks j).rx.toList.length ≠
    (n.socks j).rx.toList.length) :
    ¬ Untouched n n' := fun hu => h (congrArg List.length (hu.rx j))

theorem untouched_setSock {j : Nat} {rx : RingBuf UInt8 rxCap}
    (h : rx.toList = (n.socks j).rx.toList) :
    Untouched n (n.setSock j { n.socks j with rx := rx }) := by
  refine ⟨fun k => ?_, fun k => ?_, fun _ => rfl, fun _ _ => rfl⟩
  · by_cases hk : k = j
    · rw [hk, Net.setSock_self]; exact h
    · rw [Net.setSock_ne _ hk]
  · by_cases hk : k = j
    · rw [hk, Net.setSock_self]
    · rw [Net.setSock_ne _ hk]

theorem Untouched.trans {n₁ n₂ : Net σ} (h : Untouched n n₁) (h' : Untouched n₁ n₂) :
    Untouched n n₂ where
  rx k := (h'.rx k).trans (h.rx k)
  fdsRx k := (h'.fdsRx k).trans (h.fdsRx k)
  isOpen fd := (h'.isOpen fd).trans (h.isOpen fd)
  entry fd ho := (h'.entry fd (by rw [h.isOpen]; exact ho)).trans (h.entry fd ho)

theorem unixSockWrite_whole (fd : Int) (buf : Nat → UInt8) (len : Nat) :
    (∀ n' log r, unixSockWrite n fd buf len = (n', log, r) → r < 0 → Untouched n n')
      ↔ WritesWhole n fd len := by
  unfold unixSockWrite
  cases hs : sendTo n fd with
  | error e =>
      refine ⟨fun _ i j hc => absurd (hs.symm.trans hc) (by simp), fun _ n' log r h _ => ?_⟩
      cases h
      exact .refl n
  | ok p =>
      obtain ⟨i, j⟩ := p
      obtain ⟨rx, hp, hrx⟩ := pushRx_spec (n.socks j) buf len
      obtain ⟨hr, hlen⟩ := pushRx_result (n.socks j) buf len
      dsimp only
      rw [hp, hr]
      refine ⟨fun hall i' j' hc => ?_, fun hw n' log r h hneg => ?_⟩
      · obtain ⟨rfl, rfl⟩ : i = i' ∧ j = j' := by
          have := hs.symm.trans hc
          cases this
          exact ⟨rfl, rfl⟩
        by_contra hbad
        rw [not_or] at hbad
        refine not_untouched_rx j ?_ (hall _ _ _ rfl (by rw [if_neg hbad.2]; decide))
        rw [Net.setSock_self]
        dsimp only
        rw [hrx, List.length_append, hlen]
        omega
      · cases h
        refine untouched_setSock ?_
        rcases hw i j hs with h0 | hfit
        · have hnil : (pushRx (n.socks j) buf len).2.2 = [] := by
            rw [← List.length_eq_zero_iff, hlen, h0]
            omega
          rw [hrx, hnil, List.append_nil]
        · rw [if_pos hfit] at hneg
          omega

/-- Bytes that wait for `j` do not matter to descriptors. -/
theorem passes_stored {j : Nat} (rx : RingBuf UInt8 rxCap) (fds : List Int) :
    Passes (n.setSock j { n.socks j with rx := rx }) j fds ↔ Passes n j fds := by
  unfold Passes
  rw [Net.setSock_self]
  refine canQueue_congr (fun k => ?_) fds _ _
  by_cases hk : k = j
  · rw [hk, Net.setSock_self]
  · rw [Net.setSock_ne _ hk]

/-- The buffers are stored and then a descriptor is refused: that goes unnoticed if there were no
bytes and it was the first. -/
theorem untouched_refused {j : Nat} {rx : RingBuf UInt8 rxCap} {stored : List UInt8} {l : List Int}
    (hrx : rx.toList = (n.socks j).rx.toList ++ stored)
    (h : Refused (n.setSock j { n.socks j with rx := rx }) n' j l) :
    Untouched n n' ↔ stored.length = 0 ∧ ¬ Passes n j (l.take 1) := by
  obtain ⟨_, f, l', rfl, hend⟩ := h
  rw [passes_stored] at hend
  change _ ↔ _ ∧ ¬ Passes n j [f]
  have hself : (n.setSock j { n.socks j with rx := rx }).socks j = { n.socks j with rx := rx } :=
    Net.setSock_self _
  refine ⟨fun hu => ?_, fun hc => ?_⟩
  · -- neither more bytes nor more descriptors than before
    have hbytes : (n'.socks j).rx.toList = (n.socks j).rx.toList ++ stored := by
      rcases hend with ⟨hu', _⟩ | ⟨⟨m, hq, _⟩, _⟩
      · rw [hu'.rx j, hself, ← hrx]
      · rw [hq.rx j, hself, ← hrx]
    have hlen := congrArg List.length ((hu.rx j).symm.trans hbytes)
    rw [List.length_append] at hlen
    refine ⟨by omega, ?_⟩
    rcases hend with ⟨_, hno⟩ | ⟨⟨m, hq, hpos⟩, _⟩
    · exact hno
    · have hmore := hq.more
      rw [hself, hu.fdsRx j] at hmore
      dsimp only at hmore
      omega
  · rcases hend with ⟨hu, _⟩ | ⟨_, hone⟩
    · have hnil : stored = [] := List.length_eq_zero_iff.mp hc.1
      exact (untouched_setSock (by rw [hrx, hnil, List.append_nil])).trans hu
    · exact absurd hone hc.2

/-- Not all buffers can be stored: nothing is if there is no room, or no address to begin with. -/
theorem stored_nothing {vs : List IoVec} {peer : USock} (h : ¬ Storable vs peer) :
    (sendIovs vs 0 peer).2.1.length = 0 ↔ room peer = 0 ∨ beforeNull vs = some 0 := by
  rw [((sendIovs_result vs 0 peer).2 h).2]
  cases hb : beforeNull vs with
  | none =>
      have hbig : ¬ iovTotal vs ≤ room peer := fun hle => h ⟨hb, hle⟩
      simp only [Option.getD_none, reduceCtorEq, or_false]
      omega
  | some k =>
      simp only [Option.getD_some, Option.some.injEq]
      omega

/-- `unix_sock_sendmsg` when the buffers cannot be stored. -/
theorem sendmsg_unstored {fd : Int} {i j : Nat} {m : MsgHdr} (hs : sendTo n fd = .ok (i, j))
    (h : ¬ Storable m.iov (n.socks j)) : ∃ rx stored e,
      rx.toList = (n.socks j).rx.toList ++ stored
        ∧ stored.length = (sendIovs m.iov 0 (n.socks j)).2.1.length
      ∧ e < 0 ∧ ∀ fuel, unixSockSendmsg fuel n fd (some m)
        = .done (n.setSock j { n.socks j with rx := rx }, [.pushed i j stored], e) := by
  obtain ⟨rx, hp, hrx⟩ := sendIovs_spec m.iov 0 (n.socks j)
  obtain ⟨⟨e, he, hneg⟩, _⟩ := (sendIovs_result m.iov 0 (n.socks j)).2 h
  refine ⟨rx, _, e, hrx, rfl, hneg, fun fuel => ?_⟩
  unfold unixSockSendmsg
  rw [hs]
  dsimp only
  rw [he, hp]

/-- `unix_sock_sendmsg` when they can. -/
theorem sendmsg_stored {fd : Int} {i j : Nat} {m : MsgHdr} (hs : sendTo n fd = .ok (i, j))
    (h : Storable m.iov (n.socks j)) : ∃ rx stored,
      rx.toList = (n.socks j).rx.toList ++ stored ∧ stored.length = iovTotal m.iov
      ∧ ((∀ fuel, m.rights fuel = [] ∧ ∃ log, unixSockSendmsg fuel n fd (some m)
          = .done (n.setSock j { n.socks j with rx := rx }, log, iovTotal m.iov))
        ∨ ∃ control, (∀ fuel, m.rights fuel = rightsAt control m.controllen fuel 0)
          ∧ ∀ fuel, unixSockSendmsg fuel n fd (some m) = do
            let (n, log, r) ← sendControl i j control m.controllen fuel 0
              (n.setSock j { n.socks j with rx := rx })
            return (n, .pushed i j stored :: log,
                if r < 0 then r else (iovTotal m.iov : Int))) := by
  obtain ⟨rx, hp, hrx⟩ := sendIovs_spec m.iov 0 (n.socks j)
  obtain ⟨hok, hlen⟩ := (sendIovs_result m.iov 0 (n.socks j)).1 h
  rw [zero_add] at hok
  refine ⟨rx, _, hrx, hlen, ?_⟩
  unfold unixSockSendmsg MsgHdr.rights
  rw [hs]
  dsimp only
  rw [hok, hp]
  cases hc : m.control with
  | none => exact Or.inl fun fuel => ⟨rfl, _, rfl⟩
  | some control =>
      by_cases hshort : m.controllen < cmsghdrSize
      · refine Or.inl fun fuel => ⟨if_pos hshort, [.pushed i j (sendIovs m.iov 0 (n.socks j)).2.1],
          ?_⟩
        dsimp only
        rw [if_pos hshort]
      · refine Or.inr ⟨control, fun fuel => if_neg hshort, fun fuel => ?_⟩
        dsimp only
        rw [if_neg hshort]

theorem unixSockSendmsg_whole (fd : Int) (msg : Option MsgHdr) :
    (∀ fuel n' log r, unixSockSendmsg fuel n fd msg = .done (n', log, r) → r < 0 → Untouched n n')
      ↔ SendsWhole n fd msg := by
  cases hs : sendTo n fd with
  | error e =>
      refine ⟨fun _ i j m hc => absurd (hs.symm.trans hc) (by simp), fun _ fuel n' log r h _ => ?_⟩
      unfold unixSockSendmsg at h
      rw [hs] at h
      cases h
      exact .refl n
  | ok p =>
    obtain ⟨i, j⟩ := p
    cases msg with
    | none =>
        refine ⟨fun _ _ _ m _ hc => absurd hc (by simp), fun _ fuel n' log r h _ => ?_⟩
        unfold unixSockSendmsg at h
        rw [hs] at h
        cases h
        exact .refl n
    | some m =>
        have hwhole : SendsWhole n fd (some m) ↔
            (¬ Storable m.iov (n.socks j) → room (n.socks j) = 0 ∨ beforeNull m.iov = some 0)
            ∧ (Storable m.iov (n.socks j) → ∀ fuel, Passes n j (m.rights fuel)
              ∨ iovTotal m.iov = 0 ∧ ¬ Passes n j ((m.rights fuel).take 1)) := by
          refine ⟨fun h => h i j m hs rfl, fun h i' j' m' hc hm => ?_⟩
          rw [hs] at hc
          cases hc
          cases hm
          exact h
        rw [hwhole]
        -- what is stored is stored before the descriptors are looked at
        by_cases hst : Storable m.iov (n.socks j)
        · rw [and_iff_right fun hn => absurd hst hn, forall_prop_of_true hst]
          obtain ⟨rx, stored, hrx, hlen, hcase⟩ := sendmsg_stored hs hst
          rcases hcase with hplain | ⟨control, hrights, hmsg⟩
          · -- no descriptors: the call does not fail
            refine ⟨fun _ fuel => Or.inl (by rw [(hplain fuel).1]; trivial),
              fun _ fuel n' log r h hneg => ?_⟩
            obtain ⟨_, log', hdone⟩ := hplain fuel
            rw [hdone] at h
            cases h
            omega
          · -- descriptors: refused ones leave the bytes where they are
            simp only [hrights, hmsg]
            refine ⟨fun hall fuel => ?_, fun hall fuel n' log r h hneg => ?_⟩
            · by_contra hbad
              rw [not_or] at hbad
              obtain ⟨n', log, r, hc, hneg⟩ := sendControl_refuses (i := i) fuel 0
                (fun hp => hbad.1 ((passes_stored rx _).mp hp))
              have hu : Untouched n n' := by
                refine hall fuel n' (.pushed i j stored :: log) r ?_ hneg
                rw [hc]
                change Outcome.done _ = _
                rw [if_pos hneg]
              rcases sendControl_result fuel 0 hc with ⟨hr, _⟩ | ⟨_, href⟩
              · omega
              · rw [untouched_refused hrx href, hlen] at hu
                exact hbad.2 hu
            · obtain ⟨⟨m', log', r'⟩, hc, h⟩ := Outcome.bind_eq_done h
              cases h
              rcases sendControl_result fuel 0 hc with ⟨hr, _⟩ | ⟨_, href⟩
              · dsimp only at hneg hr
                rw [if_neg (by omega)] at hneg
                omega
              · rw [untouched_refused hrx href, hlen]
                rcases hall fuel with hp | hp
                · exact absurd ((passes_stored rx _).mpr (by rwa [List.append_nil])) (href.1 [])
                · exact hp
        · rw [and_iff_left fun h => absurd h hst, forall_prop_of_true hst, ← stored_nothing hst]
          obtain ⟨rx, stored, e, hrx, hlen, hneg, hdone⟩ := sendmsg_unstored hs hst
          rw [← hlen]
          -- a null buffer: what went before it is stored all the same
          refine ⟨fun hall => ?_, fun h0 fuel n' log r h _ => ?_⟩
          · have hu := hall 0 _ _ _ (hdone 0) hneg
            have hbytes := congrArg List.length (hu.rx j)
            rw [Net.setSock_self] at hbytes
            dsimp only at hbytes
            rw [hrx, List.length_append] at hbytes
            omega
          · rw [hdone] at h
            cases h
            refine untouched_setSock ?_
            rw [hrx, List.length_eq_zero_iff.mp h0, List.append_nil]

/-- A receive that fails has only taken bytes. -/
theorem recvFrom_failed {i : Nat} {msg : MsgHdr} {log : List Ev} {a : Ans}
    (h : recvFrom n i msg = (n', log, .ret a)) (hneg : a.ret < 0) :
    ∃ rx out e, recvIovs msg.iov 0 (n.socks i) = some ({ n.socks i with rx := rx }, out, .error e)
      ∧ (n.socks i).rx.toList = out ++ rx.toList
          ∧ n' = n.setSock i { n.socks i with rx := rx } := by
  unfold recvFrom at h
  split at h
  · exact absurd h (by simp)
  · next s out e hr =>
    obtain ⟨rx, rfl, hrx⟩ := recvIovs_spec msg.iov 0 hr
    cases h
    exact ⟨rx, out, e, hr, hrx, rfl⟩
  · next s out total hr =>
    have hpos : 0 ≤ total := recvIovs_ok msg.iov (le_refl 0) hr
    split at h
    · cases h; exact absurd hneg (by dsimp only; omega)
    · cases h; exact absurd hneg (by dsimp only; omega)

theorem recvFrom_whole (i : Nat) (msg : MsgHdr) :
    (∀ n' log a, recvFrom n i msg = (n', log, .ret a) → a.ret < 0 → Untouched n n')
      ↔ RecvsWhole (n.socks i) msg := by
  refine ⟨fun hall k hk => ?_, fun hw n' log a h hneg => ?_⟩
  · by_contra hbad
    rw [not_or, not_le] at hbad
    have hne : (n.socks i).rx.toList ≠ [] := by
      rw [← List.length_pos_iff]
      omega
    obtain ⟨s', out, res, hr, hres⟩ := recvIovs_result msg.iov 0 hne
    obtain ⟨rx, rfl, hrx⟩ := recvIovs_spec msg.iov 0 hr
    rcases hres with ⟨e, rfl, hneg, hk', _⟩ | ⟨_, hk'⟩
    · have hout : out.length = k := Option.some.inj (hk'.symm.trans hk)
      refine not_untouched_rx i ?_ (hall (n.setSock i { n.socks i with rx := rx }) [.popped i out]
        { Ans.plain e with bytes := out } (by unfold recvFrom; rw [hr]) hneg)
      rw [Net.setSock_self, hrx, List.length_append]
      dsimp only
      omega
    · exact absurd (hk' k hk) (by omega)
  · obtain ⟨rx, out, e, hr, hrx, rfl⟩ := recvFrom_failed h hneg
    refine untouched_setSock ?_
    have hnil : out = [] := by
      by_cases hempty : (n.socks i).rx.toList = []
      · rw [hempty] at hrx
        exact (List.append_eq_nil_iff.mp hrx.symm).1
      · obtain ⟨s', out', res, hr', hres⟩ := recvIovs_result msg.iov 0 hempty
        rw [hr] at hr'
        cases hr'
        rcases hres with ⟨_, _, _, hk, hlt⟩ | ⟨⟨t, ht⟩, _⟩
        · rcases hw _ hk with h0 | hle
          · exact List.length_eq_zero_iff.mp h0
          · omega
        · exact absurd ht (by simp)
    rw [hrx, hnil, List.nil_append]

theorem unixSockRecvmsg_whole (fd : Int) (msg : Option MsgHdr) :
    (∀ n' log a, unixSockRecvmsg n fd msg = (n', log, .ret a) → a.ret < 0 → Untouched n n')
      ↔ ∀ i m, sockOf n fd = some i → (n.socks i).state = .connected → msg = some m →
        RecvsWhole (n.socks i) m := by
  unfold unixSockRecvmsg
  cases hs : sockOf n fd with
  | none =>
      refine ⟨fun _ i m hc => absurd hc (by simp), fun _ n' log a h _ => ?_⟩
      cases h
      exact .refl n
  | some i =>
      dsimp only
      by_cases hst : (n.socks i).state = .connected
      · rw [if_neg (not_not.mpr hst)]
        cases msg with
        | none =>
            refine ⟨fun _ i m _ _ hc => absurd hc (by simp), fun _ n' log a h _ => ?_⟩
            cases h
            exact .refl n
        | some m =>
            rw [recvFrom_whole]
            refine ⟨fun h i' m' hi _ hm => ?_, fun h => h i m rfl hst rfl⟩
            cases hi
            cases hm
            exact h
      · rw [if_pos hst]
        refine ⟨fun _ i' m hi hc => ?_, fun _ n' log a h _ => ?_⟩
        · cases hi
          exact absurd hc hst
        · cases h
          exact .refl n

end Calls

/-- **When a failed transfer has no effect**, for each of the calls and for a receive that has
slept. -/
theorem failed_transfers (n : Net σ) :
    (∀ fd buf len, (∀ n' log r, unixSockWrite n fd buf len = (n', log, r) → r < 0 → Untouched n n')
        ↔ WritesWhole n fd len)
      ∧ (∀ fd msg, (∀ fuel n' log r, unixSockSendmsg fuel n fd msg = .done (n', log, r) → r < 0 →
          Untouched n n') ↔ SendsWhole n fd msg)
      ∧ (∀ fd msg, (∀ n' log a, unixSockRecvmsg n fd msg = (n', log, .ret a) → a.ret < 0 → Untouched n n')
        ↔ ∀ i m, sockOf n fd = some i → (n.socks i).state = .connected → msg = some m →
          RecvsWhole (n.socks i) m)
      ∧ ∀ i msg, (∀ n' log a, n.resume (.recvmsg i msg) = (n', log, .ret a) → a.ret < 0 → Untouched n n')
        ↔ RecvsWhole (n.socks i) msg :=
  ⟨unixSockWrite_whole, unixSockSendmsg_whole, unixSockRecvmsg_whole, recvFrom_whole⟩

/-- A message of one byte and a buffer without an address, sent through a pair that has just been
opened: the call fails, and the byte waits at the other end. -/
theorem failed_send_stores : ∃ s : Sys Nat, ∃ n' log r, Run.Reach Sys.Boots (Sys.Steps zeroedService) s
    ∧ unixSockSendmsg 1 s.net 128 (some ⟨[⟨some fun _ => 0x61, 1⟩, ⟨none, 1⟩], none, 0⟩) = .done (n', log, r)
    ∧ r < 0 ∧ (s.net.socks 1).rx.toList = [] ∧ (n'.socks 1).rx.toList = [0x61] ∧ ¬ Untouched s.net n' := by
  have hrun : (do
      let (s, _) ← bootSys.run zeroedService noInput 0 [.call (.socketpair 1 1 false)]
      let (n', _, r) ← unixSockSendmsg 1 (Sys.net s) 128
        (some ⟨[⟨some fun _ => 0x61, 1⟩, ⟨none, 1⟩], none, 0⟩)
      return decide (r < 0 ∧ (s.net.socks 1).rx.toList = [] ∧ (n'.socks 1).rx.toList = [0x61]))
      = .done true := by
    decide +kernel
  obtain ⟨⟨s, anss⟩, hs, hrun⟩ := Outcome.bind_eq_done hrun
  obtain ⟨⟨n', log, r⟩, hm, hd⟩ := Outcome.bind_eq_done hrun
  obtain ⟨hneg, h0, h1⟩ := of_decide_eq_true (Outcome.done.inj hd)
  refine ⟨s, n', log, r, run_reach (fun _ _ _ => trivial) (.start bootSys_boots) hs, hm, hneg, h0,
    h1, ?_⟩
  exact not_untouched_rx 1 (by rw [h0, h1]; decide)

end VnlKernel
