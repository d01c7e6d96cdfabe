import VnlKernel.Proof.SockWoken

/-!
# Byte streams, and who else takes from a ring

A call that has slept takes bytes with interrupts on. Two such calls on one slot, or
one and a call that begins meanwhile, can take the same byte. Where nobody else takes
from a slot while a woken call has its tail in hand, and the slot is neither given up
nor handed out then, both directions of a connection are streams.

What has gone through a slot is counted as before, without the descriptors, which
these calls may still mix up.
-/

namespace VnlKernel

open Run RingBuf

variable {σ : Type}

/-! ## Bytes without the descriptors -/

/-- **Rings hold the bytes that are on their way.** -/
structure ByteInv (n : Net σ) (t : Traffic) : Prop where
  flow : ∀ j, (n.socks j).used = true → t.into j = t.taken j ++ (n.socks j).rx.toList
  link : ∀ i j : Nat, (n.socks i).used = true → (n.socks i).peerIdx = j → t.out i = t.into j
  idle : ∀ i, (n.socks i).used = true → (n.socks i).state ≠ .connected →
    t.out i = [] ∧ t.into i = []

/-- The same bytes. -/
structure Traffic.SameBytes (t t' : Traffic) : Prop where
  out : t'.out = t.out
  into : t'.into = t.into
  taken : t'.taken = t.taken

section Bytes

variable {fs : FrameService σ} {n n' : Net σ} {t t' : Traffic} {log : List Ev}

theorem StreamInv.bytes (h : StreamInv n t) : ByteInv n t := ⟨h.flow, h.link, h.idle⟩

theorem ByteInv.congr (h : ByteInv n t) (ht : t.SameBytes t') : ByteInv n t' := by
  obtain ⟨h1, h2, h3⟩ := ht
  refine ⟨?_, ?_, ?_⟩
  · rw [h2, h3]; exact h.flow
  · rw [h1, h2]; exact h.link
  · rw [h1, h2]; exact h.idle

theorem Traffic.SameBytes.reset (h : t.SameBytes t') (i : Nat) :
    (t.reset i).SameBytes (t'.reset i) := by
  obtain ⟨h1, h2, h3⟩ := h
  unfold Traffic.reset
  exact ⟨by rw [h1], by rw [h2], by rw [h3]⟩

/-- What an entry says of the bytes does not depend on the descriptors. -/
theorem Traffic.SameBytes.after (h : t.SameBytes t') (e : Ev) :
    (t.after e).SameBytes (t'.after e) := by
  cases e with
  | opened i => exact h.reset i
  | paired a b => exact (h.reset a).reset b
  | looped i => exact h.reset i
  | linked c s l => exact h.reset s
  | pushed i j bytes =>
      obtain ⟨h1, h2, h3⟩ := h
      exact ⟨by simp only [Traffic.after, h1], by simp only [Traffic.after, h2], h3⟩
  | popped j bytes =>
      obtain ⟨h1, h2, h3⟩ := h
      exact ⟨h1, h2, by simp only [Traffic.after, h3]⟩
  | _ => exact ⟨h.out, h.into, h.taken⟩

theorem Traffic.SameBytes.afterAll (h : t.SameBytes t') :
    (log.foldl Traffic.after t).SameBytes (log.foldl Traffic.after t') := by
  induction log generalizing t t' with
  | nil => exact h
  | cons e log ih => exact ih (h.after e)

/-- The traffic as if the descriptors were all in place. -/
def Traffic.settled (t : Traffic) (n : Net σ) : Traffic :=
  { t with queued := fun j => (n.socks j).fdsRx.toList, fetched := fun _ => [] }

theorem ByteInv.streamInv (h : ByteInv n t) : StreamInv n (t.settled n) :=
  ⟨h.flow, h.link, fun _ _ => rfl, h.idle⟩

/-- Bytes are taken. -/
theorem ByteInv.pop (h : ByteInv n t) {j : Nat} {bytes : List UInt8} {rx : RingBuf UInt8 rxCap}
    (hrx : (n.socks j).rx.toList = bytes ++ rx.toList) :
    ByteInv (n.setSock j { n.socks j with rx := rx }) (t.after (.popped j bytes)) :=
  (h.streamInv.pop hrx).bytes.congr ⟨rfl, rfl, rfl⟩

/-- The rings of bytes and the links are as they were. -/
theorem ByteInv.same (h : ByteInv n t) (hs : SameLinks n n')
    (hrx : ∀ k, (n'.socks k).rx = (n.socks k).rx) : ByteInv n' t where
  flow := by
    intro j hu
    rw [(hs j).1] at hu
    rw [hrx]
    exact h.flow j hu
  link := by
    intro i j hu hp
    rw [(hs i).1] at hu
    rw [(hs i).2.2] at hp
    exact h.link i j hu hp
  idle := by
    intro i hu hst
    rw [(hs i).1] at hu
    rw [(hs i).2.1] at hst
    exact h.idle i hu hst

/-- **One edit keeps it.** -/
theorem ByteInv.edit (h : ByteInv n t) (hp : PeerInv n) {es : List Ev} (he : Edit fs n es n') :
    ByteInv n' (es.foldl Traffic.after t) :=
  (h.streamInv.edit hp he).bytes.congr (Traffic.SameBytes.afterAll ⟨rfl, rfl, rfl⟩)

theorem ByteInv.edits (h : ByteInv n t) (hp : PeerInv n) (he : Edits fs n log n') :
    ByteInv n' (log.foldl Traffic.after t) := by
  have hstep : ∀ (n : Net σ) (es : List Ev) (n' : Net σ) (t : Traffic), PeerInv n ∧ ByteInv n t →
      Allowed Traffic.after (fun _ _ => True) t es → Edit fs n es n' →
      PeerInv n' ∧ ByteInv n' (es.foldl Traffic.after t) :=
    fun _ _ _ _ hi _ he => ⟨hi.1.edit he, hi.2.edit hi.1 he⟩
  exact (Trace.fold hstep he allowed_true ⟨hp, h⟩).2

theorem ByteInv.call {input : DevInput} {fuel : Nat} {op : SockOp} {rep : Reply} (h : ByteInv n t)
    (hp : PeerInv n) (hc : n.call fs input fuel op = .done (n', log, rep)) :
    ByteInv n' (log.foldl Traffic.after t) := by
  rcases call_edits hp.created hc with he | ⟨rfl, _, v, _, _, rfl⟩
  · exact h.edits hp he
  · exact h.same (fun _ => ⟨rfl, rfl, rfl⟩) fun _ => rfl

end Bytes

/-! ## Who takes from a ring -/

/-- The slot whose tail the call has read and not moved yet. -/
def Woken.taking : Woken → Option Nat
  | .pop i _ _ (.take k) => if k.taking then some i else none
  | _ => none

/-- The slot whose tail the call is about to read, to take what is there. -/
def Woken.begins : Woken → Option Nat
  | .pop i _ _ (.take k) => if k.begins then some i else none
  | _ => none

/-- Does the call take bytes from slot `i`, give it up or hand it out? -/
def SockOp.Disturbs (n : Net σ) (op : SockOp) (i : Nat) : Prop :=
  match op with
  | .read fd _ => sockOf n fd = some i ∧ (n.socks i).rx.tl ≠ (n.socks i).rx.hd
  | .recvmsg fd _ => sockOf n fd = some i ∧ (n.socks i).rx.tl ≠ (n.socks i).rx.hd
  | .close fd => sockOf n fd = some i
  | op => i ∈ op.takes n

instance (n : Net σ) (i : Nat) : ∀ op : SockOp, Decidable (op.Disturbs n i)
  | .read _ _ | .recvmsg _ _ => inferInstanceAs (Decidable (_ ∧ _))
  | .close fd => inferInstanceAs (Decidable (sockOf n fd = some i))
  | .socket d t => inferInstanceAs (Decidable (i ∈ (SockOp.socket d t).takes n))
  | .socketpair d t sv => inferInstanceAs (Decidable (i ∈ (SockOp.socketpair d t sv).takes n))
  | .eventfd v f => inferInstanceAs (Decidable (i ∈ (SockOp.eventfd v f).takes n))
  | .connect fd a l => inferInstanceAs (Decidable (i ∈ (SockOp.connect fd a l).takes n))
  | .bind _ _ _ | .listen _ | .accept _ | .write _ _ _ | .sendmsg _ _ | .fcntl _ _ _ | .poll _ _
  | .file _ =>
      inferInstanceAs (Decidable (i ∈ []))

/-- Nobody else takes from a slot while a woken call has its tail in hand, and it is neither given
up nor handed out then. -/
def Tasks.TakesAlone (s : Tasks σ) : Tasks.Act → Prop
  | .call op => ∀ c ∈ s.calls, ∀ i ∈ c.taking, ¬ op.Disturbs s.net i
  | .go k => ∀ c ∈ s.calls[k]?, ∀ i ∈ c.begins, ∀ d ∈ s.calls.eraseIdx k, d.taking ≠ some i

instance (s : Tasks σ) : ∀ act, Decidable (s.TakesAlone act)
  | .call op => inferInstanceAs (Decidable (∀ c ∈ s.calls, ∀ i ∈ c.taking, ¬ op.Disturbs s.net i))
  | .go k => inferInstanceAs (Decidable
      (∀ c ∈ s.calls[k]?, ∀ i ∈ c.begins, ∀ d ∈ s.calls.eraseIdx k, d.taking ≠ some i))

/-! ## What a call leaves of the rings of others -/

section Fed

variable {fs : FrameService σ} {n n' : Net σ} {log : List Ev} {r : Int} {i : Nat}

theorem fed_of_eq {s s' : USock} (h : s'.rx = s.rx) : Fed s.rx s'.rx := by
  rw [h]
  exact Fed.refl _

theorem fed_setSock {j : Nat} {s : USock} (h : i = j → Fed (n.socks i).rx s.rx) :
    Fed (n.socks i).rx ((n.setSock j s).socks i).rx := by
  by_cases hij : i = j
  · subst hij
    rw [Net.setSock_self]
    exact h rfl
  · rw [Net.setSock_ne _ hij]
    exact Fed.refl _

theorem pushRx_fed (dst : USock) (data : Nat → UInt8) (len : Nat) :
    Fed dst.rx (pushRx dst data len).1.rx :=
  Fed.pushLoop data len 0 dst.rx

theorem sendIovs_fed : ∀ (vs : List IoVec) (total : Int) (peer : USock),
    Fed peer.rx (sendIovs vs total peer).1.rx
  | [], _, peer => Fed.refl peer.rx
  | v :: vs, total, peer => by
      rw [sendIovs]
      split
      · exact sendIovs_fed vs total peer
      · split
        · exact Fed.refl peer.rx
        · next data _ =>
          dsimp only
          split
          · exact pushRx_fed peer data v.len
          · exact (pushRx_fed peer data v.len).trans (sendIovs_fed vs _ _)

theorem unixSockSendmsg_fed {fuel : Nat} {fd : Int} {msg : Option MsgHdr}
    (h : unixSockSendmsg fuel n fd msg = .done (n', log, r)) :
    Fed (n.socks i).rx (n'.socks i).rx := by
  unfold unixSockSendmsg at h
  split at h
  · cases h; exact Fed.refl _
  · next k j _ =>
    split at h
    · cases h; exact Fed.refl _
    · next msg =>
      have hpush : Fed (n.socks i).rx
          ((n.setSock j (sendIovs msg.iov 0 (n.socks j)).1).socks i).rx :=
        fed_setSock fun hij => hij ▸ sendIovs_fed msg.iov 0 (n.socks i)
      dsimp only at h
      split at h
      · cases h; exact hpush
      · split at h
        · cases h; exact hpush
        · split at h
          · cases h; exact hpush
          · obtain ⟨⟨m, log₁, r₁⟩, hc, h⟩ := Outcome.bind_eq_done h
            cases h
            obtain ⟨hrest, hrx⟩ := sendControl_storesOnly _ _ hc
            refine hpush.trans (fed_of_eq ?_)
            by_cases hij : i = j
            · rw [hij]; exact hrx
            · rw [hrest i hij]

/-- Nothing is taken from a ring that is empty. -/
theorem popRx_empty {s s' : USock} {len : Nat} {out : List UInt8} (he : s.rx.tl = s.rx.hd)
    (h : popRx s len = some (s', r, out)) : s'.rx = s.rx := by
  unfold popRx at h
  split at h
  · split at h
    · cases h; rfl
    · exact absurd h (by simp)
  · cases h
    cases len with
    | zero => rfl
    | succ m =>
        unfold RingBuf.popLoop RingBuf.pop
        rw [if_pos he]

theorem recvIovs_empty : ∀ (vs : List IoVec) (total : Int) {s s' : USock} {out : List UInt8}
    {res : Except Int Int}, s.rx.tl = s.rx.hd → recvIovs vs total s = some (s', out, res) →
    s'.rx = s.rx
  | [], _, s, s', out, res, _, h => by cases h; rfl
  | v :: vs, total, s, s', out, res, he, h => by
      rw [recvIovs] at h
      split at h
      · exact recvIovs_empty vs total he h
      · split at h
        · cases h; rfl
        · split at h
          · exact absurd h (by simp)
          · next s₁ recvd out₁ hp =>
            have hrx := popRx_empty he hp
            split at h
            · cases h; exact hrx
            · rw [if_pos (by rw [hrx]; exact he)] at h
              cases h
              exact hrx

theorem readFrom_fed {j len : Nat} {rep : Reply}
    (hd : j = i → (n.socks i).rx.tl = (n.socks i).rx.hd) (h : readFrom n j len = (n', log, rep)) :
    Fed (n.socks i).rx (n'.socks i).rx := by
  unfold readFrom at h
  split at h
  · cases h; exact Fed.refl _
  · next s r out hp =>
    cases h
    refine fed_setSock fun hij => fed_of_eq ?_
    subst hij
    exact popRx_empty (hd rfl) hp

theorem recvFrom_fed {j : Nat} {msg : MsgHdr} {rep : Reply}
    (hd : j = i → (n.socks i).rx.tl = (n.socks i).rx.hd) (h : recvFrom n j msg = (n', log, rep)) :
    Fed (n.socks i).rx (n'.socks i).rx := by
  unfold recvFrom at h
  split at h
  · cases h; exact Fed.refl _
  · next s out e hr =>
    cases h
    refine fed_setSock fun hij => fed_of_eq ?_
    subst hij
    exact recvIovs_empty _ _ (hd rfl) hr
  · next s out total hr =>
    have hrx : i = j → s.rx = (n.socks i).rx := by
      rintro rfl
      exact recvIovs_empty _ _ (hd rfl) hr
    split at h
    · cases h; exact fed_setSock fun hij => fed_of_eq (hrx hij)
    · cases h; exact fed_setSock fun hij => fed_of_eq (hrx hij)

theorem acceptFrom_fed {j : Nat} {rep : Reply} (h : acceptFrom n j = (n', log, rep)) :
    Fed (n.socks i).rx (n'.socks i).rx := by
  rcases acceptFrom_cases h with ⟨rfl, _⟩ | ⟨_, rfl, _⟩
  · exact Fed.refl _
  · exact fed_setSock fun hij => fed_of_eq (by rw [hij]; rfl)

theorem setSock_rx {j : Nat} {s : USock} (hs : s.rx = (n.socks j).rx) :
    ((n.setSock j s).socks i).rx = (n.socks i).rx := by
  by_cases hij : i = j
  · rw [hij, Net.setSock_self, hs]
  · rw [Net.setSock_ne _ hij]

theorem shutSlot_rx {j : Nat} (hij : i ≠ j) : ((shutSlot n j).socks i).rx = (n.socks i).rx := by
  rcases shutSlot_ne (n := n) hij with he | ⟨_, _, _, he⟩
  · rw [he]
  · rw [he]

theorem unixBind_rx {fd : Int} {addr : Option (Nat → UInt8)} {addrlen : Nat}
    (h : unixBind n fd addr addrlen = .done (n', log, r)) : (n'.socks i).rx = (n.socks i).rx := by
  unfold unixBind at h
  split at h
  · cases h; rfl
  · split at h
    · cases h; rfl
    · split at h
      · cases h; rfl
      · dsimp only at h
        split at h
        · cases h; exact setSock_rx rfl
        · split at h
          · cases h; exact setSock_rx rfl
          · split at h
            · cases h; exact setSock_rx rfl
            · obtain ⟨⟨v, tfd⟩, _, h⟩ := Outcome.bind_eq_done h
              dsimp only at h
              split at h
              · cases h; exact setSock_rx rfl
              · cases h
                refine (setSock_rx ?_).trans (setSock_rx ?_)
                · rfl
                · rfl

theorem unixSocketpair_fed {domain type : Int} {svNull : Bool} {sv : Option (Int × Int)}
    (hd : i ∉ SockOp.takes n (.socketpair domain type svNull))
    (h : unixSocketpair n domain type svNull = (n', log, r, sv)) :
    Fed (n.socks i).rx (n'.socks i).rx := by
  unfold unixSocketpair at h
  split at h
  · cases h; exact Fed.refl _
  · split at h
    · cases h; exact Fed.refl _
    · split at h
      · cases h; exact Fed.refl _
      · next m a ha =>
        obtain ⟨hfa, rfl⟩ := allocSlot_freeSlot ha
        have hia : i ≠ a := by
          rintro rfl
          exact hd (by simp [SockOp.takes, hfa])
        split at h
        · cases h
          rw [Net.setSock_ne _ hia, Net.setSock_ne _ hia]
          exact Fed.refl _
        · next m b hb =>
          obtain ⟨hfb, rfl⟩ := allocSlot_freeSlot hb
          have hib : i ≠ b := by
            rintro rfl
            exact hd (by simp [SockOp.takes, hfa, hfb])
          cases h
          rw [Net.setSock_ne _ hib, Net.setSock_ne _ hia, Net.setSock_ne _ hib,
            Net.setSock_ne _ hia]
          exact Fed.refl _

theorem unixConnect_fed {fd : Int} {addr : Option (Nat → UInt8)} {addrlen : Nat}
    (hd : i ∉ SockOp.takes n (.connect fd addr addrlen))
    (h : unixConnect n fd addr addrlen = (n', log, r)) : Fed (n.socks i).rx (n'.socks i).rx := by
  have hfree : ∀ s, freeSlot n = some s → i ≠ s := by
    rintro s hs rfl
    exact hd (by simp [SockOp.takes, hs])
  rcases unixConnect_cases h with ⟨rfl, _⟩ | ⟨c, s, _, _, hs, _, _, rfl⟩
    | ⟨c, s, l, path, _, _, hs, _, _, _, _, _, rfl⟩
  · exact Fed.refl _
  · refine fed_of_eq ?_
    by_cases hic : i = c
    · rw [hic, Net.setSock_self]
    · rw [Net.setSock_ne _ hic, Net.setSock_ne _ (hfree s hs)]
  · refine fed_of_eq ?_
    by_cases hil : i = l
    · rw [hil, Net.setSock_self]; rfl
    · by_cases hic : i = c
      · rw [Net.setSock_ne _ hil, hic, Net.setSock_self]; rfl
      · rw [Net.setSock_ne _ hil, Net.setSock_ne _ hic, Net.setSock_ne _ (hfree s hs)]

/-- **A call that does not disturb slot `i`** may store for it, and that is all. -/
theorem call_fed {input : DevInput} {fuel : Nat} {op : SockOp} {rep : Reply}
    (hd : ¬ op.Disturbs n i) (h : n.call fs input fuel op = .done (n', log, rep)) :
    Fed (n.socks i).rx (n'.socks i).rx := by
  cases op with
  | socket domain type =>
      cases h
      unfold unixSocket
      split
      · exact Fed.refl _
      · split
        · exact Fed.refl _
        · split
          · exact Fed.refl _
          · next m k ha =>
            obtain ⟨hk, rfl⟩ := allocSlot_freeSlot ha
            have hik : i ≠ k := by
              rintro rfl
              exact hd (by simp [SockOp.Disturbs, SockOp.takes, hk])
            rw [Net.setSock_ne _ hik]
            exact Fed.refl _
  | socketpair domain type svNull =>
      cases h
      exact unixSocketpair_fed hd rfl
  | eventfd initval flags =>
      cases h
      unfold unixEventfd
      split
      · exact Fed.refl _
      · next m k ha =>
        obtain ⟨hk, rfl⟩ := allocSlot_freeSlot ha
        have hik : i ≠ k := by
          rintro rfl
          exact hd (by simp [SockOp.Disturbs, SockOp.takes, hk])
        dsimp only
        split
        · rw [Net.setSock_ne _ hik, Net.setSock_ne _ hik]
          exact Fed.refl _
        · rw [Net.setSock_ne _ hik, Net.setSock_ne _ hik]
          exact Fed.refl _
  | bind fd addr addrlen =>
      obtain ⟨⟨m, l, r⟩, hb, h⟩ := Outcome.bind_eq_done h
      cases h
      exact fed_of_eq (unixBind_rx hb)
  | listen fd =>
      cases h
      refine fed_of_eq ?_
      change ((unixListen n fd).1.socks i).rx = _
      unfold unixListen
      split
      · rfl
      · split
        · rfl
        · exact setSock_rx rfl
  | connect fd addr addrlen =>
      cases h
      exact unixConnect_fed hd rfl
  | accept fd =>
      have h := Outcome.done.inj h
      unfold unixAccept at h
      split at h
      · cases h; exact Fed.refl _
      · split at h
        · cases h; exact Fed.refl _
        · exact acceptFrom_fed h
  | read fd len =>
      have h := Outcome.done.inj h
      unfold unixSockRead at h
      split at h
      · cases h; exact Fed.refl _
      · next j hj =>
        split at h
        · cases h; exact Fed.refl _
        · exact readFrom_fed (fun hji => not_not.mp fun hne => hd ⟨hji ▸ hj, hne⟩) h
  | write fd buf len =>
      cases h
      unfold unixSockWrite
      split
      · exact Fed.refl _
      · next k j _ => exact fed_setSock fun hij => hij ▸ pushRx_fed (n.socks i) buf len
  | sendmsg fd msg =>
      obtain ⟨⟨m, l, r⟩, hs, h⟩ := Outcome.bind_eq_done h
      cases h
      exact unixSockSendmsg_fed hs
  | recvmsg fd msg =>
      have h := Outcome.done.inj h
      unfold unixSockRecvmsg at h
      split at h
      · cases h; exact Fed.refl _
      · next j hj =>
        split at h
        · cases h; exact Fed.refl _
        · split at h
          · cases h; exact Fed.refl _
          · exact recvFrom_fed (fun hji => not_not.mp fun hne => hd ⟨hji ▸ hj, hne⟩) h
  | close fd =>
      obtain ⟨⟨m, l, r⟩, hc, h⟩ := Outcome.bind_eq_done h
      cases h
      rcases unixSockClose_cases hc with ⟨rfl, _⟩ | ⟨j, v, pre, hj, _, _, _, hcl⟩
      · exact Fed.refl _
      · have hij : i ≠ j := by
          rintro rfl
          exact hd hj
        cases hcl
        exact fed_of_eq (shutSlot_rx (n := { n with vfs := v }) hij)
  | fcntl fd cmd arg =>
      cases h
      refine fed_of_eq ?_
      change ((unixSockFcntl n fd cmd arg).1.socks i).rx = _
      unfold unixSockFcntl
      split
      · rfl
      · split
        · rfl
        · split
          · exact setSock_rx rfl
          · rfl
  | poll fd events => cases h; exact Fed.refl _
  | file f =>
      obtain ⟨v, _, h⟩ := Outcome.bind_eq_done h
      cases h
      exact Fed.refl _

end Fed

/-! ## Woken calls -/

/-- What a woken call knows of the rings. -/
def Woken.Knows (n : Net σ) : Woken → Prop
  | .pop i _ _ (.take k) => k.Holds (n.socks i).rx
  | _ => True

section Knows

variable {n n' : Net σ} {c : Woken} {i : Nat}

theorem Woken.knows_of_idle (h : c.taking = none) (n : Net σ) : c.Knows n := by
  unfold Woken.Knows
  split
  · next i cl len k =>
    refine Taker.holds_of_not_taking ?_ _
    unfold Woken.taking at h
    dsimp only at h
    split at h
    · exact absurd h (by simp)
    · next hk => simpa using hk
  · trivial

/-- It goes on to know it where its ring is only stored into. -/
theorem Woken.Knows.fed (h : c.Knows n)
    (hf : ∀ i, c.taking = some i → Fed (n.socks i).rx (n'.socks i).rx) : c.Knows n' := by
  cases ht : c.taking with
  | none => exact Woken.knows_of_idle ht n'
  | some i =>
      have hfed := hf i ht
      unfold Woken.taking at ht
      split at ht
      · next j cl len k =>
        split at ht
        · cases ht
          exact Taker.Holds.fed h hfed
        · exact absurd ht (by simp)
      · exact absurd ht (by simp)

theorem recvControl_idle {msg : MsgHdr} {total : Int} {out : List UInt8} {c' : Woken}
    (h : recvControl i msg total out = .inl c') : c'.taking = none := by
  unfold recvControl at h
  split at h
  · cases h; rfl
  · exact absurd h (by simp)

theorem nextIov_idle {msg : MsgHdr} {c' : Woken} : ∀ (vs : List IoVec) (total : Int)
    (out : List UInt8), nextIov i msg vs total out = .inl c' → c'.taking = none
  | [], _, _, h => recvControl_idle h
  | v :: vs, total, out, h => by
      rw [nextIov] at h
      split at h
      · exact nextIov_idle vs total out h
      · split at h
        · exact absurd h (by simp)
        · cases h; rfl

theorem Caller.resume_idle {cl : Caller} {r : Int} {bytes : List UInt8} {c' : Woken}
    (h : cl.resume i r bytes = .inl c') : c'.taking = none := by
  unfold Caller.resume at h
  split at h
  · exact absurd h (by simp)
  · split at h
    · exact absurd h (by simp)
    · cases h; rfl

/-- Before its loop `pop_rx` changes nothing. -/
theorem PopAt.go_wait {pos : PopAt} {s s' : USock} {len : Nat} {b : Option UInt8}
    {r : PopAt ⊕ Int × List UInt8} (hnot : ∀ k, pos ≠ .take k) (h : pos.go s len = (s', b, r)) :
    s' = s ∧ b = none ∧ ∀ k, r = .inl (.take k) → k = .start len := by
  cases pos with
  | poll => cases h; exact ⟨rfl, rfl, fun k hk => absurd hk (by simp)⟩
  | head t =>
      cases h
      refine ⟨rfl, rfl, fun k hk => ?_⟩
      split at hk
      · exact absurd hk (by simp)
      · simpa using hk.symm
  | peer =>
      cases h
      refine ⟨rfl, rfl, fun k hk => ?_⟩
      split at hk
      · exact absurd hk (by simp)
      · simpa using hk.symm
  | flags =>
      rw [PopAt.go] at h
      split at h
      · cases h; exact ⟨rfl, rfl, fun k hk => absurd hk (by simp)⟩
      · cases h; exact ⟨rfl, rfl, fun k hk => absurd hk (by simp)⟩
  | take k => exact absurd rfl (hnot k)

/-- **The access of a call that is not in its loop** leaves all rings of bytes alone. -/
theorem Woken.go_rx {log : List Ev} {next : Woken ⊕ Ans} (t : Traffic)
    (hnot : ∀ i cl len k, c ≠ .pop i cl len (.take k)) (h : c.go n = .done (n', log, next)) :
    (∀ k, (n'.socks k).rx = (n.socks k).rx) ∧ t.SameBytes (log.foldl Traffic.after t)
      ∧ ∀ c', next = .inl c' → c'.taking = none := by
  cases c with
  | pop i cl len pos =>
      obtain ⟨⟨s, b, r⟩, hp⟩ : ∃ x, pos.go (n.socks i) len = x := ⟨_, rfl⟩
      obtain ⟨rfl, rfl, hstart⟩ := PopAt.go_wait (fun k hk => hnot i cl len k (by rw [hk])) hp
      rw [Woken.go, hp] at h
      cases h
      refine ⟨fun k => by rw [Net.setSock_eta], ⟨rfl, rfl, rfl⟩, fun c' hc => ?_⟩
      cases r with
      | inl pos' =>
          cases hc
          cases pos' with
          | take k => rw [hstart k rfl]; rfl
          | _ => rfl
      | inr r => exact Caller.resume_idle hc
  | loop i msg rest total out =>
      cases h
      exact ⟨fun _ => rfl, ⟨rfl, rfl, rfl⟩, fun c' hc => nextIov_idle rest total out hc⟩
  | after i msg rest total out =>
      cases h
      exact ⟨fun _ => rfl, ⟨rfl, rfl, rfl⟩, fun c' hc => by cases hc; rfl⟩
  | afterTail i msg rest total out t =>
      cases h
      refine ⟨fun _ => rfl, ⟨rfl, rfl, rfl⟩, fun c' hc => ?_⟩
      split at hc
      · exact recvControl_idle hc
      · cases hc; rfl
  | fds i total out k =>
      obtain ⟨⟨q, fd, r⟩, hk⟩ : ∃ x, k.go (n.socks i).fdsRx = x := ⟨_, rfl⟩
      rw [Woken.go, hk] at h
      cases h
      refine ⟨fun j => setSock_rx rfl, ?_, fun c' hc => ?_⟩
      · cases fd with
        | none => exact ⟨rfl, rfl, rfl⟩
        | some fd => exact ⟨rfl, rfl, rfl⟩
      · cases r with
        | none => exact absurd hc (by simp)
        | some k' => cases hc; rfl
  | accept i pos =>
      obtain ⟨⟨s, r⟩, hp, h⟩ := Outcome.bind_eq_done h
      cases h
      obtain ⟨q, w, rfl⟩ := AcceptAt.go_queue hp
      refine ⟨fun j => setSock_rx rfl, ?_, fun c' hc => ?_⟩
      · unfold acceptLog
        split
        · split
          · exact ⟨rfl, rfl, rfl⟩
          · exact ⟨rfl, rfl, rfl⟩
        · exact ⟨rfl, rfl, rfl⟩
      · cases r with
        | inl pos' => cases hc; rfl
        | inr r => exact absurd hc (by simp)

/-- The access of a call that is in its loop. -/
theorem Woken.go_take {cl : Caller} {len : Nat} {k : Taker UInt8 rxCap} {log : List Ev}
    {next : Woken ⊕ Ans} (h : (Woken.pop i cl len (.take k)).go n = .done (n', log, next)) :
    (∃ rx b k', k.go (n.socks i).rx = (rx, b, some k')
        ∧ n' = n.setSock i { n.socks i with rx := rx }
        ∧ log = (b.map fun b => Ev.popped i [b]).toList ∧ next = .inl (.pop i cl len (.take k')))
      ∨ n' = n ∧ log = [] ∧ ∀ c', next = .inl c' → c'.taking = none := by
  obtain ⟨⟨rx, b, r⟩, hk⟩ : ∃ x, k.go (n.socks i).rx = x := ⟨_, rfl⟩
  rw [Woken.go, PopAt.go, hk] at h
  cases r with
  | some k' => cases h; exact Or.inl ⟨rx, b, k', hk, rfl, rfl, rfl⟩
  | none =>
      obtain ⟨rfl, rfl⟩ := Taker.go_over hk
      cases h
      exact Or.inr ⟨Net.setSock_eta, rfl, fun c' hc => Caller.resume_idle hc⟩

end Knows

/-- **What the condition keeps.** -/
structure TakeInv (s : Tasks σ) : Prop where
  peers : PeerInv s.net
  bytes : ByteInv s.net (traffic s.hist)
  knows : ∀ c ∈ s.calls, c.Knows s.net
  alone : (s.calls.filterMap Woken.taking).Nodup

section TakeInv

variable {fs : FrameService σ} {n n' : Net σ} {t : Traffic} {c : Woken} {rest : List Woken}

theorem not_mem_taking {i : Nat} :
    i ∉ rest.filterMap Woken.taking ↔ ∀ d ∈ rest, d.taking ≠ some i := by
  rw [List.mem_filterMap]
  push Not
  rfl

/-- Nobody else has the tail in hand. -/
theorem nodup_taking (h : (rest.filterMap Woken.taking).Nodup)
    (hc : ∀ i, c.taking = some i → ∀ d ∈ rest, d.taking ≠ some i) :
    ((c :: rest).filterMap Woken.taking).Nodup := by
  cases ht : c.taking with
  | none => rw [List.filterMap_cons_none ht]; exact h
  | some i =>
      rw [List.filterMap_cons_some ht]
      exact List.nodup_cons.mpr ⟨not_mem_taking.mpr (hc i ht), h⟩

/-- **One access**, while nobody else has the tail in hand: the call takes the oldest byte. -/
theorem ByteInv.go {log : List Ev} {next : Woken ⊕ Ans} (hb : ByteInv n t) (hk : c.Knows n)
    (hrest : ∀ d ∈ rest, d.Knows n)
    (hc : ∀ i, c.taking = some i ∨ c.begins = some i → ∀ d ∈ rest, d.taking ≠ some i)
    (h : c.go n = .done (n', log, next)) :
    ByteInv n' (log.foldl Traffic.after t) ∧ (∀ d ∈ rest, d.Knows n')
      ∧ ∀ c', next = .inl c' →
          c'.Knows n' ∧ ∀ i, c'.taking = some i → ∀ d ∈ rest, d.taking ≠ some i := by
  by_cases hloop : ∃ i cl len k, c = .pop i cl len (.take k)
  · obtain ⟨i, cl, len, k, rfl⟩ := hloop
    rcases Woken.go_take h with ⟨rx, b, k', hgo, rfl, rfl, rfl⟩ | ⟨rfl, rfl, hidle⟩
    · have hfree : ∀ d ∈ rest, d.taking ≠ some i := by
        refine hc i ?_
        rcases Taker.go_in hgo with ht | ht
        · exact Or.inl (if_pos ht)
        · exact Or.inr (if_pos ht)
      obtain ⟨hk', hrx⟩ := Taker.Holds.go hk hgo
      refine ⟨?_, fun d hd => ?_, fun c' hc' => ?_⟩
      · cases b with
        | none =>
            have hsame : ∀ j, ((n.setSock i { n.socks i with rx := rx }).socks j).rx
                = (n.socks j).rx := fun j => setSock_rx (Taker.go_same hgo)
            exact hb.same (sameLinks_setSock rfl rfl rfl) hsame
        | some a => exact hb.pop hrx
      · refine (hrest d hd).fed fun j hj => ?_
        have hji : j ≠ i := by
          rintro rfl
          exact hfree d hd hj
        rw [Net.setSock_ne _ hji]
        exact Fed.refl _
      · cases hc'
        refine ⟨?_, fun j hj => ?_⟩
        · change k'.Holds ((n.setSock i { n.socks i with rx := rx }).socks i).rx
          rw [Net.setSock_self]
          exact hk'
        · unfold Woken.taking at hj
          dsimp only at hj
          split at hj
          · cases hj; exact hfree
          · exact absurd hj (by simp)
    · refine ⟨hb, hrest, fun c' hc' => ⟨Woken.knows_of_idle (hidle c' hc') n', fun j hj => ?_⟩⟩
      rw [hidle c' hc'] at hj
      exact absurd hj (by simp)
  · obtain ⟨hrx, hsame, hidle⟩ := Woken.go_rx t
      (fun i cl len k hc => hloop ⟨i, cl, len, k, hc⟩) h
    refine ⟨(hb.same (Woken.go_sameLinks h) hrx).congr hsame, fun d hd => ?_, fun c' hc' =>
      ⟨Woken.knows_of_idle (hidle c' hc') n', fun j hj => ?_⟩⟩
    · exact (hrest d hd).fed fun j _ => fed_of_eq (hrx j)
    · rw [hidle c' hc'] at hj
      exact absurd hj (by simp)

theorem takeInv_init (v : Vfs σ) : TakeInv (⟨unixSocketInit v, [], []⟩ : Tasks σ) where
  peers := peerInv_init v
  bytes := (streamInv_init v).bytes
  knows := by intro c hc; exact absurd hc (by simp)
  alone := List.nodup_nil

theorem traffic_append (hist log : List Ev) :
    traffic (hist ++ log) = log.foldl Traffic.after (traffic hist) := List.foldl_append

/-- **One step keeps it.** -/
theorem TakeInv.step {input : DevInput} {fuel : Nat} {s s' : Tasks σ} {act : Tasks.Act}
    {ans : Option Ans} (h : TakeInv s) (hc : s.TakesAlone act)
    (hs : s.step fs input fuel act = .done (s', ans)) : TakeInv s' := by
  rcases Tasks.step_cases hs with ⟨op, n, log, rep, rfl, hcall, rfl, hhist, hcalls⟩
    | ⟨k, c, n, log, next, rfl, hk, hgo, rfl, hhist, hperm, hcalls⟩ | ⟨k, _, rfl⟩
  · have hold : ∀ d ∈ s.calls, d.Knows s'.net := fun d hd =>
      (h.knows d hd).fed fun i hi => call_fed (hc d hd i hi) hcall
    refine ⟨h.peers.call hcall, ?_, ?_, ?_⟩
    · rw [hhist, traffic_append]
      exact h.bytes.call h.peers hcall
    · rcases hcalls with he | ⟨w, he⟩
      · rw [he]; exact hold
      · rw [he]
        intro d hd
        rcases List.mem_append.mp hd with hd | hd
        · exact hold d hd
        · rw [List.mem_singleton.mp hd]
          exact Woken.knows_of_idle (by cases w <;> rfl) _
    · rcases hcalls with he | ⟨w, he⟩
      · rw [he]; exact h.alone
      · have hw : (Woken.ofWait w).taking = none := by cases w <;> rfl
        rw [he, List.filterMap_append, List.filterMap_cons_none hw, List.filterMap_nil,
          List.append_nil]
        exact h.alone
  · have hmem : ∀ d, d ∈ c :: s.calls.eraseIdx k → d ∈ s.calls := fun d hd => hperm.mem_iff.mpr hd
    have hnd : ((c :: s.calls.eraseIdx k).filterMap Woken.taking).Nodup :=
      (hperm.filterMap _).nodup_iff.mp h.alone
    have hndrest : ((s.calls.eraseIdx k).filterMap Woken.taking).Nodup :=
      h.alone.sublist ((List.eraseIdx_sublist _ _).filterMap _)
    obtain ⟨hb, hrest, hnext⟩ := h.bytes.go (h.knows c (hmem c (List.mem_cons_self ..)))
      (fun d hd => h.knows d (hmem d (List.mem_cons_of_mem _ hd)))
      (fun i hi => by
        rcases hi with hi | hi
        · rw [List.filterMap_cons_some hi] at hnd
          exact not_mem_taking.mp (List.nodup_cons.mp hnd).1
        · exact hc c hk i hi) hgo
    refine ⟨h.peers.same (Woken.go_sameLinks hgo), ?_, ?_, ?_⟩
    · rw [hhist, traffic_append]
      exact hb
    · rcases hcalls with ⟨c', hc', he⟩ | ⟨a, _, _, he⟩
      · intro d hd
        rcases List.mem_cons.mp (he.mem_iff.mp hd) with rfl | hd
        · exact (hnext d hc').1
        · exact hrest d hd
      · rw [he]; exact hrest
    · rcases hcalls with ⟨c', hc', he⟩ | ⟨a, _, _, he⟩
      · exact (he.filterMap _).nodup_iff.mpr (nodup_taking hndrest (hnext c' hc').2)
      · rw [he]; exact hndrest
  · exact h

theorem reach_takeInv {s : Tasks σ}
    (h : Reach Tasks.Boots (Tasks.StepsIf fs Tasks.TakesAlone) s) : TakeInv s := by
  refine h.invariant (P := TakeInv) ?_ ?_
  · rintro s ⟨v, rfl⟩
    exact takeInv_init v
  · rintro s s' hi ⟨input, fuel, act, ans, hc, hs⟩
    exact hi.step hc hs

end TakeInv

/-! ## Streams -/

/-- **Streams are first in, first out, without loss or duplication**, where nobody takes from a slot
while a woken call has its tail in hand. -/
theorem Tasks.reachable_streams {fs : FrameService σ} {s : Tasks σ}
    (h : Reach Tasks.Boots (Tasks.StepsIf fs Tasks.TakesAlone) s) {i j : Nat}
    (hu : (s.net.socks i).used = true) (hij : (s.net.socks i).peerIdx = j) :
    (traffic s.hist).out i = (traffic s.hist).taken j ++ (s.net.socks j).rx.toList
      ∧ (traffic s.hist).taken j <+: (traffic s.hist).out i
      ∧ (s.net.socks j).rx.toList.length ≤ 8191
      ∧ ∀ len, (s.net.socks j).rx.toList ≠ [] → (unixSockRead s.net (fdOf j) len).2.2 = .ret
        ⟨(min len (s.net.socks j).rx.toList.length : Nat), (s.net.socks j).rx.toList.take len,
          [], none⟩ := by
  have hi : TakeInv s := reach_takeInv h
  obtain ⟨k, hk, huj, hsj, _⟩ := hi.peers.peer i hu (by rw [hij]; unfold peerNone; omega)
  have hkj : k = j := by rw [hij] at hk; exact_mod_cast hk.symm
  subst hkj
  have hflow : (traffic s.hist).out i = (traffic s.hist).taken k ++ (s.net.socks k).rx.toList := by
    rw [hi.bytes.link i k hu hij, hi.bytes.flow k huj]
  have hlt := (s.net.socks k).rx.length_lt
  have hcap : rxCap = 8192 := rfl
  refine ⟨hflow, ⟨_, hflow.symm⟩, by omega, ?_⟩
  intro len hrx
  exact unixSockRead_ready (hi.peers.bound k huj) huj hsj hrx

/-- Two sockets, and two programs that read from the same end before anything is there. -/
def twoReaders : List Tasks.Act :=
  [.call (.socketpair 1 1 false), .call (.read 129 1), .call (.read 129 1),
    .call (.write 128 (fun k => if k = 0 then 0x61 else 0x62) 2)]

/-- One reader after the other: each gets a byte of its own. -/
theorem Tasks.reachable_streams_readers : ∃ s : Tasks Nat,
    Reach Tasks.Boots (Tasks.StepsIf zeroedService Tasks.TakesAlone) s
    ∧ (s.net.socks 0).used = true ∧ (s.net.socks 0).peerIdx = (1 : Nat)
    ∧ (traffic s.hist).taken 1 = [0x61, 0x62] ∧ (traffic s.hist).out 0 = [0x61, 0x62]
    ∧ (traffic s.hist).taken 1 <+: (traffic s.hist).out 0 := by
  have hrun : (do
      let (s, anss) ← bootTasks.run zeroedService Tasks.TakesAlone noInput 0
        (twoReaders ++ goes 1 2 ++ goes 0 9 ++ goes 0 7)
      return decide ((s.net.socks 0).used = true ∧ (s.net.socks 0).peerIdx = (1 : Nat)
        ∧ (traffic s.hist).taken 1 = [0x61, 0x62] ∧ (traffic s.hist).out 0 = [0x61, 0x62]))
            = .done true := by
    decide +kernel
  obtain ⟨⟨s, anss⟩, hs, hd⟩ := Outcome.bind_eq_done hrun
  have hd := of_decide_eq_true (Outcome.done.inj hd)
  have hr := Tasks.run_reach (.start bootTasks_boots) hs
  exact ⟨s, hr, hd.1, hd.2.1, hd.2.2.1, hd.2.2.2, (Tasks.reachable_streams hr hd.1 hd.2.1).2.1⟩

/-- **Two readers that were asleep get the same byte.** Each looks at the tail before the other has
moved it. -/
theorem Tasks.readers_share : ¬ ∀ s : Tasks Nat, Reach Tasks.Boots (Tasks.Steps zeroedService) s →
    ∀ i j : Nat, (s.net.socks i).used = true → (s.net.socks i).peerIdx = j →
      (traffic s.hist).taken j <+: (traffic s.hist).out i := by
  intro hall
  have hrun : (do
      let (s, anss) ← bootTasks.run zeroedService (fun _ _ => True) noInput 0
        (twoReaders ++ goes 0 6 ++ goes 1 6 ++ goes 0 2 ++ goes 1 2)
      return decide ((s.net.socks 0).used = true ∧ (s.net.socks 0).peerIdx = (1 : Nat)
        ∧ (traffic s.hist).taken 1 = [0x61, 0x61] ∧ (traffic s.hist).out 0 = [0x61, 0x62]))
            = .done true := by
    decide +kernel
  obtain ⟨⟨s, anss⟩, hs, hd⟩ := Outcome.bind_eq_done hrun
  have hd := of_decide_eq_true (Outcome.done.inj hd)
  have hr := Tasks.run_reach (.start bootTasks_boots) hs
  have hpre := hall s hr 0 1 hd.1 hd.2.1
  rw [hd.2.2.1, hd.2.2.2] at hpre
  exact absurd hpre (by decide)

end VnlKernel
