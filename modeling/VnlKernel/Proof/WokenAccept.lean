import VnlKernel.Proof.WokenQueue

/-!
# Accepting, and who else is at the queue

Two calls of `unix_accept` on one listener that were woken can both read the first
entry before either has taken it out. Where no other call takes from a listener while
one that was woken has read its first entry and not returned, and none connects to it
from when that one has read how many there are, accepting is first in, first out, and
exactly once.
-/

namespace VnlKernel

open Run Function

variable {σ : Type}

/-! ## Who is at a queue -/

/-- The listener whose first entry the call has read. -/
def Woken.serving : Woken → Option Nat
  | .accept i pos => if pos.serving then some i else none
  | _ => none

/-- The listener of which the call also knows how many wait. -/
def Woken.half : Woken → Option Nat
  | .accept i pos => if pos.half then some i else none
  | _ => none

/-- The listener whose first entry the call is about to read. -/
def Woken.loads : Woken → Option Nat
  | .accept i .first => some i
  | _ => none

/-- Does the call take a connection from slot `l`, or give it up? -/
def SockOp.Serves (n : Net σ) (op : SockOp) (l : Nat) : Prop :=
  match op with
  | .accept fd => sockOf n fd = some l ∧ (n.socks l).nWait ≠ 0
  | .close fd => sockOf n fd = some l
  | _ => False

/-- Does the call connect to slot `l`? -/
def SockOp.Joins (n : Net σ) (op : SockOp) (l : Nat) : Prop :=
  match op with
  | .connect _ addr addrlen =>
      (checkAddr addr addrlen).bind (findListener n) = some l ∧ (n.socks l).nWait < acceptQ
  | _ => False

/-- Programs close only descriptors that were returned to them. -/
def SockOp.ClosesOwn (n : Net σ) (g : Accepts) : SockOp → Prop
  | .close fd => ∀ i ∈ sockOf n fd, g.owned i = true
  | _ => True

instance (n : Net σ) (op : SockOp) (l : Nat) : Decidable (op.Serves n l) := by
  unfold SockOp.Serves
  split <;> infer_instance

instance (n : Net σ) (op : SockOp) (l : Nat) : Decidable (op.Joins n l) := by
  unfold SockOp.Joins
  split <;> infer_instance

instance (n : Net σ) (g : Accepts) (op : SockOp) : Decidable (op.ClosesOwn n g) := by
  unfold SockOp.ClosesOwn
  split <;> infer_instance

/-- While a woken call has read the first entry of a listener, nobody else takes a connection from
it or gives it up, and from when it has read how many there are nobody connects to it. When it reads
the first entry, there is one. -/
def Tasks.AcceptsAlone (s : Tasks σ) : Tasks.Act → Prop
  | .call op => op.ClosesOwn s.net (accepts s.hist)
      ∧ ∀ c ∈ s.calls, (∀ l ∈ c.serving, ¬ op.Serves s.net l) ∧ ∀ l ∈ c.half, ¬ op.Joins s.net l
  | .go k => ∀ c ∈ s.calls[k]?, ∀ l ∈ c.loads,
      (s.net.socks l).nWait ≠ 0 ∧ ∀ d ∈ s.calls.eraseIdx k, d.serving ≠ some l

instance (s : Tasks σ) : ∀ act, Decidable (s.AcceptsAlone act)
  | .call op => inferInstanceAs (Decidable (op.ClosesOwn s.net (accepts s.hist)
      ∧ ∀ c ∈ s.calls, (∀ l ∈ c.serving, ¬ op.Serves s.net l)
        ∧ ∀ l ∈ c.half, ¬ op.Joins s.net l))
  | .go k => inferInstanceAs (Decidable (∀ c ∈ s.calls[k]?, ∀ l ∈ c.loads,
      (s.net.socks l).nWait ≠ 0 ∧ ∀ d ∈ s.calls.eraseIdx k, d.serving ≠ some l))

/-! ## What calls log of a queue -/

section Away

variable {fs : FrameService σ} {n n' : Net σ} {log : List Ev} {l : Nat}

theorem PlainLog.away (h : PlainLog log) (e : Ev) (he : e ∈ log) :
    e.serves l = false ∧ e.joins l = false := by
  have hp := h e he
  cases e with
  | linked _ _ _ => exact absurd hp (by simp [Ev.plain])
  | accepted _ _ => exact absurd hp (by simp [Ev.plain])
  | stale _ _ => exact absurd hp (by simp [Ev.plain])
  | closed _ _ => exact absurd hp (by simp [Ev.plain])
  | _ => exact ⟨rfl, rfl⟩

theorem PlainLog.accepts (h : PlainLog log) (g : Accepts) : log.foldl Accepts.after g = g := by
  induction log generalizing g with
  | nil => rfl
  | cons e log ih =>
      have he : g.after e = g := by
        have hp := h e (List.mem_cons_self ..)
        cases e with
        | opened _ => exact absurd hp (by simp [Ev.plain])
        | paired _ _ => exact absurd hp (by simp [Ev.plain])
        | looped _ => exact absurd hp (by simp [Ev.plain])
        | linked _ _ _ => exact absurd hp (by simp [Ev.plain])
        | accepted _ _ => exact absurd hp (by simp [Ev.plain])
        | stale _ _ => exact absurd hp (by simp [Ev.plain])
        | closed _ _ => exact absurd hp (by simp [Ev.plain])
        | _ => rfl
      rw [List.foldl_cons, he]
      exact ih (fun e he => h e (List.mem_cons_of_mem _ he)) g

/-- What hands out slots says nothing of queues. -/
theorem unixSocketpair_away {domain type : Int} {svNull : Bool} {r : Int} {sv : Option (Int × Int)}
    (h : unixSocketpair n domain type svNull = (n', log, r, sv)) :
    ∀ e ∈ log, e.serves l = false ∧ e.joins l = false := by
  unfold unixSocketpair at h
  split at h
  · cases h; simp
  · split at h
    · cases h; simp
    · split at h
      · cases h; simp
      · split at h
        · cases h; simp
        · cases h; simp [Ev.serves, Ev.joins]

theorem unixSocket_away {domain type : Int} {r : Int}
    (h : unixSocket n domain type = (n', log, r)) :
    ∀ e ∈ log, e.serves l = false ∧ e.joins l = false := by
  unfold unixSocket at h
  split at h
  · cases h; simp
  · split at h
    · cases h; simp
    · split at h
      · cases h; simp
      · cases h; simp [Ev.serves, Ev.joins]

theorem unixEventfd_away {initval flags : Nat} {r : Int}
    (h : unixEventfd n initval flags = (n', log, r)) :
    ∀ e ∈ log, e.serves l = false ∧ e.joins l = false := by
  unfold unixEventfd at h
  split at h
  · cases h; simp
  · dsimp only at h
    split at h
    · cases h; simp [Ev.serves, Ev.joins]
    · cases h; simp [Ev.serves, Ev.joins]

/-- **Only accepting from a slot and closing it** take from its queue, and only connecting to it
adds to it. -/
theorem call_away {input : DevInput} {fuel : Nat} {op : SockOp} {rep : Reply}
    (h : n.call fs input fuel op = .done (n', log, rep)) :
    (¬ op.Serves n l → ∀ e ∈ log, e.serves l = false)
      ∧ (¬ op.Joins n l → ∀ e ∈ log, e.joins l = false) := by
  have hsplit : (∀ e ∈ log, e.serves l = false ∧ e.joins l = false) →
      (¬ op.Serves n l → ∀ e ∈ log, e.serves l = false)
        ∧ (¬ op.Joins n l → ∀ e ∈ log, e.joins l = false) := fun hboth =>
    ⟨fun _ e he => (hboth e he).1, fun _ e he => (hboth e he).2⟩
  cases op with
  | socket domain type => cases h; exact hsplit (unixSocket_away rfl)
  | socketpair domain type svNull => cases h; exact hsplit (unixSocketpair_away rfl)
  | eventfd initval flags => cases h; exact hsplit (unixEventfd_away rfl)
  | bind fd addr addrlen =>
      obtain ⟨⟨m, l', r⟩, hb, h⟩ := Outcome.bind_eq_done h
      cases h
      exact hsplit (unixBind_plain hb).away
  | listen fd => cases h; exact hsplit plain_nil.away
  | connect fd addr addrlen =>
      obtain ⟨⟨m, log₁, r⟩, hc⟩ : ∃ x, unixConnect n fd addr addrlen = x := ⟨_, rfl⟩
      rw [Net.call, hc] at h
      cases h
      rcases unixConnect_cases hc with ⟨_, rfl, _⟩ | ⟨_, _, _, _, _, rfl, _⟩
        | ⟨c, k, l', path, _, _, _, hpath, hl, hw, rfl, _⟩
      · exact hsplit plain_nil.away
      · exact hsplit plain_nil.away
      · refine ⟨fun _ => by simp [Ev.serves], fun hno => ?_⟩
        have hne : l' ≠ l := by
          rintro rfl
          exact hno ⟨by rw [hpath]; exact hl, hw⟩
        simp [Ev.joins, hne]
  | accept fd =>
      have h := Outcome.done.inj h
      unfold unixAccept at h
      split at h
      · cases h; exact hsplit plain_nil.away
      · next i hi =>
        split at h
        · cases h; exact hsplit plain_nil.away
        · have hne : (n.socks i).nWait ≠ 0 → ¬ SockOp.Serves n (.accept fd) l → i ≠ l := by
            rintro hw hno rfl
            exact hno ⟨hi, hw⟩
          rcases acceptFrom_cases h with ⟨_, rfl, _⟩ | ⟨hw, _, ⟨k, _, _, _, rfl, _⟩ | ⟨_, rfl, _⟩⟩
          · exact hsplit plain_nil.away
          · exact ⟨fun hno => by simp [Ev.serves, hne hw hno], fun _ => by simp [Ev.joins]⟩
          · exact ⟨fun hno => by simp [Ev.serves, hne hw hno], fun _ => by simp [Ev.joins]⟩
  | read fd len =>
      have h := Outcome.done.inj h
      unfold unixSockRead at h
      split at h
      · cases h; exact hsplit plain_nil.away
      · split at h
        · cases h; exact hsplit plain_nil.away
        · exact hsplit (readFrom_plain h).away
  | write fd buf len => cases h; exact hsplit (unixSockWrite_plain rfl).away
  | sendmsg fd msg =>
      obtain ⟨⟨m, l', r⟩, hs, h⟩ := Outcome.bind_eq_done h
      cases h
      exact hsplit (unixSockSendmsg_plain hs).away
  | recvmsg fd msg =>
      have h := Outcome.done.inj h
      unfold unixSockRecvmsg at h
      split at h
      · cases h; exact hsplit plain_nil.away
      · split at h
        · cases h; exact hsplit plain_nil.away
        · split at h
          · cases h; exact hsplit plain_nil.away
          · exact hsplit (recvFrom_plain h).away
  | close fd =>
      obtain ⟨⟨m, l', r⟩, hc, h⟩ := Outcome.bind_eq_done h
      cases h
      rcases unixSockClose_cases hc with ⟨_, rfl, _⟩ | ⟨i, v, pre, hi, _, hpre, rfl, _⟩
      · exact hsplit plain_nil.away
      · have hne : ¬ SockOp.Serves n (.close fd) l → i ≠ l := by
          rintro hno rfl
          exact hno hi
        rcases hpre with rfl | rfl
        · exact ⟨fun hno => by simp [Ev.serves, hne hno], fun _ => by simp [Ev.joins]⟩
        · exact ⟨fun hno => by simp [Ev.serves, hne hno], fun _ => by simp [Ev.joins]⟩
  | fcntl fd cmd arg => cases h; exact hsplit plain_nil.away
  | poll fd events => cases h; exact hsplit plain_nil.away
  | file f =>
      obtain ⟨v, _, h⟩ := Outcome.bind_eq_done h
      cases h
      exact hsplit plain_nil.away

/-- What is closed is some program's. -/
theorem call_closesOwned {input : DevInput} {fuel : Nat} {op : SockOp} {rep : Reply} {g : Accepts}
    (ho : op.ClosesOwn n g) (h : n.call fs input fuel op = .done (n', log, rep)) :
    Allowed Accepts.after ClosesOwned g log := by
  rcases call_closes h with hk | ⟨fd, i, pre, rfl, hi, hpre, rfl⟩
  · exact allowed_of_keeps closesOwned_keeps hk
  · have ho := ho i hi
    rcases hpre with rfl | rfl
    · exact ⟨ho, trivial⟩
    · exact ⟨trivial, ho, trivial⟩

end Away

/-! ## Who listens -/

/-- Only a listener has anything in its queue. -/
def OnlyListen (n : Net σ) : Prop := ∀ l, (n.socks l).nWait ≠ 0 → (n.socks l).state = .listening

section Listen

variable {fs : FrameService σ} {n n' : Net σ} {i : Nat} {s : USock}

theorem OnlyListen.setSock (h : OnlyListen n) (hs : s.nWait ≠ 0 → s.state = .listening) :
    OnlyListen (n.setSock i s) := by
  intro l hl
  by_cases hli : l = i
  · rw [hli, Net.setSock_self] at hl ⊢
    exact hs hl
  · rw [Net.setSock_ne _ hli] at hl ⊢
    exact h l hl

/-- **One edit keeps it.** -/
theorem OnlyListen.edit (h : OnlyListen n) {es : List Ev} (he : Edit fs n es n') :
    OnlyListen n' := by
  cases he with
  | scratch _ hs => exact h.setSock fun hw => absurd hs.wait hw
  | @touched i s ht =>
      refine h.setSock fun hw => ?_
      have hst := h i (by rw [← ht.wait]; exact hw)
      exact (ht.stays (by rw [hst]; decide) (by rw [hst]; decide)).trans hst
  | opened _ _ => exact h.setSock fun hw => absurd rfl hw
  | paired _ _ _ _ _ => exact (h.setSock fun hw => absurd rfl hw).setSock fun hw => absurd rfl hw
  | looped _ _ _ => exact h.setSock fun hw => absurd rfl hw
  | @linked c k l _ _ hsc _ _ _ _ hsl _ =>
      refine ((h.setSock fun hw => absurd rfl hw).setSock fun hw => ?_).setSock fun _ => hsl
      have hst := h c hw
      rw [hsc] at hst
      exact absurd hst (by decide)
  | accepted hw _ _ _ => exact h.setSock fun _ => h _ hw
  | stale hw _ => exact h.setSock fun _ => h _ hw
  | pushed _ _ => exact h.setSock (h _)
  | popped _ => exact h.setSock (h _)
  | sent _ _ _ => exact OnlyListen.setSock (n := { n with vfs := _ }) h (h _)
  | received _ => exact h.setSock (h _)
  | @closed i _ _ =>
      have hunlink : OnlyListen (unlinkPeer n i) := by
        intro l hl
        obtain ⟨p, hp⟩ := unlinkPeer_eq n i l
        rw [hp] at hl ⊢
        exact h l hl
      exact hunlink.setSock fun hw => absurd rfl hw
  | openFile _ => exact h
  | closeFile _ => exact h
  | dupFile _ => exact h
  | unlinkFile _ => exact h

theorem onlyListen_init (v : Vfs σ) : OnlyListen (unixSocketInit v) := fun _ hw => absurd rfl hw

end Listen

/-! ## What other calls leave of the queues -/

/-- The queues with the entries put back are right, and those that somebody takes from were only
added to since the table was `n`. -/
structure QueuesKept (n : Net σ) (ps : Nat → AcceptAt) (m : Net σ) (g : Accepts) : Prop where
  peers : PeerInv m
  queues : QueueInv (m.undone ps) g
  listen : OnlyListen (m.undone ps)
  longer : ∀ l, (ps l).serving = true → Longer (n.socks l) (m.socks l)
  same : ∀ l, (ps l).half = true → (m.socks l).nWait = (n.socks l).nWait

/-- **One edit keeps it.** -/
theorem QueuesKept.edit {fs : FrameService σ} {n m m' : Net σ} {ps : Nat → AcceptAt} {g : Accepts}
    {es : List Ev} (h : QueuesKept n ps m g)
    (hn : ∀ l, (ps l).serving = true → (n.socks l).used = true ∧ (n.socks l).state = .listening)
    (hok : Allowed Accepts.after ClosesOwned g es)
    (haway : ∀ e ∈ es, ∀ l, ((ps l).serving = true → e.serves l = false)
      ∧ ((ps l).half = true → e.joins l = false))
    (he : Edit fs m es m') : QueuesKept n ps m' (es.foldl Accepts.after g) := by
  have hm : ∀ l, (ps l).serving = true →
      (m.socks l).used = true ∧ (m.socks l).state = .listening := fun l hl =>
    ⟨(h.longer l hl).used.trans (hn l hl).1, (h.longer l hl).state.trans (hn l hl).2⟩
  have hlonger := fun l hl => he.longer (hm l hl).1 (hm l hl).2 fun e hem => (haway e hem l).1 hl
  have hund : Edit fs (m.undone ps) es (m'.undone ps) :=
    he.undone (fun l hh => hm l (AcceptAt.half_serving hh)) fun e hem l hh =>
      ⟨(haway e hem l).1 (AcceptAt.half_serving hh), (haway e hem l).2 hh⟩
  refine ⟨h.peers.edit he, h.queues.edit (h.peers.same Net.undone_sameLinks) hok hund,
    h.listen.edit hund, fun l hl => (h.longer l hl).trans (hlonger l hl).1, fun l hh => ?_⟩
  exact ((hlonger l (AcceptAt.half_serving hh)).2 fun e hem => (haway e hem l).2 hh).trans
    (h.same l hh)

/-! ## The invariant -/

/-- **What the condition keeps**: `ps` says where the call is that takes from each queue. -/
structure AcceptInv (n : Net σ) (calls : List Woken) (g : Accepts) (ps : Nat → AcceptAt) :
    Prop where
  peers : PeerInv n
  queues : QueueInv (n.undone ps) g
  listen : OnlyListen (n.undone ps)
  fits : ∀ l, (ps l).Fits (n.socks l)
  serves : ∀ l pos, Woken.accept l pos ∈ calls → pos.serving = true → ps l = pos
  held : ∀ l, (ps l).serving = true → Woken.accept l (ps l) ∈ calls
  alone : (calls.filterMap Woken.serving).Nodup

/-- The same, but for who takes from slot `i`. -/
structure AcceptRest (n : Net σ) (rest : List Woken) (g : Accepts) (ps : Nat → AcceptAt) (i : Nat) :
    Prop where
  peers : PeerInv n
  queues : QueueInv (n.undone ps) g
  listen : OnlyListen (n.undone ps)
  fits : ∀ l, (ps l).Fits (n.socks l)
  serves : ∀ l pos, Woken.accept l pos ∈ rest → pos.serving = true → ps l = pos
  held : ∀ l, l ≠ i → (ps l).serving = true → Woken.accept l (ps l) ∈ rest
  alone : (rest.filterMap Woken.serving).Nodup
  free : ∀ d ∈ rest, d.serving ≠ some i

section Invariant

variable {fs : FrameService σ} {n n' : Net σ} {calls calls' rest : List Woken} {g : Accepts}
  {ps : Nat → AcceptAt} {c c' : Woken} {i : Nat} {pos pos' : AcceptAt}

theorem AcceptInv.listens (h : AcceptInv n calls g ps) {l : Nat} (hs : (ps l).serving = true) :
    (n.socks l).used = true ∧ (n.socks l).state = .listening :=
  ⟨h.queues.used ((h.fits l).wait hs), h.listen l ((h.fits l).wait hs)⟩

theorem AcceptInv.perm (h : AcceptInv n calls g ps) (hp : calls.Perm calls') :
    AcceptInv n calls' g ps where
  peers := h.peers
  queues := h.queues
  listen := h.listen
  fits := h.fits
  serves := fun l pos hm => h.serves l pos (hp.mem_iff.mpr hm)
  held := fun l hs => hp.mem_iff.mp (h.held l hs)
  alone := (hp.filterMap _).nodup_iff.mp h.alone

theorem Woken.serving_accept (hs : pos.serving = true) : (Woken.accept i pos).serving = some i :=
  if_pos hs

/-- A call that takes from no queue is gone. -/
theorem AcceptInv.tail (h : AcceptInv n (c :: rest) g ps) (hc : c.serving = none) :
    AcceptInv n rest g ps where
  peers := h.peers
  queues := h.queues
  listen := h.listen
  fits := h.fits
  serves := fun l pos hm => h.serves l pos (List.mem_cons_of_mem _ hm)
  held := by
    intro l hs
    rcases List.mem_cons.mp (h.held l hs) with hl | hl
    · rw [← hl, Woken.serving_accept hs] at hc
      exact absurd hc (by simp)
    · exact hl
  alone := by
    have ha := h.alone
    rw [List.filterMap_cons_none hc] at ha
    exact ha

/-- A call that takes from no queue is there. -/
theorem AcceptInv.cons (h : AcceptInv n rest g ps) (hc : c.serving = none) :
    AcceptInv n (c :: rest) g ps where
  peers := h.peers
  queues := h.queues
  listen := h.listen
  fits := h.fits
  serves := by
    intro l pos hm hs
    rcases List.mem_cons.mp hm with hl | hl
    · rw [← hl, Woken.serving_accept hs] at hc
      exact absurd hc (by simp)
    · exact h.serves l pos hl hs
  held := fun l hs => List.mem_cons_of_mem _ (h.held l hs)
  alone := by
    rw [List.filterMap_cons_none hc]
    exact h.alone

/-- Bytes and descriptors have nothing to do with it. -/
theorem AcceptInv.transfer (h : AcceptInv n calls g ps) (i : Nat) (rx : RingBuf UInt8 rxCap)
    (q : RingBuf Int fdsCap) :
    AcceptInv (n.setSock i { n.socks i with rx := rx, fdsRx := q }) calls g ps where
  peers := h.peers.same (sameLinks_setSock rfl rfl rfl)
  queues := by
    rw [Net.undone_setSock]
    exact h.queues.same_setSock rfl id (fun _ => rfl) rfl rfl
  listen := by
    rw [Net.undone_setSock]
    exact h.listen.setSock (h.listen i)
  fits := by
    intro l
    have hq : SameQueue (n.socks l)
        ((n.setSock i { n.socks i with rx := rx, fdsRx := q }).socks l) :=
      sameQueue_setSock fun hli => hli ▸ ⟨rfl, rfl, rfl, rfl⟩
    exact (h.fits l).longer (fun _ => hq.longer) fun _ => hq.wait
  serves := h.serves
  held := h.held
  alone := h.alone

theorem not_mem_serving : i ∉ rest.filterMap Woken.serving ↔ ∀ d ∈ rest, d.serving ≠ some i := by
  rw [List.mem_filterMap]
  push Not
  rfl

/-- A call that takes from a queue is set apart. -/
theorem AcceptInv.rest_of_serving (h : AcceptInv n (.accept i pos :: rest) g ps)
    (hs : pos.serving = true) : AcceptRest n rest g ps i ∧ ps i = pos := by
  have hpos : ps i = pos := h.serves i pos (List.mem_cons_self ..) hs
  have ha := h.alone
  rw [List.filterMap_cons_some (Woken.serving_accept hs), List.nodup_cons, not_mem_serving] at ha
  refine ⟨⟨h.peers, h.queues, h.listen, h.fits, ?_, ?_, ha.2, ha.1⟩, hpos⟩
  · exact fun l pos hm => h.serves l pos (List.mem_cons_of_mem _ hm)
  · intro l hli hl
    rcases List.mem_cons.mp (h.held l hl) with hm | hm
    · cases hm; exact absurd rfl hli
    · exact hm

/-- Nobody takes from the queue. -/
theorem AcceptInv.rest_of_free (h : AcceptInv n rest g ps)
    (hfree : ∀ d ∈ rest, d.serving ≠ some i) :
    AcceptRest n rest g ps i ∧ (ps i).serving = false := by
  refine ⟨⟨h.peers, h.queues, h.listen, h.fits, h.serves, fun l _ => h.held l, h.alone, hfree⟩, ?_⟩
  cases hs : (ps i).serving with
  | false => rfl
  | true => exact absurd (Woken.serving_accept hs) (hfree _ (h.held i hs))

/-- Nobody is on slot `i` but the call that has read its first entry. -/
theorem AcceptRest.free_pos (h : AcceptRest n rest g ps i) {l : Nat}
    (hm : Woken.accept l pos ∈ rest) (hs : pos.serving = true) : l ≠ i := by
  rintro rfl
  exact h.free _ hm (Woken.serving_accept hs)

/-- **A call that takes from a queue goes on.** -/
theorem AcceptRest.go (h : AcceptRest n rest g ps i) {s' : USock}
    (hundo : (ps i).undo (n.socks i) = pos.undo (n.socks i)) (hfit : pos.Fits (n.socks i))
    (hfirst : pos = .first → (n.socks i).nWait ≠ 0)
    (hgo : pos.go n (n.socks i) = .done (s', .inl pos')) (hs : pos'.serving = true) :
    AcceptInv (n.setSock i s') (.accept i pos' :: rest) g (update ps i pos') := by
  obtain ⟨hw, hq, hfit'⟩ := AcceptAt.go_undo hfit hfirst hgo
  obtain ⟨q, w, rfl⟩ := AcceptAt.go_queue hgo
  rw [← hundo] at hw hq
  refine ⟨h.peers.same (sameLinks_setSock rfl rfl rfl), ?_, ?_, ?_, ?_, ?_, ?_⟩
  · rw [Net.undone_update]
    exact h.queues.same_setSock rfl id (fun _ => rfl) hq hw
  · rw [Net.undone_update]
    exact h.listen.setSock fun hne => h.listen i (by rw [hw] at hne; exact hne)
  · intro l
    by_cases hli : l = i
    · rw [hli, update_self, Net.setSock_self]
      exact hfit'
    · rw [update_of_ne hli, Net.setSock_ne _ hli]
      exact h.fits l
  · intro l p hm hp
    rcases List.mem_cons.mp hm with hm | hm
    · cases hm; exact update_self ..
    · rw [update_of_ne (h.free_pos hm hp)]
      exact h.serves l p hm hp
  · intro l hl
    by_cases hli : l = i
    · rw [hli, update_self]
      exact List.mem_cons_self ..
    · rw [update_of_ne hli] at hl ⊢
      exact List.mem_cons_of_mem _ (h.held l hli hl)
  · rw [List.filterMap_cons_some (Woken.serving_accept hs), List.nodup_cons, not_mem_serving]
    exact ⟨h.free, h.alone⟩

/-- What a call that is about to return has taken out. -/
theorem check_head {si : Int} (hp : PeerInv n) (hq : QueueInv (n.undone ps) g)
    (hps : ps i = .check si) :
    ∃ k q, g.wait i = k :: q ∧ si = k.s ∧ Waiting (n.undone ps) g k ∧ k.s < unixSockMax := by
  have hslot : (n.undone ps).socks i = (AcceptAt.check si).undo (n.socks i) := by
    rw [← hps]
    rfl
  have hne : ((n.undone ps).socks i).nWait ≠ 0 := by
    rw [hslot]
    exact Nat.succ_ne_zero _
  obtain ⟨k, q, hw, hks, _⟩ := hq.head hne
  have hk := hq.waiting i (hq.used hne) k (by rw [hw]; exact List.mem_cons_self ..)
  rw [hslot] at hks
  exact ⟨k, q, hw, hks, hk, hp.bound _ hk.used⟩

/-- **A call that has taken the first entry out returns.** -/
theorem AcceptRest.returns (h : AcceptRest n rest g ps i) {k : Conn} {si : Int}
    (hps : ps i = .check si) (hks : si = k.s) :
    AcceptInv n rest (g.after (.accepted i k.s)) (update ps i .poll) := by
  have hslot : (n.undone ps).socks i = (AcceptAt.check si).undo (n.socks i) := by
    rw [← hps]
    rfl
  have hne : ((n.undone ps).socks i).nWait ≠ 0 := by
    rw [hslot]
    exact Nat.succ_ne_zero _
  have hback : n.undone (update ps i .poll) = (n.undone ps).setSock i (n.socks i) := by
    rw [← Net.setSock_eta (n := n) (i := i), Net.undone_update, Net.setSock_eta]
    rfl
  refine ⟨h.peers, ?_, ?_, ?_, ?_, ?_, h.alone⟩
  · have hacc := h.queues.accept hne (s := k.s) (by rw [hslot]; exact hks)
    rw [hslot] at hacc
    have hset := hacc.same_setSock (i := i) (s := n.socks i) (by rw [Net.setSock_self]; rfl)
      (by rw [Net.setSock_self]; exact id) (by rw [Net.setSock_self]; exact fun _ => rfl)
      (by rw [Net.setSock_self, pending_returned]) (by rw [Net.setSock_self]; rfl)
    rw [Net.setSock_setSock] at hset
    rw [hback]
    exact hset
  · rw [hback]
    refine h.listen.setSock fun _ => ?_
    have hst := h.listen i hne
    rw [hslot] at hst
    exact hst
  · intro l
    by_cases hli : l = i
    · rw [hli, update_self]
      trivial
    · rw [update_of_ne hli]
      exact h.fits l
  · intro l p hm hp
    rw [update_of_ne (h.free_pos hm hp)]
    exact h.serves l p hm hp
  · intro l hl
    by_cases hli : l = i
    · rw [hli, update_self] at hl
      exact absurd hl (by simp [AcceptAt.serving])
    · rw [update_of_ne hli] at hl ⊢
      exact h.held l hli hl

theorem recvControl_serving {msg : MsgHdr} {total : Int} {out : List UInt8}
    (h : recvControl i msg total out = .inl c') : c'.serving = none := by
  unfold recvControl at h
  split at h
  · cases h; rfl
  · exact absurd h (by simp)

theorem nextIov_serving {msg : MsgHdr} : ∀ (vs : List IoVec) (total : Int) (out : List UInt8),
    nextIov i msg vs total out = .inl c' → c'.serving = none
  | [], _, _, h => recvControl_serving h
  | v :: vs, total, out, h => by
      rw [nextIov] at h
      split at h
      · exact nextIov_serving vs total out h
      · split at h
        · exact absurd h (by simp)
        · cases h; rfl

theorem Caller.resume_serving {cl : Caller} {r : Int} {bytes : List UInt8}
    (h : cl.resume i r bytes = .inl c') : c'.serving = none := by
  unfold Caller.resume at h
  split at h
  · exact absurd h (by simp)
  · split at h
    · exact absurd h (by simp)
    · cases h; rfl

/-- A call that has read the first entry returns only once it has taken it out. -/
theorem AcceptAt.go_returns {s s' : USock} {r : Int} (hs : pos.serving = true)
    (h : pos.go n s = .done (s', .inr r)) : ∃ si, pos = .check si := by
  cases AcceptAt.goes h with
  | again => exact absurd hs (by simp [AcceptAt.serving])
  | check si r => exact ⟨si, rfl⟩

/-- It returns the socket that waited first. -/
theorem check_go {k : Conn} {si : Int} (hks : si = k.s) (hlt : k.s < unixSockMax)
    (hu : (n.socks k.s).used = true) : (Woken.accept i (.check si)).go n
      = .done (n, [.accepted i k.s], .inr (.plain (fdOf k.s))) := by
  have hgood : ¬ (si < 0 ∨ si ≥ unixSockMax ∨ (!(n.socks si.toNat).used) = true) := by
    rw [hks, Int.toNat_natCast, hu]
    simp only [Bool.not_true, Bool.false_eq_true, or_false]
    omega
  have hpos : (AcceptAt.check si).go n (n.socks i)
      = .done (n.socks i, .inr (unixSockFdBase + si)) := if_neg hgood
  have hlog : acceptLog n i (.check si) = [.accepted i k.s] := by
    unfold acceptLog
    dsimp only
    rw [if_neg hgood, hks, Int.toNat_natCast]
  rw [Woken.go, hpos, hlog, hks]
  change Outcome.done _ = _
  rw [Net.setSock_eta]
  rfl

/-- The access of a call that does not accept: bytes or descriptors at most. -/
theorem Woken.go_elsewhere {log : List Ev} {next : Woken ⊕ Ans} (hnot : ∀ i pos, c ≠ .accept i pos)
    (h : c.go n = .done (n', log, next)) :
    (∃ i rx q, n' = n.setSock i { n.socks i with rx := rx, fdsRx := q }) ∧ PlainLog log
      ∧ ∀ c', next = .inl c' → c'.serving = none := by
  have hsame : ∀ i, n = n.setSock i { n.socks i with
      rx := (n.socks i).rx, fdsRx := (n.socks i).fdsRx } := fun i => Net.setSock_eta.symm
  cases c with
  | pop i cl len pos =>
      obtain ⟨⟨s, b, r⟩, hp⟩ : ∃ x, pos.go (n.socks i) len = x := ⟨_, rfl⟩
      obtain ⟨rx, rfl⟩ := PopAt.go_rx hp
      rw [Woken.go, hp] at h
      cases h
      refine ⟨⟨i, rx, (n.socks i).fdsRx, rfl⟩, ?_, fun c' hc => ?_⟩
      · cases b with
        | none => exact plain_nil
        | some b => simp [PlainLog, Ev.plain]
      · cases r with
        | inl pos' => cases hc; rfl
        | inr r => exact Caller.resume_serving hc
  | loop i msg rest total out =>
      cases h
      exact ⟨⟨i, _, _, hsame i⟩, plain_nil, fun c' hc => nextIov_serving rest total out hc⟩
  | after i msg rest total out =>
      cases h
      exact ⟨⟨i, _, _, hsame i⟩, plain_nil, fun c' hc => by cases hc; rfl⟩
  | afterTail i msg rest total out t =>
      cases h
      refine ⟨⟨i, _, _, hsame i⟩, plain_nil, fun c' hc => ?_⟩
      split at hc
      · exact recvControl_serving hc
      · cases hc; rfl
  | fds i total out k =>
      obtain ⟨⟨q, fd, r⟩, hk⟩ : ∃ x, k.go (n.socks i).fdsRx = x := ⟨_, rfl⟩
      rw [Woken.go, hk] at h
      cases h
      refine ⟨⟨i, (n.socks i).rx, q, rfl⟩, ?_, fun c' hc => ?_⟩
      · cases fd with
        | none => exact plain_nil
        | some fd => simp [PlainLog, Ev.plain]
      · cases r with
        | none => exact absurd hc (by simp)
        | some k' => cases hc; rfl
  | accept i pos => exact absurd rfl (hnot i pos)

/-- The access of a call that accepts. -/
theorem AcceptInv.go_accept {log : List Ev} {next : Woken ⊕ Ans}
    (h : AcceptInv n (.accept i pos :: rest) g ps)
    (hload : pos = .first → (n.socks i).nWait ≠ 0 ∧ ∀ d ∈ rest, d.serving ≠ some i)
    (hgo : (Woken.accept i pos).go n = .done (n', log, next)) :
    ∃ ps', (∀ c', next = .inl c' → AcceptInv n' (c' :: rest) (log.foldl Accepts.after g) ps')
      ∧ ∀ a, next = .inr a → AcceptInv n' rest (log.foldl Accepts.after g) ps' := by
  obtain ⟨⟨s', r⟩, hp, hgo'⟩ := Outcome.bind_eq_done hgo
  cases hs : pos.serving with
  | false =>
      cases hgo'
      obtain ⟨rfl, hnext⟩ := AcceptAt.go_wait hs hp
      have hnone : (Woken.accept i pos).serving = none := if_neg (by simp [hs])
      have hlog : acceptLog n i pos = [] := by
        cases pos with
        | check si => exact absurd hs (by simp [AcceptAt.serving])
        | _ => rfl
      have hrest := h.tail hnone
      rw [hlog]
      cases r with
      | inr r =>
          refine ⟨ps, fun c' hc => absurd hc (by simp), fun a _ => ?_⟩
          rw [Net.setSock_eta]
          exact hrest
      | inl pos' =>
          cases hs' : pos'.serving with
          | false =>
              refine ⟨ps, fun c' hc => ?_, fun a ha => absurd ha (by simp)⟩
              cases hc
              rw [Net.setSock_eta]
              exact hrest.cons (if_neg (by simp [hs']))
          | true =>
              -- it reads the first entry
              obtain rfl := hnext pos' rfl hs'
              obtain ⟨hw, hfree⟩ := hload rfl
              obtain ⟨hr, hps⟩ := hrest.rest_of_free hfree
              refine ⟨update ps i pos', fun c' hc => ?_, fun a ha => absurd ha (by simp)⟩
              cases hc
              have hfit : AcceptAt.Fits (n.socks i) .first := trivial
              refine hr.go ?_ hfit (fun _ => hw) hp hs'
              rw [AcceptAt.undo_of_not_half (AcceptAt.not_half hps)]
              rfl
  | true =>
      obtain ⟨hr, hps⟩ := h.rest_of_serving hs
      cases r with
      | inl pos' =>
          cases hgo'
          have hlog : acceptLog n i pos = [] := by cases AcceptAt.goes hp <;> rfl
          rw [hlog]
          refine ⟨update ps i pos', fun c' hc => ?_, fun a ha => absurd ha (by simp)⟩
          cases hc
          refine hr.go (by rw [hps]) (hps ▸ h.fits i) (fun hf => ?_) hp (AcceptAt.go_serving hs hp)
          rw [hf] at hs
          exact absurd hs (by simp [AcceptAt.serving])
      | inr r =>
          obtain ⟨si, rfl⟩ := AcceptAt.go_returns hs hp
          obtain ⟨k, q, hw, hks, hk, hlt⟩ := check_head h.peers h.queues hps
          have hused : (n.socks k.s).used = true := hk.used
          rw [check_go hks hlt hused] at hgo
          cases hgo
          exact ⟨update ps i .poll, fun c' hc => absurd hc (by simp), fun a _ =>
            hr.returns hps hks⟩

end Invariant

/-! ## Runs -/

section Runs

variable {fs : FrameService σ} {s s' : Tasks σ} {ps : Nat → AcceptAt}

/-- **One access keeps it.** -/
theorem AcceptInv.go {n n' : Net σ} {c : Woken} {rest : List Woken} {g : Accepts} {log : List Ev}
    {next : Woken ⊕ Ans} (h : AcceptInv n (c :: rest) g ps)
    (hload : ∀ l ∈ c.loads, (n.socks l).nWait ≠ 0 ∧ ∀ d ∈ rest, d.serving ≠ some l)
    (hgo : c.go n = .done (n', log, next)) :
    ∃ ps', (∀ c', next = .inl c' → AcceptInv n' (c' :: rest) (log.foldl Accepts.after g) ps')
      ∧ ∀ a, next = .inr a → AcceptInv n' rest (log.foldl Accepts.after g) ps' := by
  by_cases hacc : ∃ i pos, c = .accept i pos
  · obtain ⟨i, pos, rfl⟩ := hacc
    exact h.go_accept (fun hf => hload i (by rw [hf]; rfl)) hgo
  · have hnot : ∀ i pos, c ≠ .accept i pos := fun i pos hc => hacc ⟨i, pos, hc⟩
    have hnone : c.serving = none := by
      cases c with
      | accept i pos => exact absurd rfl (hnot i pos)
      | _ => rfl
    obtain ⟨⟨i, rx, q, rfl⟩, hplain, hnext⟩ := Woken.go_elsewhere hnot hgo
    have hrest := (h.tail hnone).transfer i rx q
    rw [hplain.accepts]
    exact ⟨ps, fun c' hc => hrest.cons (hnext c' hc), fun a _ => hrest⟩

/-- **A call that begins keeps it.** -/
theorem AcceptInv.call {input : DevInput} {fuel : Nat} {op : SockOp} {n' : Net σ} {log : List Ev}
    {rep : Reply} (h : AcceptInv s.net s.calls (accepts s.hist) ps)
    (hc : s.AcceptsAlone (.call op)) (hcall : s.net.call fs input fuel op = .done (n', log, rep)) :
    AcceptInv n' s.calls (accepts (s.hist ++ log)) ps := by
  rcases call_edits h.peers.created hcall with he | ⟨rfl, _, v, _, _, rfl⟩
  · have hserves : ∀ l, (ps l).serving = true → ∀ e ∈ log, e.serves l = false := fun l hl =>
      (call_away hcall).1 ((hc.2 _ (h.held l hl)).1 l (Woken.serving_accept hl))
    have hjoins : ∀ l, (ps l).half = true → ∀ e ∈ log, e.joins l = false := fun l hl =>
      (call_away hcall).2 ((hc.2 _ (h.held l (AcceptAt.half_serving hl))).2 l (if_pos hl))
    have hok : Allowed Accepts.after (fun g e => ClosesOwned g e
        ∧ ∀ l, ((ps l).serving = true → e.serves l = false)
          ∧ ((ps l).half = true → e.joins l = false)) (accepts s.hist) log :=
      allowed_and.mpr ⟨call_closesOwned hc.1 hcall, fun e hem l =>
        ⟨fun hl => hserves l hl e hem, fun hl => hjoins l hl e hem⟩⟩
    have hstep : ∀ (m : Net σ) (es : List Ev) (m' : Net σ) (g : Accepts),
        QueuesKept s.net ps m g → Allowed Accepts.after (fun g e => ClosesOwned g e
          ∧ ∀ l, ((ps l).serving = true → e.serves l = false)
            ∧ ((ps l).half = true → e.joins l = false)) g es → Edit fs m es m' →
        QueuesKept s.net ps m' (es.foldl Accepts.after g) := fun m es m' g hu ha he =>
      hu.edit (fun _ => h.listens) (allowed_and.mp ha).1 (allowed_and.mp ha).2 he
    have hund := Trace.fold hstep he hok ⟨h.peers, h.queues, h.listen, fun l _ =>
      (SameQueue.refl _).longer, fun _ _ => rfl⟩
    refine ⟨hund.peers, ?_, hund.listen, fun l => (h.fits l).longer (hund.longer l) (hund.same l),
      h.serves, h.held, h.alone⟩
    unfold accepts
    rw [List.foldl_append]
    exact hund.queues
  · rw [List.append_nil]
    exact ⟨h.peers.vfs v, h.queues.vfs v, h.listen, h.fits, h.serves, h.held, h.alone⟩

/-- **One step keeps it.** -/
theorem AcceptInv.step {input : DevInput} {fuel : Nat} {act : Tasks.Act} {ans : Option Ans}
    (h : AcceptInv s.net s.calls (accepts s.hist) ps) (hc : s.AcceptsAlone act)
    (hs : s.step fs input fuel act = .done (s', ans)) :
    ∃ ps', AcceptInv s'.net s'.calls (accepts s'.hist) ps' := by
  rcases Tasks.step_cases hs with ⟨op, n, log, rep, rfl, hcall, rfl, hhist, hcalls⟩
    | ⟨k, c, n, log, next, rfl, hk, hgo, rfl, hhist, hperm, hcalls⟩ | ⟨k, _, rfl⟩
  · have hcall := h.call hc hcall
    rw [hhist]
    rcases hcalls with he | ⟨w, he⟩
    · rw [he]; exact ⟨ps, hcall⟩
    · rw [he]
      have hw : (Woken.ofWait w).serving = none := by cases w <;> rfl
      exact ⟨ps, (hcall.cons hw).perm (List.perm_append_singleton _ _).symm⟩
  · obtain ⟨ps', hnext, hret⟩ := (h.perm hperm).go (hc c hk) hgo
    have hacc : accepts s'.hist = log.foldl Accepts.after (accepts s.hist) := by
      rw [hhist]
      exact List.foldl_append
    rw [hacc]
    refine ⟨ps', ?_⟩
    rcases hcalls with ⟨c', hc', he⟩ | ⟨a, ha, _, he⟩
    · exact (hnext c' hc').perm he.symm
    · rw [he]; exact hret a ha
  · exact ⟨ps, h⟩

theorem reach_acceptInv (h : Reach Tasks.Boots (Tasks.StepsIf fs Tasks.AcceptsAlone) s) :
    ∃ ps, AcceptInv s.net s.calls (accepts s.hist) ps := by
  refine Reach.invariant (P := fun s : Tasks σ =>
    ∃ ps, AcceptInv s.net s.calls (accepts s.hist) ps) ?_ ?_ h
  · rintro s ⟨v, rfl⟩
    refine ⟨fun _ => .poll, peerInv_init v, queueInv_init v, onlyListen_init v, fun _ => trivial,
      ?_, ?_, List.nodup_nil⟩
    · exact fun l pos hm => absurd hm (by simp)
    · exact fun l hl => absurd hl (by simp [AcceptAt.serving])
  · rintro s s' ⟨ps, hi⟩ ⟨input, fuel, act, ans, hc, hs⟩
    exact hi.step hc hs

end Runs

/-! ## What the calls return -/

section Returns

variable {n : Net σ} {calls : List Woken} {g : Accepts} {ps : Nat → AcceptAt} {l : Nat}

theorem AcceptInv.length_wait (h : AcceptInv n calls g ps) (hu : (n.socks l).used = true) :
    (g.wait l).length = ((n.undone ps).socks l).nWait := by
  have := congrArg List.length (h.queues.slots l hu)
  simpa [pending] using this

/-- A call that begins takes the connection that has waited the longest. -/
theorem AcceptInv.acceptFrom_first (h : AcceptInv n calls g ps) (hu : (n.socks l).used = true)
    (hslot : (n.undone ps).socks l = n.socks l) {k : Conn} {q : List Conn}
    (hw : g.wait l = k :: q) :
    (acceptFrom n l).2 = ([.accepted l k.s], .ret (.plain (fdOf k.s))) := by
  have hne : (n.socks l).nWait ≠ 0 := by
    rw [← hslot, ← h.length_wait hu, hw]
    simp
  obtain ⟨k', q', hw', hks, _⟩ := h.queues.head (l := l) (by rw [hslot]; exact hne)
  rw [hw] at hw'
  cases hw'
  rw [hslot] at hks
  have hk := h.queues.waiting l hu k (by rw [hw]; exact List.mem_cons_self ..)
  obtain ⟨⟨n', log, rep⟩, ha⟩ : ∃ x, acceptFrom n l = x := ⟨_, rfl⟩
  rw [ha]
  rcases acceptFrom_cases ha with ⟨_, _, h0, _⟩
    | ⟨_, _, ⟨m, hm, _, _, hlog, hrep⟩ | ⟨hstale, _⟩⟩
  · exact absurd h0 hne
  · have hmk : m = k.s := by rw [hks] at hm; exact_mod_cast hm.symm
    rw [← hmk, hlog, hrep]
  · have hused := hstale k.s hks (h.peers.bound _ hk.used)
    rw [show (n.socks k.s).used = true from hk.used] at hused
    exact absurd hused (by decide)

/-- And goes to sleep where none waits, unless it must not. -/
theorem acceptFrom_empty (h0 : (n.socks l).nWait = 0) :
    acceptFrom n l = (n, [], .sleep (.accept l))
      ∨ acceptFrom n l = (n, [], .ret (.plain (-eagain))) := by
  unfold acceptFrom
  dsimp only
  rw [if_pos h0]
  split
  · exact Or.inr rfl
  · exact Or.inl rfl

/-- Every woken call knows of the slot what it needs. -/
theorem AcceptInv.fits_of_mem (h : AcceptInv n calls g ps) {pos : AcceptAt}
    (hm : Woken.accept l pos ∈ calls) : pos.Fits (n.socks l) := by
  cases hs : pos.serving with
  | true =>
      rw [← h.serves l pos hm hs]
      exact h.fits l
  | false =>
      cases pos with
      | poll => trivial
      | flags => trivial
      | first => trivial
      | _ => exact absurd hs (by simp [AcceptAt.serving])

/-- The queue is full in the slot as well: nobody has taken an entry out and not returned, or the
call would not be allowed. -/
theorem AcceptInv.connect_full {s : Tasks σ} (h : AcceptInv s.net s.calls g ps)
    (hu : (s.net.socks l).used = true) {fd : Int} {addr : Option (Nat → UInt8)} {addrlen : Nat}
    {path : CStr} (hc : s.AcceptsAlone (.call (.connect fd addr addrlen)))
    (hpath : checkAddr addr addrlen = some path) (hl : findListener s.net path = some l)
    (hfull : (g.wait l).length = 8) : (s.net.socks l).nWait = 8 := by
  rw [h.length_wait hu] at hfull
  cases hh : (ps l).half with
  | false =>
      rw [Net.undone_socks hh] at hfull
      exact hfull
  | true =>
      have hno := (hc.2 _ (h.held l (AcceptAt.half_serving hh))).2 l (if_pos hh)
      have hge : ¬ (s.net.socks l).nWait < acceptQ := fun hlt =>
        hno ⟨by rw [hpath]; exact hl, hlt⟩
      have hle := h.queues.room l
      have hbefore : (s.net.socks l).nWait ≤ ((s.net.undone ps).socks l).nWait := by
        change _ ≤ (ps l).waitBefore _
        cases ps l with
        | check si => exact Nat.le_succ _
        | _ => exact Nat.le_refl _
      unfold acceptQ at hge
      omega

end Returns

/-- **Accepting is first in, first out, and exactly once**, where nobody else is at a queue that a
woken call takes from. -/
theorem Tasks.accepts_in_order {fs : FrameService σ} {s : Tasks σ}
    (h : Reach Tasks.Boots (Tasks.StepsIf fs Tasks.AcceptsAlone) s) {l : Nat}
    (hu : (s.net.socks l).used = true) (hst : (s.net.socks l).state = .listening) :
    -- what was returned and what waits is what was made, in order and each once
    ((accepts s.hist).made l).map Conn.ep
        = (accepts s.hist).given l ++ ((accepts s.hist).wait l).map Conn.ep
      ∧ (((accepts s.hist).made l).map Conn.ep).Nodup
      ∧ ((accepts s.hist).wait l).length ≤ 8
      ∧ (∀ k q, (accepts s.hist).wait l = k :: q → Served s.net (accepts s.hist) k
          ∧ (accepts (s.hist ++ [.accepted l k.s])).given l
            = (accepts s.hist).given l ++ [k.ep])
      -- a call that begins, or begins to take from the queue, returns the first that waits
      ∧ ((∀ c ∈ s.calls, c.serving ≠ some l) → unixAccept s.net (fdOf l) = acceptFrom s.net l
          ∧ (∀ k q, (accepts s.hist).wait l = k :: q →
            (acceptFrom s.net l).2 = ([.accepted l k.s], .ret (.plain (fdOf k.s))))
          ∧ ((accepts s.hist).wait l = [] → acceptFrom s.net l = (s.net, [], .sleep (.accept l))
            ∨ acceptFrom s.net l = (s.net, [], .ret (.plain (-eagain)))))
      -- so does one that was woken, and it does get there
      ∧ (∀ si, Woken.accept l (.check si) ∈ s.calls → ∃ k q, (accepts s.hist).wait l = k :: q
          ∧ (Woken.accept l (.check si)).go s.net
            = .done (s.net, [.accepted l k.s], .inr (.plain (fdOf k.s))))
      ∧ (∀ pos, Woken.accept l pos ∈ s.calls → ∃ x, (Woken.accept l pos).go s.net = .done x)
      -- a ninth connection is refused
      ∧ ∀ fd addr addrlen path n' log r, s.AcceptsAlone (.call (.connect fd addr addrlen)) →
          checkAddr addr addrlen = some path → findListener s.net path = some l →
          ((accepts s.hist).wait l).length = 8 →
          unixConnect s.net fd addr addrlen = (n', log, r) →
          r < 0 ∧ log = [] ∧ ∀ i, (s.net.socks i).used = true → n'.socks i = s.net.socks i := by
  obtain ⟨ps, hi⟩ := reach_acceptInv h
  have hq := hi.queues
  have hlen := hi.length_wait hu
  obtain ⟨done, hd, hg⟩ := hq.conns.order l
  refine ⟨by rw [hd, List.map_append, hg], hq.conns.nodup l, by rw [hlen]; exact hq.room l,
    ?_, ?_, ?_, ?_, ?_⟩
  · intro k q hw
    have hk := hq.waiting l hu k (by rw [hw]; exact List.mem_cons_self ..)
    refine ⟨⟨hk.used, hk.state, hk.gen, hk.client⟩, ?_⟩
    unfold accepts
    rw [List.foldl_append]
    simp only [List.foldl_cons, List.foldl_nil, Accepts.after, update_self]
    unfold Conn.ep
    rw [← hk.gen]
    rfl
  · intro hfree
    obtain ⟨_, hps⟩ := hi.rest_of_free hfree
    have hslot : (s.net.undone ps).socks l = s.net.socks l :=
      Net.undone_socks (AcceptAt.not_half hps)
    refine ⟨?_, fun k q hw => hi.acceptFrom_first hu hslot hw, fun hw => acceptFrom_empty ?_⟩
    · unfold unixAccept
      rw [sockOf_fdOf (hi.peers.bound l hu) hu]
      exact if_neg (not_not.mpr hst)
    · rw [← hslot, ← hlen, hw]
      rfl
  · intro si hm
    obtain ⟨k, q, hw, hks, hk, hlt⟩ := check_head hi.peers hq (hi.serves l _ hm rfl)
    exact ⟨k, q, hw, check_go hks hlt hk.used⟩
  · intro pos hm
    obtain ⟨x, hx⟩ := AcceptAt.go_done (n := s.net) (hi.fits_of_mem hm)
    rw [Woken.go, hx]
    exact ⟨_, rfl⟩
  · intro fd addr addrlen path n' log r hc hpath hl hfull hr
    exact unixConnect_full hi.peers hpath hl (hi.connect_full hu hc hpath hl hfull) hr

/-- A listener at `/tmp/s` in slot 0 with two calls of `unix_accept` asleep on it, and two clients
that have connected to it. -/
def twoServers : List Tasks.Act :=
  [.call (.socket 1 1), .call (.bind 128 (unAddr (cstr "/tmp/s")) 8), .call (.listen 128),
    .call (.accept 128), .call (.accept 128),
    .call (.socket 1 1), .call (.connect 129 (unAddr (cstr "/tmp/s")) 8),
    .call (.socket 1 1), .call (.connect 131 (unAddr (cstr "/tmp/s")) 8)]

/-- Both find the queue not empty, and one of them takes from it before the other does. -/
theorem Tasks.accepts_in_order_servers : ∃ s : Tasks Nat,
    Reach Tasks.Boots (Tasks.StepsIf zeroedService Tasks.AcceptsAlone) s
    ∧ (s.net.socks 0).used = true ∧ (s.net.socks 0).state = .listening
    ∧ (accepts s.hist).given 0 = [(2, 1)] ∧ (accepts s.hist).wait 0 = [⟨4, 1, 3, 1⟩]
    ∧ Served s.net (accepts s.hist) ⟨4, 1, 3, 1⟩
    ∧ (accepts (s.hist ++ [.accepted 0 4])).given 0 = [(2, 1), (4, 1)] := by
  have hrun : (do
      let (s, _) ← bootTasks.run zeroedService Tasks.AcceptsAlone noInput 0
        (twoServers ++ goes 1 1 ++ goes 0 8 ++ goes 0 3)
      return decide ((s.net.socks 0).used = true ∧ (s.net.socks 0).state = SkState.listening
        ∧ (accepts s.hist).given 0 = [(2, 1)]
        ∧ (accepts s.hist).wait 0 = [Conn.mk 4 1 3 1])) = .done true := by
    decide +kernel
  obtain ⟨⟨s, anss⟩, hs, hd⟩ := Outcome.bind_eq_done hrun
  have hd := of_decide_eq_true (Outcome.done.inj hd)
  have hr := Tasks.run_reach (.start bootTasks_boots) hs
  obtain ⟨h1, h2⟩ := (Tasks.accepts_in_order hr hd.1 hd.2.1).2.2.2.1 _ _ hd.2.2.2
  rw [hd.2.2.1] at h2
  exact ⟨s, hr, hd.1, hd.2.1, hd.2.2.1, hd.2.2.2, h1, h2⟩

/-- Programs close only descriptors that were returned to them. -/
def Tasks.ClosesOwn (s : Tasks σ) : Tasks.Act → Prop
  | .call op => op.ClosesOwn s.net (accepts s.hist)
  | .go _ => True

instance (s : Tasks σ) : ∀ act, Decidable (s.ClosesOwn act)
  | .call op => inferInstanceAs (Decidable (op.ClosesOwn s.net (accepts s.hist)))
  | .go _ => inferInstanceAs (Decidable True)

/-- **Two calls that were asleep return the same connection.** Each reads the first entry before the
other has taken it out. -/
theorem Tasks.servers_share : ¬ ∀ s : Tasks Nat,
    Reach Tasks.Boots (Tasks.StepsIf zeroedService Tasks.ClosesOwn) s →
    ∀ l, (s.net.socks l).used = true → (s.net.socks l).state = .listening →
      (accepts s.hist).given l <+: ((accepts s.hist).made l).map Conn.ep := by
  intro hall
  have hrun : (do
      let (s, _) ← bootTasks.run zeroedService Tasks.ClosesOwn noInput 0
        (twoServers ++ goes 0 2 ++ goes 1 2 ++ goes 0 6 ++ goes 0 5)
      return decide ((s.net.socks 0).used = true ∧ (s.net.socks 0).state = SkState.listening
        ∧ (accepts s.hist).given 0 = [(2, 1), (2, 1)]
        ∧ ((accepts s.hist).made 0).map Conn.ep = [(2, 1), (4, 1)])) = .done true := by
    decide +kernel
  obtain ⟨⟨s, anss⟩, hs, hd⟩ := Outcome.bind_eq_done hrun
  have hd := of_decide_eq_true (Outcome.done.inj hd)
  have hr := Tasks.run_reach (.start bootTasks_boots) hs
  have hpre := hall s hr 0 hd.1 hd.2.1
  rw [hd.2.2.1, hd.2.2.2] at hpre
  exact absurd hpre (by decide)

end VnlKernel
