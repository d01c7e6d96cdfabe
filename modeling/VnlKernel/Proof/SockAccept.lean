import Mathlib.Data.List.Nodup
import VnlKernel.Proof.SockRun
import VnlKernel.Proof.SockStream

/-!
# Connections on their way to a program

A connection's server side is a slot that no program has yet. It waits in the queue of
a listener, by its number, until `unix_accept` hands it out. What is kept in mind of the
log is which connections were made to each listener and which it has handed out, and
which descriptors some program has.

If programs close only what they were given, nobody closes a slot while it waits, so
the number in the queue still means the socket it meant when it was put there. The
client, which has its own descriptor, may well be gone; then the waiting side has lost
its peer, and does not gain another one when the client's slot is used again.
-/

namespace VnlKernel

open Run Function

variable {σ : Type}

/-- A connection: the server's slot and the client's, each with its generation. -/
structure Conn where
  s : Nat
  gs : Nat
  c : Nat
  gc : Nat
deriving DecidableEq

/-- The server-side endpoint, as a socket. -/
def Conn.ep (k : Conn) : Nat × Nat := (k.s, k.gs)

/-- What is kept in mind, by slot. What is said of a listener is said since it was handed out. -/
structure Accepts where
  gens : Nat → Nat
  /-- The connections made to a listener. -/
  made : Nat → List Conn
  /-- The sockets that accepting from a listener has returned. -/
  given : Nat → List (Nat × Nat)
  /-- The connections made and not returned yet. -/
  wait : Nat → List Conn
  /-- Was the descriptor returned to a program, and not closed since? -/
  owned : Nat → Bool

/-- A slot is handed out. -/
def Accepts.hand (g : Accepts) (i : Nat) (own : Bool) : Accepts :=
  ⟨update g.gens i (g.gens i + 1), update g.made i [], update g.given i [], update g.wait i [],
    update g.owned i own⟩

/-- A connection is made to `l`. -/
def Accepts.link (g : Accepts) (l : Nat) (k : Conn) : Accepts :=
  { g with made := update g.made l (g.made l ++ [k]), wait := update g.wait l (g.wait l ++ [k]) }

def Accepts.after (g : Accepts) : Ev → Accepts
  | .opened i => g.hand i true
  | .paired a b => (g.hand a true).hand b true
  | .looped i => g.hand i true
  | .linked c s l => (g.hand s false).link l ⟨s, g.gens s + 1, c, g.gens c⟩
  | .accepted l s =>
      { g with given := update g.given l (g.given l ++ [(s, g.gens s)]),
               wait := update g.wait l (g.wait l).tail, owned := update g.owned s true }
  | .stale l _ => { g with wait := update g.wait l (g.wait l).tail }
  | .closed i _ => { g with owned := update g.owned i false }
  | _ => g

def Accepts.init : Accepts := ⟨fun _ => 0, fun _ => [], fun _ => [], fun _ => [], fun _ => false⟩

/-- The connections of a whole run. -/
def accepts (hist : List Ev) : Accepts := hist.foldl Accepts.after .init

/-! ## What the log alone says -/

/-- Connections are told apart by slot and generation, and a listener's are handed out in order. -/
structure ConnInv (g : Accepts) : Prop where
  order : ∀ l, ∃ done, g.made l = done ++ g.wait l ∧ done.map Conn.ep = g.given l
  le : ∀ l k, k ∈ g.made l → k.gs ≤ g.gens k.s ∧ k.gc ≤ g.gens k.c
  nodup : ∀ l, ((g.made l).map Conn.ep).Nodup
  apart : ∀ l l' k k', k ∈ g.made l → k' ∈ g.made l' → k.ep = k'.ep → l = l'

section Conns

variable {g : Accepts} {i k l : Nat} {own : Bool}

@[simp] theorem Accepts.hand_self : (g.hand i own).gens i = g.gens i + 1
    ∧ (g.hand i own).made i = []
    ∧ (g.hand i own).given i = [] ∧ (g.hand i own).wait i = [] ∧ (g.hand i own).owned i = own := by
  simp [Accepts.hand]

theorem Accepts.hand_ne (h : k ≠ i) : (g.hand i own).gens k = g.gens k
    ∧ (g.hand i own).made k = g.made k ∧ (g.hand i own).given k = g.given k
    ∧ (g.hand i own).wait k = g.wait k ∧ (g.hand i own).owned k = g.owned k := by
  simp [Accepts.hand, h]

theorem Accepts.hand_gens_le : g.gens k ≤ (g.hand i own).gens k := by
  by_cases h : k = i
  · subst h; rw [Accepts.hand_self.1]; omega
  · rw [(Accepts.hand_ne h).1]

theorem Accepts.mem_hand {x : Conn} (h : x ∈ (g.hand i own).made l) : l ≠ i ∧ x ∈ g.made l := by
  by_cases hl : l = i
  · subst hl; rw [Accepts.hand_self.2.1] at h; exact absurd h (by simp)
  · rw [(Accepts.hand_ne hl).2.1] at h; exact ⟨hl, h⟩

theorem ConnInv.hand (h : ConnInv g) : ConnInv (g.hand i own) where
  order := by
    intro l
    by_cases hl : l = i
    · subst hl
      obtain ⟨_, h1, h2, h3, _⟩ := @Accepts.hand_self g l own
      exact ⟨[], by rw [h1, h3]; rfl, by rw [h2]; rfl⟩
    · obtain ⟨_, h1, h2, h3, _⟩ := @Accepts.hand_ne g i l own hl
      rw [h1, h2, h3]
      exact h.order l
  le := by
    intro l k hk
    obtain ⟨_, hk⟩ := Accepts.mem_hand hk
    obtain ⟨h1, h2⟩ := h.le l k hk
    exact ⟨Nat.le_trans h1 Accepts.hand_gens_le, Nat.le_trans h2 Accepts.hand_gens_le⟩
  nodup := by
    intro l
    by_cases hl : l = i
    · subst hl; rw [Accepts.hand_self.2.1]; exact List.nodup_nil
    · rw [(Accepts.hand_ne hl).2.1]; exact h.nodup l
  apart := by
    intro l l' k k' hk hk' he
    exact h.apart l l' k k' (Accepts.mem_hand hk).2 (Accepts.mem_hand hk').2 he

theorem Accepts.mem_link {x k : Conn} {l m : Nat} (h : x ∈ (g.link l k).made m) :
    x ∈ g.made m ∨ x = k ∧ m = l := by
  by_cases hm : m = l
  · subst hm
    simp only [Accepts.link, update_self, List.mem_append, List.mem_singleton] at h
    rcases h with h | h
    · exact Or.inl h
    · exact Or.inr ⟨h, rfl⟩
  · simp only [Accepts.link, update_of_ne hm] at h
    exact Or.inl h

/-- A connection whose endpoint is new. -/
theorem ConnInv.link (h : ConnInv g) {k : Conn} (hle : k.gs ≤ g.gens k.s ∧ k.gc ≤ g.gens k.c)
    (hnew : ∀ m x, x ∈ g.made m → x.ep ≠ k.ep) : ConnInv (g.link l k) where
  order := by
    intro m
    obtain ⟨done, h1, h2⟩ := h.order m
    by_cases hm : m = l
    · subst hm
      refine ⟨done, ?_, h2⟩
      simp only [Accepts.link, update_self]
      rw [h1, List.append_assoc]
    · simp only [Accepts.link, update_of_ne hm]
      exact ⟨done, h1, h2⟩
  le := by
    intro m x hx
    rcases Accepts.mem_link hx with hx | ⟨rfl, _⟩
    · exact h.le m x hx
    · exact hle
  nodup := by
    intro m
    by_cases hm : m = l
    · subst hm
      simp only [Accepts.link, update_self, List.map_append, List.map_singleton]
      rw [List.nodup_append]
      refine ⟨h.nodup m, List.nodup_singleton _, ?_⟩
      intro a ha b hb
      rw [List.mem_singleton] at hb
      obtain ⟨x, hx, rfl⟩ := List.mem_map.mp ha
      rw [hb]
      exact hnew m x hx
    · simp only [Accepts.link, update_of_ne hm]
      exact h.nodup m
  apart := by
    intro m m' x x' hx hx' he
    rcases Accepts.mem_link hx with hy | ⟨hy, hm⟩
    · rcases Accepts.mem_link hx' with hy' | ⟨hy', _⟩
      · exact h.apart m m' x x' hy hy' he
      · exact absurd (hy' ▸ he) (hnew m x hy)
    · rcases Accepts.mem_link hx' with hy' | ⟨_, hm'⟩
      · exact absurd (hy ▸ he).symm (hnew m' x' hy')
      · rw [hm, hm']

theorem ConnInv.linked (h : ConnInv g) (c s l : Nat) (hcs : c ≠ s) :
    ConnInv (g.after (.linked c s l)) := by
  refine h.hand.link ⟨?_, ?_⟩ ?_
  · exact Nat.le_of_eq Accepts.hand_self.1.symm
  · exact Nat.le_of_eq (Accepts.hand_ne hcs).1.symm
  · -- every earlier endpoint in this slot is of a lower generation
    intro m x hx he
    obtain ⟨_, hx⟩ := Accepts.mem_hand hx
    have hle := (h.le m x hx).1
    simp only [Conn.ep, Prod.mk.injEq] at he
    rw [he.1, he.2] at hle
    omega

/-- The first waiting connection is handed out. -/
theorem ConnInv.accept (h : ConnInv g) {l s : Nat} {k : Conn} {q : List Conn}
    (hw : g.wait l = k :: q)
    (hk : k.ep = (s, g.gens s)) : ConnInv (g.after (.accepted l s)) where
  order := by
    intro m
    obtain ⟨done, h1, h2⟩ := h.order m
    by_cases hm : m = l
    · subst hm
      rw [hw] at h1
      refine ⟨done ++ [k], ?_, ?_⟩
      · simp only [Accepts.after, update_self]
        rw [h1, hw, List.append_assoc]
        rfl
      · simp only [Accepts.after, update_self]
        rw [List.map_append, h2, ← hk]
        rfl
    · simp only [Accepts.after, update_of_ne hm]
      exact ⟨done, h1, h2⟩
  le := h.le
  nodup := h.nodup
  apart := h.apart

theorem ConnInv.close (h : ConnInv g) {fds : List Int} : ConnInv (g.after (.closed i fds)) :=
  ⟨h.order, h.le, h.nodup, h.apart⟩

theorem connInv_init : ConnInv .init where
  order := fun _ => ⟨[], rfl, rfl⟩
  le := by intro l k hk; exact absurd hk (by simp [Accepts.init])
  nodup := fun _ => List.nodup_nil
  apart := by intro l l' k k' hk; exact absurd hk (by simp [Accepts.init])

end Conns

/-! ## What the queues hold -/

/-- The entries of a slot's queue. -/
def pending (s : USock) : List Int := (List.range s.nWait).map s.listenQ

theorem pending_enqueue (s : USock) (k : Nat) :
    pending (s.enqueue k) = pending s ++ [(k : Int)] := by
  unfold pending USock.enqueue
  dsimp only
  rw [List.range_succ, List.map_append, List.map_singleton, if_pos rfl]
  congr 1
  refine List.map_congr_left fun m hm => if_neg ?_
  rw [List.mem_range] at hm
  omega

theorem pending_dequeue {s : USock} (h : s.nWait ≠ 0) :
    pending s = s.listenQ 0 :: pending s.dequeue := by
  obtain ⟨m, hm⟩ : ∃ m, s.nWait = m + 1 := ⟨s.nWait - 1, by omega⟩
  unfold pending USock.dequeue
  dsimp only
  rw [hm, List.range_succ_eq_map, List.map_cons, List.map_map, Nat.add_sub_cancel]
  congr 1
  refine List.map_congr_left fun k hk => ?_
  rw [List.mem_range] at hk
  rw [if_pos hk]
  rfl

theorem Touched.pending {s s' : USock} (ht : Touched s s') : pending s' = pending s := by
  unfold VnlKernel.pending
  rw [ht.queue, ht.wait]

theorem pending_eq_nil {s : USock} (h : s.nWait = 0) : pending s = [] := by
  unfold pending
  rw [h]
  rfl

/-- **Queues are what the log says they are.** -/
structure SlotInv (n : Net σ) (g : Accepts) : Prop where
  idle : ∀ l, (n.socks l).used = false → (n.socks l).nWait = 0
  room : ∀ l, (n.socks l).nWait ≤ acceptQ
  slots : ∀ l, (n.socks l).used = true →
    (g.wait l).map (fun k => (k.s : Int)) = pending (n.socks l)

section Slots

variable {fs : FrameService σ} {n n' : Net σ} {g g' : Accepts}

/-- A slot is rewritten without a change to its queue. -/
theorem SlotInv.same_setSock (h : SlotInv n g) {i : Nat} {s : USock}
    (hu : s.used = (n.socks i).used)
    (hq : pending s = pending (n.socks i)) (hw : s.nWait = (n.socks i).nWait) :
    SlotInv (n.setSock i s) g where
  idle := by
    intro l hl
    by_cases hli : l = i
    · subst hli; rw [Net.setSock_self] at hl ⊢; rw [hw]; exact h.idle l (hu ▸ hl)
    · rw [Net.setSock_ne _ hli] at hl ⊢; exact h.idle l hl
  room := by
    intro l
    by_cases hli : l = i
    · rw [hli, Net.setSock_self, hw]; exact h.room i
    · rw [Net.setSock_ne _ hli]; exact h.room l
  slots := by
    intro l hl
    by_cases hli : l = i
    · subst hli
      rw [Net.setSock_self] at hl ⊢
      rw [h.slots l (hu ▸ hl), hq]
    · rw [Net.setSock_ne _ hli] at hl ⊢; exact h.slots l hl

theorem SlotInv.vfs (h : SlotInv n g) (v : Vfs σ) : SlotInv { n with vfs := v } g :=
  ⟨h.idle, h.room, h.slots⟩

/-- A free slot is handed out with an empty queue. -/
theorem SlotInv.hand (h : SlotInv n g) {i : Nat} {s : USock} {own : Bool} (hw : s.nWait = 0) :
    SlotInv (n.setSock i s) (g.hand i own) where
  idle := by
    intro l hl
    by_cases hli : l = i
    · rw [hli, Net.setSock_self]; exact hw
    · rw [Net.setSock_ne _ hli] at hl ⊢; exact h.idle l hl
  room := by
    intro l
    by_cases hli : l = i
    · rw [hli, Net.setSock_self, hw]; exact Nat.zero_le _
    · rw [Net.setSock_ne _ hli]; exact h.room l
  slots := by
    intro l hl
    by_cases hli : l = i
    · subst hli
      rw [Net.setSock_self, pending_eq_nil hw, Accepts.hand_self.2.2.2.1]
      rfl
    · rw [Net.setSock_ne _ hli] at hl ⊢
      rw [(Accepts.hand_ne hli).2.2.2.1]
      exact h.slots l hl

/-- A connection is put at the end of a queue. -/
theorem SlotInv.link (h : SlotInv n g) {l : Nat} {k : Conn} (hul : (n.socks l).used = true)
    (hroom : (n.socks l).nWait < acceptQ) :
    SlotInv (n.setSock l ((n.socks l).enqueue k.s)) (g.link l k) where
  idle := by
    intro m hm
    by_cases hml : m = l
    · subst hml; rw [Net.setSock_self] at hm; exact absurd (hm.symm.trans hul) (by decide)
    · rw [Net.setSock_ne _ hml] at hm ⊢; exact h.idle m hm
  room := by
    intro m
    by_cases hml : m = l
    · subst hml; rw [Net.setSock_self]; exact hroom
    · rw [Net.setSock_ne _ hml]; exact h.room m
  slots := by
    intro m hm
    by_cases hml : m = l
    · subst hml
      simp only [Accepts.link, update_self]
      rw [Net.setSock_self, pending_enqueue, List.map_append, h.slots m hul]
      rfl
    · simp only [Accepts.link, update_of_ne hml]
      rw [Net.setSock_ne _ hml] at hm ⊢
      exact h.slots m hm

/-- Only a slot in use has anything in its queue. -/
theorem SlotInv.used (h : SlotInv n g) {l : Nat} (hw : (n.socks l).nWait ≠ 0) :
    (n.socks l).used = true := by
  cases hu : (n.socks l).used with
  | true => rfl
  | false => exact absurd (h.idle l hu) hw

/-- The first entry of a queue is the first connection that waits. -/
theorem SlotInv.head (h : SlotInv n g) {l : Nat} (hw : (n.socks l).nWait ≠ 0) :
    ∃ k q, g.wait l = k :: q ∧ (n.socks l).listenQ 0 = k.s
      ∧ q.map (fun k => (k.s : Int)) = pending (n.socks l).dequeue := by
  have hslots := h.slots l (h.used hw)
  rw [pending_dequeue hw] at hslots
  cases hq : g.wait l with
  | nil => rw [hq] at hslots; exact absurd hslots (by simp)
  | cons k q =>
      rw [hq, List.map_cons, List.cons.injEq] at hslots
      exact ⟨k, q, rfl, hslots.1.symm, hslots.2⟩

/-- The first entry of a queue is taken out. -/
theorem SlotInv.dequeue (h : SlotInv n g) {l : Nat} (hw : (n.socks l).nWait ≠ 0)
    (hg : g'.wait = update g.wait l (g.wait l).tail) :
    SlotInv (n.setSock l (n.socks l).dequeue) g' where
  idle := by
    intro m hm
    by_cases hml : m = l
    · subst hml; rw [Net.setSock_self] at hm; exact absurd (hm.symm.trans (h.used hw)) (by decide)
    · rw [Net.setSock_ne _ hml] at hm ⊢; exact h.idle m hm
  room := by
    intro m
    have hroom := h.room m
    by_cases hml : m = l
    · subst hml
      rw [Net.setSock_self]
      change (n.socks m).nWait - 1 ≤ acceptQ
      omega
    · rw [Net.setSock_ne _ hml]; exact hroom
  slots := by
    intro m hm
    rw [hg]
    by_cases hml : m = l
    · subst hml
      obtain ⟨k, q, hq, _, hrest⟩ := h.head hw
      rw [update_self, Net.setSock_self, hq]
      exact hrest
    · rw [update_of_ne hml, Net.setSock_ne _ hml]
      rw [Net.setSock_ne _ hml] at hm
      exact h.slots m hm

/-- What giving slot `i` up leaves of another one. -/
theorem shutSlot_rest {i m : Nat} (hm : m ≠ i) : ((shutSlot n i).socks m).used = (n.socks m).used
    ∧ ((shutSlot n i).socks m).nWait = (n.socks m).nWait
    ∧ pending ((shutSlot n i).socks m) = pending (n.socks m)
    ∧ ((shutSlot n i).socks m).state = (n.socks m).state := by
  rcases shutSlot_ne (n := n) hm with he | ⟨_, _, _, he⟩
  · rw [he]; exact ⟨rfl, rfl, rfl, rfl⟩
  · rw [he]; exact ⟨rfl, rfl, rfl, rfl⟩

theorem SlotInv.shut (h : SlotInv n g) {i : Nat} (hg : g'.wait = g.wait) :
    SlotInv (shutSlot n i) g' where
  idle := by
    intro m hm
    by_cases hmi : m = i
    · rw [hmi, shutSlot_self]; rfl
    · rw [(shutSlot_rest hmi).1] at hm
      rw [(shutSlot_rest hmi).2.1]
      exact h.idle m hm
  room := by
    intro m
    by_cases hmi : m = i
    · rw [hmi, shutSlot_self]; exact Nat.zero_le _
    · rw [(shutSlot_rest hmi).2.1]; exact h.room m
  slots := by
    intro m hm
    have hmi : m ≠ i := by rintro rfl; rw [shutSlot_self] at hm; exact absurd hm (by decide)
    rw [(shutSlot_rest hmi).1] at hm
    rw [(shutSlot_rest hmi).2.2.1, hg]
    exact h.slots m hm

/-- **One edit keeps it**, whoever closes what. -/
theorem SlotInv.edit (h : SlotInv n g) {es : List Ev} (he : Edit fs n es n') :
    SlotInv n' (es.foldl Accepts.after g) := by
  cases he with
  | @scratch i s hu hs =>
      have hne : ∀ m, ((n.setSock i s).socks m).used = true → m ≠ i := fun _ => hs.elsewhere
      refine ⟨?_, ?_, ?_⟩
      · intro m hm
        by_cases hmi : m = i
        · rw [hmi, Net.setSock_self]; exact hs.wait
        · rw [Net.setSock_ne _ hmi] at hm ⊢; exact h.idle m hm
      · intro m
        by_cases hmi : m = i
        · rw [hmi, Net.setSock_self, hs.wait]; exact Nat.zero_le _
        · rw [Net.setSock_ne _ hmi]; exact h.room m
      · intro m hm
        have hmi := hne m hm
        rw [Net.setSock_ne _ hmi] at hm ⊢
        exact h.slots m hm
  | touched ht => exact h.same_setSock ht.used ht.pending ht.wait
  | opened hi hu => exact h.hand rfl
  | paired ha hb hne hua hub => exact (h.hand rfl).hand rfl
  | looped hi hu flags => exact h.hand rfl
  | @linked c s l hc huc hsc hs hus hl hul hsl hw =>
      have hcs : c ≠ s := Net.used_ne huc hus
      have hls : l ≠ s := Net.used_ne hul hus
      have hlc : l ≠ c := Net.listening_ne hsl hsc
      have hcv : (n.setSock s (USock.fresh.joined c)).socks c = n.socks c := Net.setSock_ne _ hcs
      have h1 : SlotInv (n.setSock s (USock.fresh.joined c)) (g.hand s false) := h.hand rfl
      have h2 : SlotInv ((n.setSock s (USock.fresh.joined c)).setSock c ((n.socks c).joined s))
          (g.hand s false) := h1.same_setSock (by rw [hcv]; rfl) (by rw [hcv]; rfl)
            (by rw [hcv]; rfl)
      have hlv : ((n.setSock s (USock.fresh.joined c)).setSock c ((n.socks c).joined s)).socks l
          = n.socks l := by rw [Net.setSock_ne _ hlc, Net.setSock_ne _ hls]
      have h3 := h2.link (l := l) (k := ⟨s, g.gens s + 1, c, g.gens c⟩) (by rw [hlv]; exact hul)
        (by rw [hlv]; exact hw)
      rw [hlv] at h3
      exact h3
  | accepted hw hs hlt hu => exact h.dequeue hw rfl
  | stale hw hs => exact h.dequeue hw rfl
  | pushed _ _ => exact h.same_setSock rfl rfl rfl
  | popped _ => exact h.same_setSock rfl rfl rfl
  | sent _ _ _ => exact (h.vfs _).same_setSock rfl rfl rfl
  | received _ => exact h.same_setSock rfl rfl rfl
  | @closed i _ _ =>
      have hs : SlotInv (shutSlot n i) (g.after (.closed i (n.socks i).fdsRx.toList)) := h.shut rfl
      exact hs.vfs _
  | openFile _ => exact h.vfs _
  | closeFile _ => exact h.vfs _
  | dupFile _ => exact h.vfs _
  | unlinkFile _ => exact h.vfs _

theorem slotInv_init (v : Vfs σ) : SlotInv (unixSocketInit v) .init :=
  ⟨fun _ _ => rfl, fun _ => Nat.zero_le _, fun _ _ => rfl⟩

end Slots

/-- A connection that waits is the socket it was made as; its client is still there, or it has no
peer. -/
structure Waiting (n : Net σ) (g : Accepts) (k : Conn) : Prop where
  used : (n.socks k.s).used = true
  state : (n.socks k.s).state = .connected
  gen : g.gens k.s = k.gs
  own : g.owned k.s = false
  client : ((n.socks k.s).peerIdx = k.c ∧ (n.socks k.c).used = true ∧ g.gens k.c = k.gc)
    ∨ ((n.socks k.s).peerIdx = peerNone ∧ ¬ ((n.socks k.c).used = true ∧ g.gens k.c = k.gc))

/-- **The entries of queues are the connections that wait.** -/
structure QueueInv (n : Net σ) (g : Accepts) : Prop extends SlotInv n g where
  conns : ConnInv g
  waiting : ∀ l, (n.socks l).used = true → ∀ k ∈ g.wait l, Waiting n g k

section Queue

variable {fs : FrameService σ} {n n' : Net σ} {g g' : Accepts}

/-- Nothing that matters to a waiting connection has changed. -/
theorem Waiting.same {k : Conn} (h : Waiting n g k)
    (hs : (n'.socks k.s).used = (n.socks k.s).used ∧ (n'.socks k.s).state = (n.socks k.s).state
      ∧ (n'.socks k.s).peerIdx = (n.socks k.s).peerIdx)
    (hc : (n'.socks k.c).used = (n.socks k.c).used) (hgs : g'.gens k.s = g.gens k.s)
    (hgc : g'.gens k.c = g.gens k.c) (ho : g'.owned k.s = g.owned k.s) : Waiting n' g' k where
  used := by rw [hs.1]; exact h.used
  state := by rw [hs.2.1]; exact h.state
  gen := by rw [hgs]; exact h.gen
  own := by rw [ho]; exact h.own
  client := by rw [hs.2.2, hc, hgc]; exact h.client

/-- A free slot is handed out. Had it been the client's, the client is gone for good. -/
theorem Waiting.hand {k : Conn} (h : Waiting n g k) (hle : k.gc ≤ g.gens k.c) {i : Nat} {s : USock}
    {own : Bool} (hu : (n.socks i).used = false) : Waiting (n.setSock i s) (g.hand i own) k := by
  have hsi : k.s ≠ i := by rintro rfl; rw [h.used] at hu; exact absurd hu (by decide)
  by_cases hci : k.c = i
  · have hlost : (n.socks k.s).peerIdx = peerNone := by
      rcases h.client with ⟨_, hc, _⟩ | ⟨hp, _⟩
      · rw [hci, hu] at hc; exact absurd hc (by decide)
      · exact hp
    refine ⟨?_, ?_, ?_, ?_, Or.inr ⟨?_, ?_⟩⟩
    · rw [Net.setSock_ne _ hsi]; exact h.used
    · rw [Net.setSock_ne _ hsi]; exact h.state
    · rw [(Accepts.hand_ne hsi).1]; exact h.gen
    · rw [(Accepts.hand_ne hsi).2.2.2.2]; exact h.own
    · rw [Net.setSock_ne _ hsi]; exact hlost
    · rintro ⟨_, hg⟩
      rw [hci, Accepts.hand_self.1, ← hci] at hg
      omega
  · refine h.same ?_ ?_ ?_ ?_ ?_
    · rw [Net.setSock_ne _ hsi]; exact ⟨rfl, rfl, rfl⟩
    · rw [Net.setSock_ne _ hci]
    · exact (Accepts.hand_ne hsi).1
    · exact (Accepts.hand_ne hci).1
    · exact (Accepts.hand_ne hsi).2.2.2.2

theorem QueueInv.wait_le (h : QueueInv n g) {l : Nat} {k : Conn} (hk : k ∈ g.wait l) :
    k.gc ≤ g.gens k.c := by
  obtain ⟨done, hd, _⟩ := h.conns.order l
  exact (h.conns.le l k (by rw [hd]; exact List.mem_append_right _ hk)).2

/-- A slot is rewritten without a change to its queue or to who it is connected to. -/
theorem QueueInv.same_setSock (h : QueueInv n g) {i : Nat} {s : USock}
    (hu : s.used = (n.socks i).used)
    (hs : (n.socks i).state = .connected → s.state = .connected)
    (hp : (n.socks i).state = .connected → s.peerIdx = (n.socks i).peerIdx)
    (hq : pending s = pending (n.socks i)) (hw : s.nWait = (n.socks i).nWait) :
    QueueInv (n.setSock i s) g := by
  have hused : ∀ l, ((n.setSock i s).socks l).used = (n.socks l).used := by
    intro l
    by_cases hl : l = i
    · rw [hl, Net.setSock_self]; exact hu
    · rw [Net.setSock_ne _ hl]
  refine ⟨h.toSlotInv.same_setSock hu hq hw, h.conns, ?_⟩
  intro l hl k hk
  rw [hused] at hl
  have hk := h.waiting l hl k hk
  by_cases hki : k.s = i
  · refine ⟨by rw [hused]; exact hk.used, ?_, hk.gen, hk.own, ?_⟩
    · rw [hki, Net.setSock_self]; exact hs (hki ▸ hk.state)
    · have hc := hk.client
      rw [hki] at hc
      rw [hki, hused, Net.setSock_self, hp (hki ▸ hk.state)]
      exact hc
  · exact hk.same (by rw [Net.setSock_ne _ hki]; exact ⟨rfl, rfl, rfl⟩) (hused _) rfl rfl rfl

theorem QueueInv.vfs (h : QueueInv n g) (v : Vfs σ) : QueueInv { n with vfs := v } g :=
  ⟨h.toSlotInv.vfs v, h.conns, fun l hl k hk =>
    (h.waiting l hl k hk).same ⟨rfl, rfl, rfl⟩ rfl rfl rfl rfl⟩

theorem QueueInv.hand (h : QueueInv n g) {i : Nat} {s : USock} {own : Bool}
    (hu : (n.socks i).used = false) (hw : s.nWait = 0) :
    QueueInv (n.setSock i s) (g.hand i own) := by
  refine ⟨h.toSlotInv.hand hw, h.conns.hand, ?_⟩
  intro l hl k hk
  by_cases hli : l = i
  · subst hli
    rw [Accepts.hand_self.2.2.2.1] at hk
    exact absurd hk (by simp)
  · rw [Net.setSock_ne _ hli] at hl
    rw [(Accepts.hand_ne hli).2.2.2.1] at hk
    exact (h.waiting l hl k hk).hand (h.wait_le hk) hu

theorem QueueInv.link (h : QueueInv n g) {l : Nat} {k : Conn} (hul : (n.socks l).used = true)
    (hroom : (n.socks l).nWait < acceptQ) (hc : ConnInv (g.link l k)) (hk : Waiting n g k) :
    QueueInv (n.setSock l ((n.socks l).enqueue k.s)) (g.link l k) := by
  have hsame : SameLinks n (n.setSock l ((n.socks l).enqueue k.s)) := sameLinks_setSock rfl rfl rfl
  refine ⟨h.toSlotInv.link hul hroom, hc, ?_⟩
  intro m hm x hx
  rw [(hsame m).1] at hm
  have hwx : Waiting n g x := by
    by_cases hml : m = l
    · subst hml
      simp only [Accepts.link, update_self, List.mem_append, List.mem_singleton] at hx
      rcases hx with hx | rfl
      · exact h.waiting m hm x hx
      · exact hk
    · simp only [Accepts.link, update_of_ne hml] at hx
      exact h.waiting m hm x hx
  exact hwx.same (hsame x.s) (hsame x.c).1 rfl rfl rfl

/-- Two connections that wait do so in different slots, or they are one. -/
theorem QueueInv.head_slot (h : QueueInv n g) {l m : Nat} {k x : Conn} {q : List Conn}
    (hul : (n.socks l).used = true) (hw : g.wait l = k :: q) (hum : (n.socks m).used = true)
    (hx : x ∈ g.wait m) (hs : x.s = k.s) : m = l ∧ x ∉ q := by
  have hk := h.waiting l hul k (by rw [hw]; exact List.mem_cons_self ..)
  have hxw := h.waiting m hum x hx
  have hep : x.ep = k.ep := by
    unfold Conn.ep
    rw [hs, ← hk.gen, ← hxw.gen, hs]
  obtain ⟨dl, hdl, _⟩ := h.conns.order l
  obtain ⟨dm, hdm, _⟩ := h.conns.order m
  refine ⟨h.conns.apart m l x k (by rw [hdm]; exact List.mem_append_right _ hx)
    (by rw [hdl, hw]; exact List.mem_append_right _ (List.mem_cons_self ..)) hep, ?_⟩
  intro hxq
  have hnd := h.conns.nodup l
  rw [hdl, hw, List.map_append, List.map_cons] at hnd
  have := (List.nodup_cons.mp (List.nodup_append.mp hnd).2.1).1
  exact this (hep ▸ List.mem_map_of_mem hxq)

/-- The first connection that waits is handed out. -/
theorem QueueInv.accept (h : QueueInv n g) {l s : Nat} (hw : (n.socks l).nWait ≠ 0)
    (hs : (n.socks l).listenQ 0 = s) :
    QueueInv (n.setSock l (n.socks l).dequeue) (g.after (.accepted l s)) := by
  have hul := h.used hw
  obtain ⟨k, q, hq, hks, _⟩ := h.head hw
  have hk := h.waiting l hul k (by rw [hq]; exact List.mem_cons_self ..)
  have hsk : k.s = s := by rw [hs] at hks; exact_mod_cast hks.symm
  have hsame : SameLinks n (n.setSock l (n.socks l).dequeue) := sameLinks_setSock rfl rfl rfl
  refine ⟨h.toSlotInv.dequeue hw rfl, h.conns.accept hq (by unfold Conn.ep; rw [← hk.gen, hsk]), ?_⟩
  intro m hm x hx
  rw [(hsame m).1] at hm
  -- what still waits did before, in another slot
  have hold : x ∈ g.wait m ∧ (m = l → x ∈ q) := by
    by_cases hml : m = l
    · subst hml
      simp only [Accepts.after, update_self] at hx
      rw [hq] at hx ⊢
      exact ⟨List.mem_cons_of_mem _ hx, fun _ => hx⟩
    · simp only [Accepts.after, update_of_ne hml] at hx
      exact ⟨hx, fun hc => absurd hc hml⟩
  have hne : x.s ≠ s := by
    intro hxs
    obtain ⟨hml, hxq⟩ := h.head_slot hul hq hm hold.1 (hxs.trans hsk.symm)
    exact hxq (hold.2 hml)
  exact (h.waiting m hm x hold.1).same (hsame x.s) (hsame x.c).1 rfl rfl
    (by simp only [Accepts.after, update_of_ne hne])

/-- A slot that some program has is given up. -/
theorem QueueInv.shut (h : QueueInv n g) (hp : PeerInv n) {i : Nat} (fds : List Int)
    (hu : (n.socks i).used = true) (ho : g.owned i = true) :
    QueueInv (shutSlot n i) (g.after (.closed i fds)) := by
  refine ⟨h.toSlotInv.shut rfl, h.conns.close, ?_⟩
  intro m hm x hx
  have hmi : m ≠ i := by rintro rfl; rw [shutSlot_self] at hm; exact absurd hm (by decide)
  rw [(shutSlot_rest hmi).1] at hm
  have hw := h.waiting m hm x hx
  have hsi : x.s ≠ i := by rintro hc; rw [← hc, hw.own] at ho; exact absurd ho (by decide)
  refine ⟨by rw [(shutSlot_rest hsi).1]; exact hw.used,
    by rw [(shutSlot_rest hsi).2.2.2]; exact hw.state, hw.gen, ?_, ?_⟩
  · simp only [Accepts.after, update_of_ne hsi]
    exact hw.own
  · by_cases hci : x.c = i
    · -- the client goes, and takes the connection with it
      right
      have hz : ((shutSlot n i).socks x.c).used = false := by rw [hci, shutSlot_self]; rfl
      refine ⟨?_, fun hc => absurd hc.1 (by rw [hz]; decide)⟩
      by_contra hpn
      obtain ⟨j, j1, j2, _, _⟩ := (hp.shut hu).peer x.s
        (by rw [(shutSlot_rest hsi).1]; exact hw.used) hpn
      have hji : j ≠ i := by rintro rfl; rw [shutSlot_self] at j2; exact absurd j2 (by decide)
      rcases shutSlot_ne (n := n) hsi with he | ⟨_, _, _, he⟩
      · rw [he] at j1 hpn
        rcases hw.client with ⟨hc, _⟩ | ⟨hc, _⟩
        · rw [hc, hci] at j1; exact hji (by exact_mod_cast j1.symm)
        · exact hpn hc
      · rw [he] at hpn; exact hpn rfl
    · rw [(shutSlot_rest hci).1]
      rcases shutSlot_ne (n := n) hsi with he | ⟨_, _, hsp, he⟩
      · rw [he]; exact hw.client
      · -- it names the slot given up, which is not its client
        exfalso
        rcases hw.client with ⟨hc, _⟩ | ⟨hc, _⟩
        · rw [hc] at hsp; exact hci (by exact_mod_cast hsp)
        · rw [hc] at hsp; unfold peerNone at hsp; omega

/-- What the rules of the game allow to be logged: only sockets that a program has are closed. -/
def ClosesOwned (g : Accepts) : Ev → Prop
  | .closed i _ => g.owned i = true
  | _ => True

/-- **One edit keeps it.** -/
theorem QueueInv.edit (h : QueueInv n g) (hp : PeerInv n) {es : List Ev}
    (hok : Allowed Accepts.after ClosesOwned g es) (he : Edit fs n es n') :
    QueueInv n' (es.foldl Accepts.after g) := by
  cases he with
  | @scratch i s hu hs =>
      have hscr : Edit fs n [] (n.setSock i s) := .scratch hu hs
      refine ⟨h.toSlotInv.edit hscr, h.conns, ?_⟩
      intro m hm x hx
      have hmi : m ≠ i := hs.elsewhere hm
      rw [Net.setSock_ne _ hmi] at hm
      have hw := h.waiting m hm x hx
      have hsi : x.s ≠ i := by rintro rfl; rw [hw.used] at hu; exact absurd hu (by decide)
      refine hw.same (by rw [Net.setSock_ne _ hsi]; exact ⟨rfl, rfl, rfl⟩) ?_ rfl rfl rfl
      by_cases hci : x.c = i
      · rw [hci, Net.setSock_self, hs.used, hu]
      · rw [Net.setSock_ne _ hci]
  | touched ht =>
      refine h.same_setSock ht.used ?_ (fun _ => ht.peer) ht.pending ht.wait
      intro hc
      exact (ht.stays (by rw [hc]; decide) (by rw [hc]; decide)).trans hc
  | opened hi hu => exact h.hand hu rfl
  | paired ha hb hne hua hub =>
      exact (h.hand hua rfl).hand (by rw [Net.setSock_ne _ hne.symm]; exact hub) rfl
  | looped hi hu flags => exact h.hand hu rfl
  | @linked c s l hc huc hsc hs hus hl hul hsl hw =>
      have hcs : c ≠ s := Net.used_ne huc hus
      have hls : l ≠ s := Net.used_ne hul hus
      have hlc : l ≠ c := Net.listening_ne hsl hsc
      have h1 : QueueInv (n.setSock s (USock.fresh.joined c)) (g.hand s false) := h.hand hus rfl
      have hcv : (n.setSock s (USock.fresh.joined c)).socks c = n.socks c := Net.setSock_ne _ hcs
      have h2 : QueueInv ((n.setSock s (USock.fresh.joined c)).setSock c ((n.socks c).joined s))
          (g.hand s false) := by
        refine h1.same_setSock (by rw [hcv]; rfl) (fun _ => rfl) ?_ (by rw [hcv]; rfl)
          (by rw [hcv]; rfl)
        rw [hcv, hsc]
        exact fun hc => absurd hc (by decide)
      have hlv : ((n.setSock s (USock.fresh.joined c)).setSock c ((n.socks c).joined s)).socks l
          = n.socks l := by rw [Net.setSock_ne _ hlc, Net.setSock_ne _ hls]
      have hsv : ((n.setSock s (USock.fresh.joined c)).setSock c ((n.socks c).joined s)).socks s
          = USock.fresh.joined c := by rw [Net.setSock_ne _ hcs.symm, Net.setSock_self]
      have h3 := h2.link (l := l) (k := ⟨s, g.gens s + 1, c, g.gens c⟩) (by rw [hlv]; exact hul)
        (by rw [hlv]; exact hw) (h.conns.linked c s l hcs)
        ⟨by rw [hsv]; rfl, by rw [hsv]; rfl, Accepts.hand_self.1, Accepts.hand_self.2.2.2.2,
          Or.inl ⟨by rw [hsv]; rfl, by rw [Net.setSock_self]; exact huc, (Accepts.hand_ne hcs).1⟩⟩
      rw [hlv] at h3
      exact h3
  | accepted hw hs hlt hu => exact h.accept hw hs
  | @stale l hw hs =>
      obtain ⟨k, q, hq, hks, _⟩ := h.head hw
      have hk := h.waiting l (h.used hw) k (by rw [hq]; exact List.mem_cons_self ..)
      have := hs k.s hks (hp.bound _ hk.used)
      rw [hk.used] at this
      exact absurd this (by decide)
  | pushed _ _ => exact h.same_setSock rfl id (fun _ => rfl) rfl rfl
  | popped _ => exact h.same_setSock rfl id (fun _ => rfl) rfl rfl
  | sent _ _ _ => exact (h.vfs _).same_setSock rfl id (fun _ => rfl) rfl rfl
  | received _ => exact h.same_setSock rfl id (fun _ => rfl) rfl rfl
  | @closed i _ hu => exact (h.shut hp (n.socks i).fdsRx.toList hu hok.1).vfs _
  | openFile _ => exact h.vfs _
  | closeFile _ => exact h.vfs _
  | dupFile _ => exact h.vfs _
  | unlinkFile _ => exact h.vfs _

theorem queueInv_init (v : Vfs σ) : QueueInv (unixSocketInit v) .init where
  toSlotInv := slotInv_init v
  conns := connInv_init
  waiting := by intro l hu; exact absurd hu (by simp [unixSocketInit, USock.zero])

end Queue

/-! ## Runs -/

/-- Programs close only descriptors that were returned to them. -/
def Sys.ClosesOwn (s : Sys σ) (act : Act) : Prop :=
  ∀ fd i, act = .call (.close fd) → sockOf s.net fd = some i → (accepts s.hist).owned i = true

/-- A condition on closing says nothing about a log in which nothing is given up. -/
theorem allowed_of_keeps {ok : Accepts → Ev → Prop} (hok : ∀ g e, e.closes = false → ok g e) :
    ∀ {g : Accepts} {is : List Nat} {log : List Ev}, Keeps is log → Allowed Accepts.after ok g log
  | _, _, [], _ => trivial
  | g, _, e :: _, h => ⟨hok g e (h e (List.mem_cons_self ..)).1,
      allowed_of_keeps hok fun x hx => h x (List.mem_cons_of_mem _ hx)⟩

theorem closesOwned_keeps (g : Accepts) (e : Ev) (h : e.closes = false) : ClosesOwned g e := by
  cases e with
  | closed i fds => exact absurd h (by simp [Ev.closes])
  | _ => trivial

theorem reach_queueInv {fs : FrameService σ} {s : Sys σ}
    (h : Reach Sys.Boots (Sys.StepsIf fs Sys.ClosesOwn) s) : QueueInv s.net (accepts s.hist) := by
  refine sys_invariant ClosesOwned queueInv_init (fun _ v _ hi => hi.vfs v)
    (fun _ _ _ _ hp hi ha he => hi.edit hp ha he) ?_ h
  intro input fuel s act s' ans log hc hs hlog _
  rcases step_closes hs hlog with hk | ⟨fd, i, pre, rfl, hi, hpre, rfl⟩
  · exact allowed_of_keeps closesOwned_keeps hk
  · have ho := hc fd i rfl hi
    rcases hpre with rfl | rfl
    · exact ⟨ho, trivial⟩
    · exact ⟨trivial, ho, trivial⟩

/-- The client of a connection is the one it was made for, or it has closed and the server has no
peer. -/
def Served (n : Net σ) (g : Accepts) (k : Conn) : Prop :=
  (n.socks k.s).used = true ∧ (n.socks k.s).state = .connected ∧ g.gens k.s = k.gs
    ∧ (((n.socks k.s).peerIdx = k.c ∧ (n.socks k.c).used = true ∧ g.gens k.c = k.gc)
      ∨ ((n.socks k.s).peerIdx = peerNone
        ∧ ¬ ((n.socks k.c).used = true ∧ g.gens k.c = k.gc)))

/-- The ways a connection attempt can leave the table. -/
theorem unixConnect_full {n n' : Net σ} {fd : Int} {addr : Option (Nat → UInt8)} {addrlen l : Nat}
    {path : CStr} {log : List Ev} {r : Int} (hp : PeerInv n)
    (hpath : checkAddr addr addrlen = some path) (hl : findListener n path = some l)
    (hfull : (n.socks l).nWait = acceptQ) (h : unixConnect n fd addr addrlen = (n', log, r)) :
    r < 0 ∧ log = [] ∧ ∀ i, (n.socks i).used = true → n'.socks i = n.socks i := by
  rcases unixConnect_cases h with ⟨rfl, rfl, hr⟩ | ⟨c, s, hc, hst, hs, rfl, hr, rfl⟩
    | ⟨c, s, l', path', hc, hst, hs, hpath', hl', hw, rfl, _, rfl⟩
  · exact ⟨hr, rfl, fun _ _ => rfl⟩
  · refine ⟨hr, rfl, ?_⟩
    intro i hi
    have his : i ≠ s := by
      rintro rfl
      rw [(freeSlot_some hs).2] at hi
      exact absurd hi (by decide)
    by_cases hic : i = c
    · subst hic
      rw [Net.setSock_self]
      have hpn := hp.created i hst
      cases hsi : n.socks i with
      | mk used state path rx peer queue wait fds flags =>
          rw [hsi] at hst hpn
          dsimp only at hst hpn ⊢
          rw [hst, hpn]
    · rw [Net.setSock_ne _ hic, Net.setSock_ne _ his]
  · rw [hpath] at hpath'
    cases hpath'
    rw [hl] at hl'
    cases hl'
    omega

/-- The bytes of a `sockaddr_un`. -/
def unAddr (path : CStr) : Option (Nat → UInt8) := some fun k => ([1, 0] ++ path).getD k 0

end VnlKernel
