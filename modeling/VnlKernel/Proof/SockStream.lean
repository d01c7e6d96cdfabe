import Mathlib.Logic.Function.Basic
import VnlKernel.Proof.SockRun

/-!
# Byte streams

Two connected sockets are two streams, one in each direction. What is kept in mind of
the log is, for each slot since it was last handed out, the bytes that calls on it have
stored elsewhere, the bytes stored for it, and the bytes taken out of it. The ring in
between is the difference. Descriptors queued for a slot go the same way.
-/

namespace VnlKernel

open Run Function

variable {σ : Type}

/-- What has gone through each slot since it was handed out. -/
structure Traffic where
  out : Nat → List UInt8
  into : Nat → List UInt8
  taken : Nat → List UInt8
  /-- Descriptors stored for the slot, and those taken out of it. -/
  queued : Nat → List Int
  fetched : Nat → List Int

/-- A slot starts afresh. -/
def Traffic.reset (t : Traffic) (i : Nat) : Traffic :=
  ⟨update t.out i [], update t.into i [], update t.taken i [], update t.queued i [], update t.fetched i []⟩

def Traffic.after (t : Traffic) : Ev → Traffic
  | .opened i => t.reset i
  | .paired a b => (t.reset a).reset b
  | .looped i => t.reset i
  | .linked _ s _ => t.reset s
  | .pushed i j bytes =>
      { t with out := update t.out i (t.out i ++ bytes), into := update t.into j (t.into j ++ bytes) }
  | .popped j bytes => { t with taken := update t.taken j (t.taken j ++ bytes) }
  | .sent _ j _ r => { t with queued := update t.queued j (t.queued j ++ [r]) }
  | .received j fds => { t with fetched := update t.fetched j (t.fetched j ++ fds) }
  | _ => t

def Traffic.init : Traffic := ⟨fun _ => [], fun _ => [], fun _ => [], fun _ => [], fun _ => []⟩

/-- The traffic of a whole run. -/
def traffic (hist : List Ev) : Traffic := hist.foldl Traffic.after .init

/-- **Rings hold what is on its way.** -/
structure StreamInv (n : Net σ) (t : Traffic) : Prop where
  /-- What was stored for a socket has been taken or is in its ring. -/
  flow : ∀ j, (n.socks j).used = true → t.into j = t.taken j ++ (n.socks j).rx.toList
  /-- What a socket's calls stored was stored for its peer. -/
  link : ∀ i j : Nat, (n.socks i).used = true → (n.socks i).peerIdx = j → t.out i = t.into j
  rights : ∀ j, (n.socks j).used = true → t.queued j = t.fetched j ++ (n.socks j).fdsRx.toList
  /-- Nothing goes through a socket that is not connected. -/
  idle : ∀ i, (n.socks i).used = true → (n.socks i).state ≠ .connected → t.out i = [] ∧ t.into i = []

section Stream

variable {fs : FrameService σ} {n n' : Net σ} {t : Traffic}

@[simp] theorem Traffic.reset_self (t : Traffic) (i : Nat) :
    (t.reset i).out i = [] ∧ (t.reset i).into i = [] ∧ (t.reset i).taken i = []
      ∧ (t.reset i).queued i = [] ∧ (t.reset i).fetched i = [] := by
  simp [Traffic.reset]

theorem Traffic.reset_ne (t : Traffic) {i k : Nat} (h : k ≠ i) :
    (t.reset i).out k = t.out k ∧ (t.reset i).into k = t.into k ∧ (t.reset i).taken k = t.taken k
      ∧ (t.reset i).queued k = t.queued k ∧ (t.reset i).fetched k = t.fetched k := by
  simp [Traffic.reset, h]

/-- The rings and links are as they were. -/
theorem StreamInv.same (h : StreamInv n t) (hs : SameLinks n n')
    (hrx : ∀ k, (n'.socks k).rx = (n.socks k).rx ∧ (n'.socks k).fdsRx = (n.socks k).fdsRx) :
    StreamInv n' t where
  flow := by
    intro j hu
    rw [(hs j).1] at hu
    rw [(hrx j).1]
    exact h.flow j hu
  rights := by
    intro j hu
    rw [(hs j).1] at hu
    rw [(hrx j).2]
    exact h.rights j hu
  link := by
    intro i j hu hp
    rw [(hs i).1] at hu
    rw [(hs i).2.2] at hp
    exact h.link i j hu hp
  idle := by
    intro i hu hst
    rw [(hs i).1] at hu
    rw [(hs i).2.1] at hst
    exact h.idle i hu hst

theorem StreamInv.same_setSock (h : StreamInv n t) {i : Nat} {s : USock}
    (hu : s.used = (n.socks i).used) (hs : s.state = (n.socks i).state)
    (hp : s.peerIdx = (n.socks i).peerIdx) (hrx : s.rx = (n.socks i).rx)
    (hfds : s.fdsRx = (n.socks i).fdsRx) : StreamInv (n.setSock i s) t := by
  refine h.same (sameLinks_setSock hu hs hp) fun k => ?_
  by_cases hk : k = i
  · rw [hk, Net.setSock_self]; exact ⟨hrx, hfds⟩
  · rw [Net.setSock_ne _ hk]; exact ⟨rfl, rfl⟩

theorem StreamInv.vfs (h : StreamInv n t) (v : Vfs σ) : StreamInv { n with vfs := v } t :=
  h.same (fun _ => ⟨rfl, rfl, rfl⟩) fun _ => ⟨rfl, rfl⟩

/-- A free slot is handed out, with an empty ring and no peer but itself. -/
theorem StreamInv.hand (h : StreamInv n t) (hp : PeerInv n) {i : Nat} {s : USock}
    (hu : (n.socks i).used = false) (hrx : s.rx.toList = []) (hfds : s.fdsRx.toList = [])
    (hpeer : ∀ j : Nat, s.peerIdx = j → j = i) : StreamInv (n.setSock i s) (t.reset i) := by
  -- no socket in use has the slot as its peer
  have hnot : ∀ k j : Nat, (n.socks k).used = true → (n.socks k).peerIdx = j → j ≠ i := by
    rintro k j hk hkj rfl
    obtain ⟨m, h1, h2, _⟩ := hp.peer k hk (by rw [hkj]; unfold peerNone; omega)
    rw [hkj] at h1
    have : j = m := by exact_mod_cast h1
    rw [← this, hu] at h2
    exact absurd h2 (by decide)
  refine ⟨?_, ?_, ?_, ?_⟩
  · intro j hj
    by_cases hji : j = i
    · subst hji
      rw [Net.setSock_self, hrx, (t.reset_self j).2.1, (t.reset_self j).2.2.1]
      rfl
    · rw [Net.setSock_ne _ hji] at hj ⊢
      rw [(t.reset_ne hji).2.1, (t.reset_ne hji).2.2.1]
      exact h.flow j hj
  · intro k j hk hkj
    by_cases hki : k = i
    · subst hki
      rw [Net.setSock_self] at hkj
      rw [hpeer j hkj, (t.reset_self k).1, (t.reset_self k).2.1]
    · rw [Net.setSock_ne _ hki] at hk hkj
      rw [(t.reset_ne hki).1, (t.reset_ne (hnot k j hk hkj)).2.1]
      exact h.link k j hk hkj
  · intro j hj
    by_cases hji : j = i
    · subst hji
      rw [Net.setSock_self, hfds, (t.reset_self j).2.2.2.1, (t.reset_self j).2.2.2.2]
      rfl
    · rw [Net.setSock_ne _ hji] at hj ⊢
      rw [(t.reset_ne hji).2.2.2.1, (t.reset_ne hji).2.2.2.2]
      exact h.rights j hj
  · intro k hk hst
    by_cases hki : k = i
    · subst hki
      exact ⟨(t.reset_self k).1, (t.reset_self k).2.1⟩
    · rw [Net.setSock_ne _ hki] at hk hst
      rw [(t.reset_ne hki).1, (t.reset_ne hki).2.1]
      exact h.idle k hk hst

/-- Two sockets through which nothing has gone are joined. -/
theorem StreamInv.join (h : StreamInv n t) {a b : Nat} (hne : a ≠ b)
    (ha : (n.socks a).used = true ∧ (n.socks a).state ≠ .connected)
    (hb : (n.socks b).used = true ∧ (n.socks b).state ≠ .connected) :
    StreamInv ((n.setSock a ((n.socks a).joined b)).setSock b ((n.socks b).joined a)) t := by
  have hva : ((n.setSock a ((n.socks a).joined b)).setSock b ((n.socks b).joined a)).socks a
      = (n.socks a).joined b := by rw [Net.setSock_ne _ hne, Net.setSock_self]
  have hvb : ((n.setSock a ((n.socks a).joined b)).setSock b ((n.socks b).joined a)).socks b
      = (n.socks b).joined a := Net.setSock_self _
  have hvk : ∀ k, k ≠ a → k ≠ b →
      ((n.setSock a ((n.socks a).joined b)).setSock b ((n.socks b).joined a)).socks k
          = n.socks k := by
    intro k h1 h2
    rw [Net.setSock_ne _ h2, Net.setSock_ne _ h1]
  obtain ⟨ha1, ha2⟩ := h.idle a ha.1 ha.2
  obtain ⟨hb1, hb2⟩ := h.idle b hb.1 hb.2
  refine ⟨?_, ?_, ?_, ?_⟩
  · intro j hj
    by_cases h1 : j = a
    · subst h1; rw [hva]; exact h.flow j ha.1
    · by_cases h2 : j = b
      · subst h2; rw [hvb]; exact h.flow j hb.1
      · rw [hvk j h1 h2] at hj ⊢; exact h.flow j hj
  · intro i j hi hij
    by_cases h1 : i = a
    · subst h1
      rw [hva] at hij
      change (b : Int) = j at hij
      have : b = j := by exact_mod_cast hij
      rw [← this, ha1, hb2]
    · by_cases h2 : i = b
      · subst h2
        rw [hvb] at hij
        change (a : Int) = j at hij
        have : a = j := by exact_mod_cast hij
        rw [← this, hb1, ha2]
      · rw [hvk i h1 h2] at hi hij; exact h.link i j hi hij
  · intro j hj
    by_cases h1 : j = a
    · subst h1; rw [hva]; exact h.rights j ha.1
    · by_cases h2 : j = b
      · subst h2; rw [hvb]; exact h.rights j hb.1
      · rw [hvk j h1 h2] at hj ⊢; exact h.rights j hj
  · intro i hi hst
    by_cases h1 : i = a
    · subst h1; exact ⟨ha1, ha2⟩
    · by_cases h2 : i = b
      · subst h2; exact ⟨hb1, hb2⟩
      · rw [hvk i h1 h2] at hi hst; exact h.idle i hi hst

/-- Bytes are stored. -/
theorem StreamInv.push (h : StreamInv n t) (hp : PeerInv n) {i j : Nat} {bytes : List UInt8}
    {rx : RingBuf UInt8 rxCap} (hs : Sends n i j)
    (hrx : rx.toList = (n.socks j).rx.toList ++ bytes) :
    StreamInv (n.setSock j { n.socks j with rx := rx }) (t.after (.pushed i j bytes)) := by
  obtain ⟨hij, _, huj, hsj, hji⟩ := hp.sends hs
  have hsame : SameLinks n (n.setSock j { n.socks j with rx := rx }) :=
    sameLinks_setSock rfl rfl rfl
  have hfds : ∀ k, ((n.setSock j { n.socks j with rx := rx }).socks k).fdsRx
      = (n.socks k).fdsRx := by
    intro k
    by_cases hkj : k = j
    · rw [hkj, Net.setSock_self]
    · rw [Net.setSock_ne _ hkj]
  refine ⟨?_, ?_, ?_, ?_⟩
  · intro k hk
    rw [(hsame k).1] at hk
    simp only [Traffic.after]
    by_cases hkj : k = j
    · subst hkj
      rw [update_self, Net.setSock_self, hrx, h.flow k hk, List.append_assoc]
    · rw [update_of_ne hkj, Net.setSock_ne _ hkj]
      exact h.flow k hk
  · intro a b ha hab
    rw [(hsame a).1] at ha
    rw [(hsame a).2.2] at hab
    simp only [Traffic.after]
    -- the only socket with `j` as its peer is `i`
    by_cases hai : a = i
    · subst hai
      have : b = j := by rw [hij] at hab; exact_mod_cast hab.symm
      rw [this, update_self, update_self, h.link a j ha hij]
    · have hbj : b ≠ j := by
        rintro rfl
        obtain ⟨m, m1, _, _, m4⟩ := hp.peer a ha (by rw [hab]; unfold peerNone; omega)
        have hmb : m = b := by rw [hab] at m1; exact_mod_cast m1.symm
        rw [hmb, hji] at m4
        exact hai (by exact_mod_cast m4.symm)
      rw [update_of_ne hai, update_of_ne hbj]
      exact h.link a b ha hab
  · intro k hk
    rw [(hsame k).1] at hk
    rw [hfds]
    exact h.rights k hk
  · intro k hk hst
    rw [(hsame k).1] at hk
    rw [(hsame k).2.1] at hst
    have hki : k ≠ i := by rintro rfl; exact hst hs.state
    have hkj : k ≠ j := by rintro rfl; exact hst hsj
    simp only [Traffic.after]
    rw [update_of_ne hki, update_of_ne hkj]
    exact h.idle k hk hst

/-- Bytes are taken. -/
theorem StreamInv.pop (h : StreamInv n t) {j : Nat} {bytes : List UInt8} {rx : RingBuf UInt8 rxCap}
    (hrx : (n.socks j).rx.toList = bytes ++ rx.toList) :
    StreamInv (n.setSock j { n.socks j with rx := rx }) (t.after (.popped j bytes)) := by
  have hsame : SameLinks n (n.setSock j { n.socks j with rx := rx }) :=
    sameLinks_setSock rfl rfl rfl
  refine ⟨?_, ?_, ?_, ?_⟩
  · intro k hk
    rw [(hsame k).1] at hk
    simp only [Traffic.after]
    by_cases hkj : k = j
    · subst hkj
      rw [update_self, Net.setSock_self, h.flow k hk, hrx, List.append_assoc]
    · rw [update_of_ne hkj, Net.setSock_ne _ hkj]
      exact h.flow k hk
  · intro a b ha hab
    rw [(hsame a).1] at ha
    rw [(hsame a).2.2] at hab
    exact h.link a b ha hab
  · intro k hk
    rw [(hsame k).1] at hk
    refine (h.rights k hk).trans ?_
    by_cases hkj : k = j
    · rw [hkj, Net.setSock_self]; rfl
    · rw [Net.setSock_ne _ hkj]; rfl
  · intro k hk hst
    rw [(hsame k).1] at hk
    rw [(hsame k).2.1] at hst
    exact h.idle k hk hst

/-- Descriptors are stored or taken: what has gone through the slot moves with what it holds. -/
theorem StreamInv.fds (h : StreamInv n t) {j : Nat} {q : RingBuf Int fdsCap}
    (queued fetched : List Int)
    (hq : t.queued j = t.fetched j ++ (n.socks j).fdsRx.toList → queued = fetched ++ q.toList) :
    StreamInv (n.setSock j { n.socks j with fdsRx := q })
      { t with queued := update t.queued j queued, fetched := update t.fetched j fetched } := by
  have hsame : SameLinks n (n.setSock j { n.socks j with fdsRx := q }) :=
    sameLinks_setSock rfl rfl rfl
  refine ⟨?_, ?_, ?_, ?_⟩
  · intro k hk
    rw [(hsame k).1] at hk
    refine (h.flow k hk).trans ?_
    by_cases hkj : k = j
    · rw [hkj, Net.setSock_self]
    · rw [Net.setSock_ne _ hkj]
  · intro a b ha hab
    rw [(hsame a).1] at ha
    rw [(hsame a).2.2] at hab
    exact h.link a b ha hab
  · intro k hk
    rw [(hsame k).1] at hk
    dsimp only
    by_cases hkj : k = j
    · subst hkj
      rw [update_self, update_self, Net.setSock_self]
      exact hq (h.rights k hk)
    · rw [update_of_ne hkj, update_of_ne hkj, Net.setSock_ne _ hkj]
      exact h.rights k hk
  · intro k hk hst
    rw [(hsame k).1] at hk
    rw [(hsame k).2.1] at hst
    exact h.idle k hk hst

theorem StreamInv.shut (h : StreamInv n t) {i : Nat} : StreamInv (shutSlot n i) t where
  flow := by
    intro k hk
    by_cases hki : k = i
    · rw [hki, shutSlot_self] at hk; exact absurd hk (by decide)
    · rcases shutSlot_ne (n := n) hki with he | ⟨_, hu, _, he⟩
      · rw [he] at hk ⊢; exact h.flow k hk
      · rw [he]; exact h.flow k hu
  link := by
    intro k j hk hkj
    by_cases hki : k = i
    · rw [hki, shutSlot_self] at hk; exact absurd hk (by decide)
    · rcases shutSlot_ne (n := n) hki with he | ⟨_, _, _, he⟩
      · rw [he] at hk hkj; exact h.link k j hk hkj
      · rw [he] at hkj; unfold peerNone at hkj; dsimp only at hkj; omega
  rights := by
    intro k hk
    by_cases hki : k = i
    · rw [hki, shutSlot_self] at hk; exact absurd hk (by decide)
    · rcases shutSlot_ne (n := n) hki with he | ⟨_, hu, _, he⟩
      · rw [he] at hk ⊢; exact h.rights k hk
      · rw [he]; exact h.rights k hu
  idle := by
    intro k hk hst
    by_cases hki : k = i
    · rw [hki, shutSlot_self] at hk; exact absurd hk (by decide)
    · rcases shutSlot_ne (n := n) hki with he | ⟨_, hu, _, he⟩
      · rw [he] at hk hst; exact h.idle k hk hst
      · rw [he] at hst; exact h.idle k hu hst

/-- A free slot is handed out as it is. -/
theorem StreamInv.opened (h : StreamInv n t) (hp : PeerInv n) {i : Nat}
    (hu : (n.socks i).used = false) : StreamInv (n.setSock i .fresh) (t.reset i) :=
  h.hand hp hu (RingBuf.toList_fresh _) (RingBuf.toList_fresh _)
    (fun j hj => absurd hj (by change peerNone ≠ j; unfold peerNone; omega))

/-- A slot is left with scrap in it. -/
theorem StreamInv.scratch (h : StreamInv n t) {i : Nat} {s : USock} (hs : Scrap s) :
    StreamInv (n.setSock i s) t where
  flow := by
    intro j hj
    have hji := hs.elsewhere hj
    rw [Net.setSock_ne _ hji] at hj ⊢
    exact h.flow j hj
  link := by
    intro k j hk hkj
    have hki := hs.elsewhere hk
    rw [Net.setSock_ne _ hki] at hk hkj
    exact h.link k j hk hkj
  rights := by
    intro j hj
    have hji := hs.elsewhere hj
    rw [Net.setSock_ne _ hji] at hj ⊢
    exact h.rights j hj
  idle := by
    intro k hk hst
    have hki := hs.elsewhere hk
    rw [Net.setSock_ne _ hki] at hk hst
    exact h.idle k hk hst

/-- A socket gets a name, flags or a queue to listen with. -/
theorem StreamInv.touched (h : StreamInv n t) {i : Nat} {s : USock} (ht : Touched (n.socks i) s) :
    StreamInv (n.setSock i s) t where
  flow := by
    intro j hj
    by_cases hji : j = i
    · subst hji
      rw [Net.setSock_self, ht.used] at hj
      rw [Net.setSock_self, ht.rx]
      exact h.flow j hj
    · rw [Net.setSock_ne _ hji] at hj ⊢; exact h.flow j hj
  link := by
    intro k j hk hkj
    by_cases hki : k = i
    · subst hki
      rw [Net.setSock_self, ht.used] at hk
      rw [Net.setSock_self, ht.peer] at hkj
      exact h.link k j hk hkj
    · rw [Net.setSock_ne _ hki] at hk hkj; exact h.link k j hk hkj
  rights := by
    intro j hj
    by_cases hji : j = i
    · subst hji
      rw [Net.setSock_self, ht.used] at hj
      rw [Net.setSock_self, ht.fds]
      exact h.rights j hj
    · rw [Net.setSock_ne _ hji] at hj ⊢; exact h.rights j hj
  idle := by
    intro k hk hst
    by_cases hki : k = i
    · subst hki
      rw [Net.setSock_self, ht.used] at hk
      rw [Net.setSock_self] at hst
      -- a connected socket stays connected, so it was none before
      refine h.idle k hk fun hc => hst ?_
      exact (ht.stays (by rw [hc]; decide) (by rw [hc]; decide)).trans hc
    · rw [Net.setSock_ne _ hki] at hk hst; exact h.idle k hk hst

/-- **One edit keeps it.** -/
theorem StreamInv.edit (h : StreamInv n t) (hp : PeerInv n) {es : List Ev} (he : Edit fs n es n') :
    StreamInv n' (es.foldl Traffic.after t) := by
  cases he with
  | scratch hu hs => exact h.scratch hs
  | touched ht => exact h.touched ht
  | opened hi hu => exact h.opened hp hu
  | @paired a b ha hb hne hua hub =>
      have h1 := h.opened hp hua
      have ho : Edit fs n [.opened a] (n.setSock a .fresh) := .opened ha hua
      have hp1 : PeerInv (n.setSock a .fresh) := hp.edit ho
      have h2 := h1.opened hp1 (i := b) (by rw [Net.setSock_ne _ hne.symm]; exact hub)
      have hj := h2.join hne (by rw [Net.setSock_ne _ hne, Net.setSock_self]; decide)
        (by rw [Net.setSock_self]; decide)
      rw [Net.setSock_ne _ hne, Net.setSock_self, Net.setSock_self, Net.setSock_comm _ _ hne.symm,
        Net.setSock_setSock, Net.setSock_setSock] at hj
      exact hj
  | @looped i hi hu flags =>
      exact h.hand hp hu (RingBuf.toList_fresh _) (RingBuf.toList_fresh _)
        (fun j hj => by change (i : Int) = j at hj; exact_mod_cast hj.symm)
  | @linked c s l hc huc hsc hs hus hl hul hsl hw =>
      have hcs : c ≠ s := Net.used_ne huc hus
      have hls : l ≠ s := Net.used_ne hul hus
      have hlc : l ≠ c := Net.listening_ne hsl hsc
      have hj := (h.opened hp hus).join hcs.symm (by rw [Net.setSock_self]; decide)
        (by rw [Net.setSock_ne _ hcs, hsc]; exact ⟨huc, by decide⟩)
      rw [Net.setSock_self, Net.setSock_setSock, Net.setSock_ne _ hcs] at hj
      have hlv : ((n.setSock s (USock.fresh.joined c)).setSock c ((n.socks c).joined s)).socks l
          = n.socks l := by rw [Net.setSock_ne _ hlc, Net.setSock_ne _ hls]
      exact hj.same_setSock (by rw [hlv]; rfl) (by rw [hlv]; rfl) (by rw [hlv]; rfl)
        (by rw [hlv]; rfl)
        (by rw [hlv]; rfl)
  | accepted _ _ _ _ => exact h.same_setSock rfl rfl rfl rfl rfl
  | stale _ _ => exact h.same_setSock rfl rfl rfl rfl rfl
  | pushed hs hrx => exact h.push hp hs hrx
  | popped hrx => exact h.pop hrx
  | @sent i j f r v q hs hpass hq =>
      have hfds := (h.vfs v).fds (j := j) (q := q) (t.queued j ++ [r]) (t.fetched j)
        (fun hold => by rw [hold, hq, List.append_assoc])
      rw [update_eq_self] at hfds
      exact hfds
  | @received j fds q hq =>
      have hfds := h.fds (j := j) (q := q) (t.queued j) (t.fetched j ++ fds)
        (fun hold => by rw [hold, hq, List.append_assoc])
      rw [update_eq_self] at hfds
      exact hfds
  | closed _ _ => exact h.shut.vfs _
  | openFile _ => exact h.vfs _
  | closeFile _ => exact h.vfs _
  | dupFile _ => exact h.vfs _
  | unlinkFile _ => exact h.vfs _

theorem streamInv_init (v : Vfs σ) :
    StreamInv (unixSocketInit v) .init where
  flow := by intro i hu; exact absurd hu (by simp [unixSocketInit, USock.zero])
  rights := by intro i hu; exact absurd hu (by simp [unixSocketInit, USock.zero])
  link := by intro i j hu; exact absurd hu (by simp [unixSocketInit, USock.zero])
  idle := by intro i hu; exact absurd hu (by simp [unixSocketInit, USock.zero])

theorem reach_streamInv {cond : Sys σ → Act → Prop} {s : Sys σ}
    (h : Reach Sys.Boots (Sys.StepsIf fs cond) s) : StreamInv s.net (traffic s.hist) :=
  sys_invariant (fun _ _ => True) streamInv_init (fun _ v _ hi => hi.vfs v)
    (fun _ _ _ _ hp hi _ he => hi.edit hp he) (fun _ _ _ _ _ _ _ _ _ _ _ => allowed_true) h

end Stream

/-- What a read gets from a ring that is not empty. -/
theorem unixSockRead_ready {n : Net σ} {i len : Nat} (hi : i < unixSockMax)
    (hu : (n.socks i).used = true) (hst : (n.socks i).state = .connected)
    (hrx : (n.socks i).rx.toList ≠ []) :
    (unixSockRead n (fdOf i) len).2.2 = .ret
      ⟨(min len (n.socks i).rx.toList.length : Nat), (n.socks i).rx.toList.take len, [], none⟩ := by
  have hlt := (n.socks i).rx.length_lt
  have hcap : rxCap = 8192 := rfl
  obtain ⟨h1, _⟩ := RingBuf.popLoop_spec len (n.socks i).rx
  unfold unixSockRead
  rw [sockOf_fdOf hi hu]
  dsimp only
  rw [if_neg (not_not.mpr hst)]
  unfold readFrom popRx
  rw [if_neg fun hc => hrx ((RingBuf.toList_eq_nil _).mpr hc.1)]
  dsimp only [Ans.plain]
  rw [h1, List.length_take, toInt32_of_lt (by omega)]

end VnlKernel
