import VnlKernel.Proof.SockAccept

/-!
# Every socket has an owner

A slot in use should be somebody's: a program has its descriptor, or it waits in the
queue of a listener that some program has. `unix_sock_close` closes the descriptors
queued for a socket, but not the connections queued for a listener, so a listener that
is closed with connections in its queue leaves them to nobody. As long as queues are
empty when their sockets are closed, every slot has an owner, whatever else happens.
-/

namespace VnlKernel

open Run Function

variable {σ : Type}

/-- **Every slot in use has an owner.** -/
structure OwnInv (n : Net σ) (g : Accepts) : Prop extends SlotInv n g where
  owner : ∀ i : Nat, (n.socks i).used = true → g.owned i = true ∨ ∃ l, (n.socks l).used = true
    ∧ (n.socks l).state = .listening ∧ (i : Int) ∈ pending (n.socks l)
  /-- Only connected sockets wait in queues. -/
  plain : ∀ i, (n.socks i).used = true → (n.socks i).state ≠ .connected → g.owned i = true

/-- A slot is given up only with an empty queue. -/
def ClosesIdle (g : Accepts) : Ev → Prop
  | .closed i _ => g.wait i = []
  | _ => True

section Own

variable {fs : FrameService σ} {n n' : Net σ} {g g' : Accepts}

/-- The owners are as they were. -/
theorem OwnInv.same (h : OwnInv n g) (hs : SlotInv n' g')
    (hu : ∀ k, (n'.socks k).used = (n.socks k).used)
    (hst : ∀ k, (n.socks k).state = .listening → (n'.socks k).state = .listening)
    (hc : ∀ k, (n.socks k).state = .connected → (n'.socks k).state = .connected)
    (hq : ∀ k, pending (n'.socks k) = pending (n.socks k)) (ho : ∀ k, g'.owned k = g.owned k) :
    OwnInv n' g' where
  toSlotInv := hs
  owner := by
    intro i hi
    rw [hu] at hi
    rcases h.owner i hi with h1 | ⟨l, h1, h2, h3⟩
    · exact Or.inl (by rw [ho]; exact h1)
    · exact Or.inr ⟨l, by rw [hu]; exact h1, hst l h2, by rw [hq]; exact h3⟩
  plain := by
    intro i hi hs
    rw [hu] at hi
    rw [ho]
    exact h.plain i hi fun hcon => hs (hc i hcon)

theorem OwnInv.vfs (h : OwnInv n g) (v : Vfs σ) : OwnInv { n with vfs := v } g :=
  h.same (h.toSlotInv.vfs v) (fun _ => rfl) (fun _ => id) (fun _ => id) (fun _ => rfl) fun _ => rfl

/-- A slot is rewritten, but for its place among the others. -/
theorem OwnInv.same_setSock (h : OwnInv n g) {i : Nat} {s : USock} (hu : s.used = (n.socks i).used)
    (hst : s.state = (n.socks i).state) (hq : pending s = pending (n.socks i))
    (hw : s.nWait = (n.socks i).nWait) : OwnInv (n.setSock i s) g := by
  have hk : ∀ k, ((n.setSock i s).socks k).used = (n.socks k).used
      ∧ ((n.setSock i s).socks k).state = (n.socks k).state
      ∧ pending ((n.setSock i s).socks k) = pending (n.socks k) := by
    intro k
    by_cases hki : k = i
    · rw [hki, Net.setSock_self]
      exact ⟨hu, hst, hq⟩
    · rw [Net.setSock_ne _ hki]; exact ⟨rfl, rfl, rfl⟩
  exact h.same (h.toSlotInv.same_setSock hu hq hw) (fun k => (hk k).1)
    (fun k hc => (hk k).2.1.trans hc) (fun k hc => (hk k).2.1.trans hc)
      (fun k => (hk k).2.2) fun _ => rfl

/-- A slot is handed out to a program. -/
theorem OwnInv.hand (h : OwnInv n g) {i : Nat} {s : USock} (hu : (n.socks i).used = false)
    (hw : s.nWait = 0) : OwnInv (n.setSock i s) (g.hand i true) where
  toSlotInv := h.toSlotInv.hand hw
  owner := by
    intro k hk
    by_cases hki : k = i
    · exact Or.inl (by rw [hki]; exact Accepts.hand_self.2.2.2.2)
    · rw [Net.setSock_ne _ hki] at hk
      rcases h.owner k hk with h1 | ⟨l, h1, h2, h3⟩
      · exact Or.inl (by rw [(Accepts.hand_ne hki).2.2.2.2]; exact h1)
      · have hli : l ≠ i := Net.used_ne h1 hu
        exact Or.inr ⟨l, by rw [Net.setSock_ne _ hli]; exact ⟨h1, h2, h3⟩⟩
  plain := by
    intro k hk hst
    by_cases hki : k = i
    · rw [hki]; exact Accepts.hand_self.2.2.2.2
    · rw [Net.setSock_ne _ hki] at hk hst
      rw [(Accepts.hand_ne hki).2.2.2.2]
      exact h.plain k hk hst

/-- The first entry of a queue is taken out, and has an owner or is not in use. -/
theorem OwnInv.dequeue (h : OwnInv n g) {l : Nat} (hw : (n.socks l).nWait ≠ 0)
    (hg : g'.wait = update g.wait l (g.wait l).tail)
    (ho : ∀ k, g.owned k = true → g'.owned k = true)
    (hhead : ∀ s : Nat, (n.socks l).listenQ 0 = s → (n.socks s).used = true → g'.owned s = true) :
    OwnInv (n.setSock l (n.socks l).dequeue) g' := by
  have hsame : SameLinks n (n.setSock l (n.socks l).dequeue) := sameLinks_setSock rfl rfl rfl
  refine ⟨h.toSlotInv.dequeue hw hg, ?_, ?_⟩
  · intro i hi
    rw [(hsame i).1] at hi
    rcases h.owner i hi with h1 | ⟨m, h1, h2, h3⟩
    · exact Or.inl (ho i h1)
    · by_cases hml : m = l
      · subst hml
        rw [pending_dequeue hw] at h3
        rcases List.mem_cons.mp h3 with h3 | h3
        · exact Or.inl (hhead i h3.symm hi)
        · exact Or.inr ⟨m, by rw [(hsame m).1]; exact h1, by rw [(hsame m).2.1]; exact h2,
            by rw [Net.setSock_self]; exact h3⟩
      · exact Or.inr ⟨m, by rw [Net.setSock_ne _ hml]; exact ⟨h1, h2, h3⟩⟩
  · intro i hi hst
    rw [(hsame i).1] at hi
    rw [(hsame i).2.1] at hst
    exact ho i (h.plain i hi hst)

/-- A free slot is left with scrap in it. -/
theorem OwnInv.scratch (h : OwnInv n g) {i : Nat} {s : USock} (hu : (n.socks i).used = false)
    (hs : Scrap s) (hslot : SlotInv (n.setSock i s) g) : OwnInv (n.setSock i s) g where
  toSlotInv := hslot
  owner := by
    intro k hk
    have hki := hs.elsewhere hk
    rw [Net.setSock_ne _ hki] at hk
    rcases h.owner k hk with h1 | ⟨l, h1, h2, h3⟩
    · exact Or.inl h1
    · have hli : l ≠ i := Net.used_ne h1 hu
      exact Or.inr ⟨l, by rw [Net.setSock_ne _ hli]; exact ⟨h1, h2, h3⟩⟩
  plain := by
    intro k hk hst
    have hki := hs.elsewhere hk
    rw [Net.setSock_ne _ hki] at hk hst
    exact h.plain k hk hst

/-- A socket gets a name, flags or a queue to listen with. -/
theorem OwnInv.touched (h : OwnInv n g) {i : Nat} {s : USock} (ht : Touched (n.socks i) s)
    (hslot : SlotInv (n.setSock i s) g) : OwnInv (n.setSock i s) g := by
  have hk : ∀ k, ((n.setSock i s).socks k).used = (n.socks k).used
      ∧ ((n.socks k).state ≠ .created → (n.socks k).state ≠ .bound →
        ((n.setSock i s).socks k).state = (n.socks k).state)
      ∧ pending ((n.setSock i s).socks k) = pending (n.socks k) := by
    intro k
    by_cases hki : k = i
    · subst hki
      rw [Net.setSock_self]
      exact ⟨ht.used, ht.stays, by unfold pending; rw [ht.wait, ht.queue]⟩
    · rw [Net.setSock_ne _ hki]; exact ⟨rfl, fun _ _ => rfl, rfl⟩
  refine h.same hslot (fun k => (hk k).1) ?_ ?_ (fun k => (hk k).2.2) fun _ => rfl
  · intro k hl
    exact ((hk k).2.1 (by rw [hl]; decide) (by rw [hl]; decide)).trans hl
  · intro k hc
    exact ((hk k).2.1 (by rw [hc]; decide) (by rw [hc]; decide)).trans hc

/-- **A new connection waits in the queue it was put into**, and every other socket keeps the
owner it had. -/
theorem OwnInv.linked (h : OwnInv n g) {c s l : Nat} (huc : (n.socks c).used = true)
    (hsc : (n.socks c).state = .created) (hus : (n.socks s).used = false)
    (hul : (n.socks l).used = true) (hsl : (n.socks l).state = .listening)
    (hslot : SlotInv (((n.setSock s (USock.fresh.joined c)).setSock c
      ((n.socks c).joined s)).setSock l
      ((n.socks l).enqueue s)) (g.after (.linked c s l))) :
    OwnInv (((n.setSock s (USock.fresh.joined c)).setSock c ((n.socks c).joined s)).setSock l
      ((n.socks l).enqueue s)) (g.after (.linked c s l)) := by
  -- the three slots are different ones: free, created and listening
  have hcs : c ≠ s := Net.used_ne huc hus
  have hls : l ≠ s := Net.used_ne hul hus
  have hlc : l ≠ c := Net.listening_ne hsl hsc
  generalize hm : ((n.setSock s (USock.fresh.joined c)).setSock c ((n.socks c).joined s)).setSock l
    ((n.socks l).enqueue s) = m at hslot ⊢
  have hml : m.socks l = (n.socks l).enqueue s := by rw [← hm, Net.setSock_self]
  have hmc : m.socks c = (n.socks c).joined s := by
    rw [← hm, Net.setSock_ne _ hlc.symm, Net.setSock_self]
  have hms : m.socks s = USock.fresh.joined c := by
    rw [← hm, Net.setSock_ne _ hls.symm, Net.setSock_ne _ hcs.symm, Net.setSock_self]
  have hmk : ∀ k, k ≠ l → k ≠ c → k ≠ s → m.socks k = n.socks k := by
    intro k h1 h2 h3
    rw [← hm, Net.setSock_ne _ h1, Net.setSock_ne _ h2, Net.setSock_ne _ h3]
  have hown : ∀ k, k ≠ s → (g.after (.linked c s l)).owned k = g.owned k := by
    intro k hk
    exact (Accepts.hand_ne hk).2.2.2.2
  have hused : ∀ k, k ≠ s → (m.socks k).used = (n.socks k).used := by
    intro k hk
    by_cases h1 : k = l
    · rw [h1, hml]; rfl
    · by_cases h2 : k = c
      · rw [h2, hmc]; rfl
      · rw [hmk k h1 h2 hk]
  refine ⟨hslot, ?_, ?_⟩
  · intro k hk
    by_cases hks : k = s
    · -- the new socket waits in the queue it was put into
      right
      refine ⟨l, by rw [hused l hls]; exact hul, by rw [hml]; exact hsl, ?_⟩
      rw [hml, pending_enqueue, hks]
      exact List.mem_append_right _ (List.mem_singleton.mpr rfl)
    · rw [hused k hks] at hk
      rcases h.owner k hk with h1 | ⟨q, h1, h2, h3⟩
      · exact Or.inl ((hown k hks).trans h1)
      · -- the queue it waits in is a listener's, and loses nothing
        have hqs : q ≠ s := Net.used_ne h1 hus
        have hqc : q ≠ c := Net.listening_ne h2 hsc
        by_cases hql : q = l
        · subst hql
          refine Or.inr ⟨q, ?_⟩
          rw [hml]
          exact ⟨h1, h2, by rw [pending_enqueue]; exact List.mem_append_left _ h3⟩
        · exact Or.inr ⟨q, by rw [hmk q hql hqc hqs]; exact ⟨h1, h2, h3⟩⟩
  · intro k hk hst
    by_cases hks : k = s
    · rw [hks, hms] at hst; exact absurd rfl hst
    · by_cases hkc : k = c
      · rw [hkc, hmc] at hst; exact absurd rfl hst
      · rw [hused k hks] at hk
        refine (hown k hks).trans (h.plain k hk fun hcon => hst ?_)
        by_cases hkl : k = l
        · rw [hkl] at hcon; rw [hsl] at hcon; exact absurd hcon (by decide)
        · rw [hmk k hkl hkc hks]; exact hcon

/-- A slot whose queue is empty is given up: nobody waited in it. -/
theorem OwnInv.shut (h : OwnInv n g) {i : Nat} (hempty : pending (n.socks i) = [])
    (ho : ∀ k, k ≠ i → g'.owned k = g.owned k) (hslot : SlotInv (shutSlot n i) g') :
    OwnInv (shutSlot n i) g' := by
  have hne : ∀ k, ((shutSlot n i).socks k).used = true → k ≠ i := by
    rintro k hk rfl
    rw [shutSlot_self] at hk
    exact absurd hk (by decide)
  refine ⟨hslot, ?_, ?_⟩
  · intro k hk
    have hki := hne k hk
    rw [(shutSlot_rest hki).1] at hk
    rcases h.owner k hk with h1 | ⟨l, h1, h2, h3⟩
    · exact Or.inl ((ho k hki).trans h1)
    · have hli : l ≠ i := by rintro rfl; rw [hempty] at h3; exact absurd h3 (by simp)
      obtain ⟨e1, _, e3, e4⟩ := shutSlot_rest (n := n) hli
      exact Or.inr ⟨l, e1.trans h1, e4.trans h2, by rw [e3]; exact h3⟩
  · intro k hk hst
    have hki := hne k hk
    rw [(shutSlot_rest hki).1] at hk
    rw [(shutSlot_rest hki).2.2.2] at hst
    exact (ho k hki).trans (h.plain k hk hst)

/-- **One edit keeps it.** -/
theorem OwnInv.edit (h : OwnInv n g) (hp : PeerInv n) {es : List Ev}
    (hok : Allowed Accepts.after ClosesIdle g es) (he : Edit fs n es n') :
    OwnInv n' (es.foldl Accepts.after g) := by
  have hslot : SlotInv n' (es.foldl Accepts.after g) := h.toSlotInv.edit he
  cases he with
  | scratch hu hs => exact h.scratch hu hs hslot
  | touched ht => exact h.touched ht hslot
  | opened hi hu => exact h.hand hu rfl
  | paired ha hb hne hua hub =>
      exact (h.hand hua rfl).hand (by rw [Net.setSock_ne _ hne.symm]; exact hub) rfl
  | looped hi hu flags => exact h.hand hu rfl
  | linked hc huc hsc hs hus hl hul hsl hw => exact h.linked huc hsc hus hul hsl hslot
  | @accepted l s hw hs hlt hu =>
      refine h.dequeue hw rfl ?_ ?_
      · intro k hk
        by_cases hks : k = s
        · simp only [List.foldl_cons, List.foldl_nil, Accepts.after, hks, update_self]
        · simp only [List.foldl_cons, List.foldl_nil, Accepts.after, update_of_ne hks]; exact hk
      · intro k hk _
        have hks : k = s := by rw [hs] at hk; exact_mod_cast hk.symm
        simp only [List.foldl_cons, List.foldl_nil, Accepts.after, hks, update_self]
  | stale hw hs =>
      -- an entry thrown away names a slot that is free
      refine h.dequeue hw rfl (fun _ => id) ?_
      intro k hk hu
      have := hs k hk (hp.bound k hu)
      rw [hu] at this
      exact absurd this (by decide)
  | pushed _ _ => exact h.same_setSock rfl rfl rfl rfl
  | popped _ => exact h.same_setSock rfl rfl rfl rfl
  | sent _ _ _ => exact (h.vfs _).same_setSock rfl rfl rfl rfl
  | received _ => exact h.same_setSock rfl rfl rfl rfl
  | @closed i _ hu =>
      have hempty : pending (n.socks i) = [] := by
        rw [← h.slots i hu, hok.1]
        rfl
      have hown : ∀ k, k ≠ i →
          (g.after (.closed i (n.socks i).fdsRx.toList)).owned k = g.owned k := by
        intro k hk
        simp only [Accepts.after, update_of_ne hk]
      exact (h.shut hempty hown (h.toSlotInv.shut rfl)).vfs _
  | openFile _ => exact h.vfs _
  | closeFile _ => exact h.vfs _
  | dupFile _ => exact h.vfs _
  | unlinkFile _ => exact h.vfs _

end Own

/-! ## Runs -/

end VnlKernel
