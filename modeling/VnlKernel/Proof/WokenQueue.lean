import VnlKernel.Proof.SockWoken

/-!
# Queues that a woken call is taking from

`unix_accept` reads the first entry of the queue, moves the others up one by one, and
counts one less. A call that was woken may be anywhere in this, and then the queue in
the table is neither what it was nor what it will be. With the entry that was read put
back, it is what it was. The table in which all such queues are put back is changed by
other calls just as the real one is, as long as they keep away from these queues.
-/

namespace VnlKernel

open Run Function

variable {σ : Type}

/-! ## Putting the entry back -/

/-- Has the call read the first entry, and not returned yet? -/
def AcceptAt.serving : AcceptAt → Bool
  | .poll => false
  | .flags => false
  | .first => false
  | _ => true

/-- Has it also read how many there are? -/
def AcceptAt.half : AcceptAt → Bool
  | .poll => false
  | .flags => false
  | .first => false
  | .count _ => false
  | _ => true

/-- The entries as they were before the call moved any, from what they are. -/
def AcceptAt.entriesBefore (q : Nat → Int) : AcceptAt → Nat → Int
  | .move si _ k => fun m => if m = 0 then si else if m ≤ k then q (m - 1) else q m
  | .drop si => fun m => if m = 0 then si else q (m - 1)
  | .dropped si _ => fun m => if m = 0 then si else q (m - 1)
  | .check si => fun m => if m = 0 then si else q (m - 1)
  | _ => q

/-- How many there were. -/
def AcceptAt.waitBefore (w : Nat) : AcceptAt → Nat
  | .check _ => w + 1
  | _ => w

/-- The slot of the listener before the call began to change the queue. -/
def AcceptAt.undo (s : USock) (pos : AcceptAt) : USock :=
  { s with listenQ := pos.entriesBefore s.listenQ, nWait := pos.waitBefore s.nWait }

/-- What a call in this position knows of the slot. -/
def AcceptAt.Fits (s : USock) : AcceptAt → Prop
  | .count si => s.nWait ≠ 0 ∧ s.listenQ 0 = si
  | .move _ w k => s.nWait = w ∧ k < w
  | .drop _ => s.nWait ≠ 0
  | .dropped _ w => s.nWait = w ∧ w ≠ 0
  | _ => True

section Undo

variable {n : Net σ} {s s' : USock} {pos pos' : AcceptAt}

theorem AcceptAt.half_serving (h : pos.half = true) : pos.serving = true := by
  cases pos with
  | poll => exact absurd h (by simp [AcceptAt.half])
  | flags => exact absurd h (by simp [AcceptAt.half])
  | first => exact absurd h (by simp [AcceptAt.half])
  | _ => rfl

theorem AcceptAt.not_half (h : pos.serving = false) : pos.half = false := by
  cases hh : pos.half with
  | false => rfl
  | true => rw [AcceptAt.half_serving hh] at h; exact absurd h (by decide)

theorem AcceptAt.undo_of_not_half (h : pos.half = false) (s : USock) : pos.undo s = s := by
  cases pos with
  | poll => rfl
  | flags => rfl
  | first => rfl
  | count si => rfl
  | _ => exact absurd h (by simp [AcceptAt.half])

theorem pending_congr (hw : s'.nWait = s.nWait)
    (hq : ∀ m, m < s.nWait → s'.listenQ m = s.listenQ m) : pending s' = pending s := by
  unfold pending
  rw [hw]
  exact List.map_congr_left fun m hm => hq m (List.mem_range.mp hm)

/-- **One access** leaves the queue as it was before the call began, until it returns. -/
theorem AcceptAt.go_undo (hfit : pos.Fits s) (hfirst : pos = .first → s.nWait ≠ 0)
    (h : pos.go n s = .done (s', .inl pos')) :
    (pos'.undo s').nWait = (pos.undo s).nWait ∧ pending (pos'.undo s') = pending (pos.undo s)
      ∧ pos'.Fits s' := by
  cases AcceptAt.goes h with
  | poll =>
      split
      · exact ⟨rfl, rfl, trivial⟩
      · exact ⟨rfl, rfl, trivial⟩
  | asleep => exact ⟨rfl, rfl, trivial⟩
  | first => exact ⟨rfl, rfl, hfirst rfl, rfl⟩
  | count si hne =>
      refine ⟨rfl, pending_congr rfl fun m _ => ?_, rfl, Nat.pos_of_ne_zero hne⟩
      change (if m = 0 then si else if m ≤ 0 then s.listenQ (m - 1) else s.listenQ m) = s.listenQ m
      by_cases hm : m = 0
      · rw [if_pos hm, hm, hfit.2]
      · rw [if_neg hm, if_neg (by omega)]
  | move si w k hlt =>
      obtain ⟨hw, hk⟩ := hfit
      refine ⟨rfl, pending_congr rfl fun m _ => ?_, hw, by omega⟩
      change (if m = 0 then si
          else if m ≤ k + 1 then if m - 1 = k then s.listenQ (k + 1) else s.listenQ (m - 1)
            else if m = k then s.listenQ (k + 1) else s.listenQ m)
        = if m = 0 then si else if m ≤ k then s.listenQ (m - 1) else s.listenQ m
      by_cases hm : m = 0
      · rw [if_pos hm, if_pos hm]
      · rw [if_neg hm, if_neg hm]
        by_cases hmk : m ≤ k
        · rw [if_pos (by omega), if_neg (by omega), if_pos hmk]
        · rw [if_neg hmk]
          by_cases hmk' : m = k + 1
          · subst hmk'
            rw [if_pos (Nat.le_refl _), if_pos (by omega)]
          · rw [if_neg (by omega), if_neg (by omega)]
  | moved si w k hge =>
      -- the last entry has moved
      obtain ⟨hw, hk⟩ := hfit
      have hne : s.nWait ≠ 0 := by omega
      refine ⟨rfl, pending_congr rfl fun m hm => ?_, hne⟩
      change m < s.nWait at hm
      change (if m = 0 then si else s.listenQ (m - 1))
        = if m = 0 then si else if m ≤ k then s.listenQ (m - 1) else s.listenQ m
      by_cases hm0 : m = 0
      · rw [if_pos hm0, if_pos hm0]
      · rw [if_neg hm0, if_neg hm0, if_pos (by omega)]
  | drop si => exact ⟨rfl, rfl, rfl, hfit⟩
  | dropped si w hne =>
      have hwait : w - 1 + 1 = s.nWait := by
        have hw : s.nWait = w := hfit.1
        omega
      exact ⟨hwait, pending_congr hwait fun m _ => rfl, trivial⟩

/-- A call that has read the first entry goes on until it has taken it out. -/
theorem AcceptAt.go_serving (hs : pos.serving = true) (h : pos.go n s = .done (s', .inl pos')) :
    pos'.serving = true := by
  cases AcceptAt.goes h with
  | poll => exact absurd hs (by simp [AcceptAt.serving])
  | asleep => exact absurd hs (by simp [AcceptAt.serving])
  | _ => rfl

/-- Before it has read the first entry it changes nothing. -/
theorem AcceptAt.go_wait {r : AcceptAt ⊕ Int} (hs : pos.serving = false)
    (h : pos.go n s = .done (s', r)) : s' = s ∧ (∀ pos', r = .inl pos' → pos'.serving = true →
      pos = .first) := by
  cases AcceptAt.goes h with
  | poll =>
      refine ⟨rfl, fun pos' hr hs' => ?_⟩
      split at hr
      · cases hr; exact absurd hs' (by simp [AcceptAt.serving])
      · cases hr; exact absurd hs' (by simp [AcceptAt.serving])
  | asleep =>
      refine ⟨rfl, fun pos' hr hs' => ?_⟩
      cases hr
      exact absurd hs' (by simp [AcceptAt.serving])
  | again => exact ⟨rfl, fun pos' hr => absurd hr (by simp)⟩
  | first => exact ⟨rfl, fun _ _ _ => rfl⟩
  | _ => exact absurd hs (by simp [AcceptAt.serving])

/-- The queue was not empty when the call began. -/
theorem AcceptAt.Fits.wait (h : pos.Fits s) (hs : pos.serving = true) :
    (pos.undo s).nWait ≠ 0 := by
  cases pos with
  | count si => exact h.1
  | move si w k =>
      obtain ⟨hw, hk⟩ := h
      change s.nWait ≠ 0
      omega
  | drop si => exact h
  | dropped si w =>
      obtain ⟨hw, hne⟩ := h
      change s.nWait ≠ 0
      omega
  | check si => exact Nat.succ_ne_zero _
  | _ => exact absurd hs (by simp [AcceptAt.serving])

/-- Nor does it run into the cases that are not followed any further. -/
theorem AcceptAt.go_done (hfit : pos.Fits s) : ∃ r, pos.go n s = .done r := by
  unfold AcceptAt.go
  cases pos with
  | count si => exact ⟨_, if_neg hfit.1⟩
  | move si w k =>
      dsimp only
      split
      · exact ⟨_, rfl⟩
      · exact ⟨_, rfl⟩
  | dropped si w => exact ⟨_, if_neg hfit.2⟩
  | check si =>
      dsimp only
      split
      · exact ⟨_, rfl⟩
      · exact ⟨_, rfl⟩
  | _ => exact ⟨_, rfl⟩

/-- What waits, once the call has returned. -/
theorem pending_returned (si : Int) (s : USock) :
    pending ((AcceptAt.check si).undo s).dequeue = pending s := by
  refine pending_congr rfl fun m hm => ?_
  change (if m < s.nWait then if m + 1 = 0 then si else s.listenQ (m + 1 - 1)
    else if m = 0 then si else s.listenQ (m - 1)) = s.listenQ m
  rw [if_pos hm, if_neg (Nat.succ_ne_zero m), Nat.add_sub_cancel]

end Undo

/-! ## The table with the entries put back -/

/-- The table before the calls that take from the queues began, given where the one on each slot
is. -/
def Net.undone (n : Net σ) (ps : Nat → AcceptAt) : Net σ :=
  { n with socks := fun k => (ps k).undo (n.socks k) }

section Undone

variable {fs : FrameService σ} {n n' : Net σ} {ps : Nat → AcceptAt} {i : Nat}

theorem Net.undone_sameLinks : SameLinks n (n.undone ps) := fun _ => ⟨rfl, rfl, rfl⟩

/-- A slot is rewritten, and the call on it is in another place. -/
theorem Net.undone_update (s : USock) (pos : AcceptAt) :
    (n.setSock i s).undone (update ps i pos) = (n.undone ps).setSock i (pos.undo s) := by
  unfold Net.undone Net.setSock
  congr 1
  funext k
  dsimp only
  by_cases hk : k = i
  · rw [if_pos hk, if_pos hk, hk, update_self]
  · rw [if_neg hk, if_neg hk, update_of_ne hk]

theorem Net.undone_setSock (s : USock) :
    (n.setSock i s).undone ps = (n.undone ps).setSock i ((ps i).undo s) := by
  rw [← Net.undone_update, update_eq_self]

/-- Nobody takes from the queue of the slot. -/
theorem Net.undone_setSock_of_not_half (h : (ps i).half = false) (s : USock) :
    (n.setSock i s).undone ps = (n.undone ps).setSock i s := by
  rw [Net.undone_setSock, AcceptAt.undo_of_not_half h]

theorem Net.undone_socks (h : (ps i).half = false) : (n.undone ps).socks i = n.socks i :=
  AcceptAt.undo_of_not_half h _

/-- Giving a slot up does not depend on the queues of others. -/
theorem shutSlot_undone (h : (ps i).half = false) :
    (shutSlot n i).undone ps = shutSlot (n.undone ps) i := by
  have hunlink : (unlinkPeer n i).undone ps = unlinkPeer (n.undone ps) i := by
    unfold unlinkPeer
    rw [Net.undone_socks h]
    dsimp only
    split
    · change _ = if (n.socks (n.socks i).peerIdx.toNat).used = true
        ∧ (n.socks (n.socks i).peerIdx.toNat).peerIdx = i then _ else _
      split
      · rw [Net.undone_setSock]
        rfl
      · rfl
    · rfl
  unfold shutSlot
  rw [Net.undone_setSock_of_not_half h, hunlink]

end Undone

/-! ## Edits -/

/-- Does this entry say that a connection was taken from slot `l`, or that it was given up? -/
def Ev.serves (l : Nat) : Ev → Bool
  | .accepted i _ => i = l
  | .stale i _ => i = l
  | .closed i _ => i = l
  | _ => false

/-- Does it say that a connection was made to slot `l`? -/
def Ev.joins (l : Nat) : Ev → Bool
  | .linked _ _ i => i = l
  | _ => false

section Edits

variable {fs : FrameService σ} {n n' : Net σ} {ps : Nat → AcceptAt} {es : List Ev}

/-- **Edits that keep away from the queues** do the same to the table with the entries put back. -/
theorem Edit.undone (he : Edit fs n es n')
    (hl : ∀ l, (ps l).half = true → (n.socks l).used = true ∧ (n.socks l).state = .listening)
    (hes : ∀ e ∈ es, ∀ l, (ps l).half = true → e.serves l = false ∧ e.joins l = false) :
    Edit fs (n.undone ps) es (n'.undone ps) := by
  have hfree : ∀ i, (n.socks i).used = false → (ps i).half = false := by
    intro i hu
    cases hh : (ps i).half with
    | false => rfl
    | true => rw [(hl i hh).1] at hu; exact absurd hu (by decide)
  have haway : ∀ {e : Ev} {i : Nat}, e ∈ es → e.serves i = true ∨ e.joins i = true →
      (ps i).half = false := by
    intro e i he hei
    cases hh : (ps i).half with
    | false => rfl
    | true =>
        obtain ⟨h1, h2⟩ := hes e he i hh
        rw [h1, h2] at hei
        exact absurd hei (by decide)
  have hused : ∀ k, ((n.undone ps).socks k).used = (n.socks k).used := fun _ => rfl
  have hsends : ∀ {i j : Nat}, Sends n i j → Sends (n.undone ps) i j := fun hs =>
    ⟨hs.bound, hs.used, hs.state, hs.peer, hs.target⟩
  cases he with
  | scratch hu hs =>
      rw [Net.undone_setSock_of_not_half (hfree _ hu)]
      exact .scratch hu hs
  | touched ht =>
      rw [Net.undone_setSock]
      refine .touched ⟨ht.used, ht.rx, ht.peer, ?_, ?_, ht.fds, ht.state⟩
      · exact congrArg (ps _).entriesBefore ht.queue
      · exact congrArg (ps _).waitBefore ht.wait
  | opened hi hu =>
      rw [Net.undone_setSock_of_not_half (hfree _ hu)]
      exact .opened hi hu
  | paired ha hb hne hua hub =>
      rw [Net.undone_setSock_of_not_half (hfree _ hub),
        Net.undone_setSock_of_not_half (hfree _ hua)]
      exact .paired ha hb hne hua hub
  | looped hi hu flags =>
      rw [Net.undone_setSock_of_not_half (hfree _ hu)]
      refine .looped hi ?_ flags
      exact hu
  | @linked c s l hc huc hsc hs hus hll hul hsl hw =>
      have hpl : (ps l).half = false :=
        haway (List.mem_singleton_self _) (Or.inr (by simp [Ev.joins]))
      have hpc : (ps c).half = false := by
        cases hh : (ps c).half with
        | false => rfl
        | true => rw [(hl c hh).2] at hsc; exact absurd hsc (by decide)
      rw [Net.undone_setSock_of_not_half hpl, Net.undone_setSock_of_not_half hpc,
        Net.undone_setSock_of_not_half (hfree _ hus), ← Net.undone_socks hpl,
        ← Net.undone_socks hpc]
      refine .linked hc huc hsc hs hus hll hul hsl ?_
      rw [Net.undone_socks hpl]
      exact hw
  | @accepted l s hw hs hlt hu =>
      have hpl : (ps l).half = false :=
        haway (List.mem_singleton_self _) (Or.inl (by simp [Ev.serves]))
      rw [Net.undone_setSock_of_not_half hpl, ← Net.undone_socks hpl]
      refine .accepted ?_ ?_ hlt hu
      · rw [Net.undone_socks hpl]; exact hw
      · rw [Net.undone_socks hpl]; exact hs
  | @stale l hw hs =>
      have hpl : (ps l).half = false :=
        haway (List.mem_singleton_self _) (Or.inl (by simp [Ev.serves]))
      rw [Net.undone_setSock_of_not_half hpl, ← Net.undone_socks hpl]
      refine .stale ?_ fun s hs' hlt => ?_
      · rw [Net.undone_socks hpl]; exact hw
      · rw [Net.undone_socks hpl] at hs'; exact hs s hs' hlt
  | pushed h hrx =>
      rw [Net.undone_setSock]
      exact .pushed (hsends h) hrx
  | popped hrx =>
      rw [Net.undone_setSock]
      exact .popped hrx
  | sent h hp hq =>
      rw [Net.undone_setSock]
      refine .sent (hsends h) ?_ hq
      cases hp with
      | sock hsock => exact .sock ((unixIsSockfd_congr hused _).trans hsock)
      | file hsock hr hd => exact .file ((unixIsSockfd_congr hused _).trans hsock) hr hd
  | received hq =>
      rw [Net.undone_setSock]
      exact .received hq
  | @closed i hi hu =>
      have hpi : (ps i).half = false :=
        haway (List.mem_singleton_self _) (Or.inl (by simp [Ev.serves]))
      have hfds : closeFds n (n.socks i).fdsRx.toList n.vfs
          = closeFds (n.undone ps) (n.socks i).fdsRx.toList n.vfs := (closeFds_congr hused _ _).symm
      change Edit fs (n.undone ps) _ { (shutSlot n i).undone ps with vfs := closeFds n _ n.vfs }
      rw [shutSlot_undone hpi, hfds]
      refine .closed hi ?_
      exact hu
  | openFile h => exact .openFile h
  | closeFile fd => exact .closeFile fd
  | dupFile fd => exact .dupFile fd
  | unlinkFile h => exact .unlinkFile h

end Edits

/-! ## Queues that only grow -/

/-- The slot and its queue are as they were. -/
structure SameQueue (s s' : USock) : Prop where
  used : s'.used = s.used
  state : s'.state = s.state
  queue : s'.listenQ = s.listenQ
  wait : s'.nWait = s.nWait

/-- Nothing was taken from the queue, and more may have been put into it. -/
structure Longer (s s' : USock) : Prop where
  used : s'.used = s.used
  state : s'.state = s.state
  wait : s.nWait ≤ s'.nWait
  queue : ∀ m, m < s.nWait → s'.listenQ m = s.listenQ m

section Longer

variable {fs : FrameService σ} {n n' : Net σ} {s s' s'' : USock} {l : Nat}

theorem SameQueue.refl (s : USock) : SameQueue s s := ⟨rfl, rfl, rfl, rfl⟩

theorem SameQueue.longer (h : SameQueue s s') : Longer s s' :=
  ⟨h.used, h.state, Nat.le_of_eq h.wait.symm, fun m _ => by rw [h.queue]⟩

theorem Longer.trans (h : Longer s s') (h' : Longer s' s'') : Longer s s'' :=
  ⟨h'.used.trans h.used, h'.state.trans h.state, Nat.le_trans h.wait h'.wait, fun m hm =>
    (h'.queue m (Nat.lt_of_lt_of_le hm h.wait)).trans (h.queue m hm)⟩

/-- A call that takes from the queue does not mind if more is put into it before it has read how
much there is. -/
theorem AcceptAt.Fits.longer {pos : AcceptAt} (h : pos.Fits s)
    (hl : pos.serving = true → Longer s s') (hw : pos.half = true → s'.nWait = s.nWait) :
    pos.Fits s' := by
  cases pos with
  | count si =>
      obtain ⟨hne, hsi⟩ := h
      have hl := hl rfl
      exact ⟨Nat.ne_of_gt (Nat.lt_of_lt_of_le (Nat.pos_of_ne_zero hne) hl.wait),
        (hl.queue 0 (Nat.pos_of_ne_zero hne)).trans hsi⟩
  | move si w k => exact ⟨(hw rfl).trans h.1, h.2⟩
  | drop si =>
      change s'.nWait ≠ 0
      rw [hw rfl]
      exact h
  | dropped si w => exact ⟨(hw rfl).trans h.1, h.2⟩
  | _ => trivial

theorem longer_enqueue (s : USock) (k : Nat) : Longer s (s.enqueue k) :=
  ⟨rfl, rfl, Nat.le_succ _, fun _ hm => if_neg (Nat.ne_of_lt hm)⟩

theorem sameQueue_setSock {i : Nat} (h : l = i → SameQueue (n.socks l) s) :
    SameQueue (n.socks l) ((n.setSock i s).socks l) := by
  by_cases hli : l = i
  · rw [hli, Net.setSock_self, ← hli]
    exact h hli
  · rw [Net.setSock_ne _ hli]
    exact SameQueue.refl _

/-- **One edit** that takes nothing from a listener: its queue grows where it is joined only. -/
theorem Edit.longer {es : List Ev} (he : Edit fs n es n') (hu : (n.socks l).used = true)
    (hs : (n.socks l).state = .listening) (hno : ∀ e ∈ es, e.serves l = false) :
    Longer (n.socks l) (n'.socks l)
      ∧ ((∀ e ∈ es, e.joins l = false) → (n'.socks l).nWait = (n.socks l).nWait) := by
  have hsame : SameQueue (n.socks l) (n'.socks l) → Longer (n.socks l) (n'.socks l)
      ∧ ((∀ e ∈ es, e.joins l = false) → (n'.socks l).nWait = (n.socks l).nWait) := fun h =>
    ⟨h.longer, fun _ => h.wait⟩
  have hne : ∀ {i : Nat}, (n.socks i).used = false → l ≠ i := fun hi => Net.used_ne hu hi
  cases he with
  | scratch hi _ => exact hsame (sameQueue_setSock fun hli => absurd hli (hne hi))
  | touched ht =>
      refine hsame (sameQueue_setSock ?_)
      rintro rfl
      exact ⟨ht.used, ht.stays (by rw [hs]; decide) (by rw [hs]; decide), ht.queue, ht.wait⟩
  | opened _ hi => exact hsame (sameQueue_setSock fun hli => absurd hli (hne hi))
  | paired _ _ _ ha hb =>
      refine hsame ?_
      rw [Net.setSock_ne _ (hne hb), Net.setSock_ne _ (hne ha)]
      exact SameQueue.refl _
  | looped _ hi _ => exact hsame (sameQueue_setSock fun hli => absurd hli (hne hi))
  | @linked c k m hc huc hsc hk huk hm hum hsm hw =>
      have hlc : l ≠ c := Net.listening_ne hs hsc
      by_cases hlm : l = m
      · subst hlm
        rw [Net.setSock_self]
        refine ⟨longer_enqueue _ _, fun hno => ?_⟩
        exact absurd (hno _ (List.mem_singleton_self _)) (by simp [Ev.joins])
      · refine hsame ?_
        rw [Net.setSock_ne _ hlm, Net.setSock_ne _ hlc, Net.setSock_ne _ (hne huk)]
        exact SameQueue.refl _
  | accepted _ _ _ _ =>
      refine hsame (sameQueue_setSock fun hli => ?_)
      exact absurd (hno _ (List.mem_singleton_self _)) (by simp [Ev.serves, hli])
  | stale _ _ =>
      refine hsame (sameQueue_setSock fun hli => ?_)
      exact absurd (hno _ (List.mem_singleton_self _)) (by simp [Ev.serves, hli])
  | pushed _ _ => exact hsame (sameQueue_setSock fun hli => hli ▸ ⟨rfl, rfl, rfl, rfl⟩)
  | popped _ => exact hsame (sameQueue_setSock fun hli => hli ▸ ⟨rfl, rfl, rfl, rfl⟩)
  | sent _ _ _ =>
      exact hsame (sameQueue_setSock (n := { n with vfs := _ }) fun hli =>
        hli ▸ ⟨rfl, rfl, rfl, rfl⟩)
  | received _ => exact hsame (sameQueue_setSock fun hli => hli ▸ ⟨rfl, rfl, rfl, rfl⟩)
  | @closed i _ _ =>
      have hli : l ≠ i := by
        rintro rfl
        exact absurd (hno _ (List.mem_singleton_self _)) (by simp [Ev.serves])
      refine hsame ?_
      change SameQueue (n.socks l) ((shutSlot n i).socks l)
      rcases shutSlot_ne (n := n) hli with h | ⟨_, _, _, h⟩
      · rw [h]; exact SameQueue.refl _
      · rw [h]; exact ⟨rfl, rfl, rfl, rfl⟩
  | openFile _ => exact hsame (SameQueue.refl _)
  | closeFile _ => exact hsame (SameQueue.refl _)
  | dupFile _ => exact hsame (SameQueue.refl _)
  | unlinkFile _ => exact hsame (SameQueue.refl _)

end Longer

end VnlKernel
