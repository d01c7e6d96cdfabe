import VnlKernel.Proof.SockSteps
import VnlKernel.Proof.VfsFile

/-!
# Runs of the socket layer

A system is the table, the calls that are asleep, and everything that has been logged.
Calls are atomic but for the one place where they sleep; a sleeping call is woken at
any time and in any order, and looks at its slot again. From there it is taken to run to
its end, or to its next sleep, in one step. In the kernel it may be interrupted then;
`Tasks` is the system in which it is.

A slot is handed out many times. `gen` counts how often, so a slot and its generation
together name one socket. A sleeping call is kept with the generation it was made on,
which the kernel does not keep.

The first invariant, which the others build on, is that peers name each other.
-/

namespace VnlKernel

open Run

variable {σ : Type}

/-! ## The system -/

/-- Does this entry say that slot `i` was handed out? -/
def Ev.opens (i : Nat) : Ev → Bool
  | .opened k => k = i
  | .paired a b => a = i || b = i
  | .looped k => k = i
  | .linked _ s _ => s = i
  | _ => false

/-- How often slot `i` has been handed out. -/
def gen (hist : List Ev) (i : Nat) : Nat := hist.countP (Ev.opens i)

/-- A call that is asleep, and the generation of its slot when it was made. -/
structure Sleeper where
  wait : Wait
  gen : Nat

structure Sys (σ : Type) where
  net : Net σ
  asleep : List Sleeper
  hist : List Ev

/-- What may happen next: some program makes a call, or a sleeping call is woken. -/
inductive Act where
  | call (op : SockOp)
  | wake (k : Nat)

/-- The system afterwards, and what a caller is told, if it is told anything. -/
def Sys.step (fs : FrameService σ) (input : DevInput) (fuel : Nat) (s : Sys σ) :
    Act → Outcome (Sys σ × Option Ans)
  | .call op => do
      let (n, log, rep) ← s.net.call fs input fuel op
      let hist := s.hist ++ log
      match rep with
      | .ret a => return (⟨n, s.asleep, hist⟩, some a)
      | .sleep w => return (⟨n, s.asleep ++ [⟨w, gen hist w.slot⟩], hist⟩, none)
  | .wake k =>
      match s.asleep[k]? with
      | none => .done (s, none)
      | some t =>
          match s.net.resume t.wait with
          | (n, log, .ret a) => .done (⟨n, s.asleep.eraseIdx k, s.hist ++ log⟩, some a)
          | (n, log, .sleep _) => .done (⟨n, s.asleep, s.hist ++ log⟩, none)

/-- After `unix_socket_init`, above any file system. -/
def Sys.Boots (s : Sys σ) : Prop := ∃ v, s = ⟨unixSocketInit v, [], []⟩

/-- Steps that meet a condition. -/
def Sys.StepsIf (fs : FrameService σ) (cond : Sys σ → Act → Prop) (s s' : Sys σ) : Prop :=
  ∃ input fuel act ans, cond s act ∧ s.step fs input fuel act = .done (s', ans)

/-- Any steps at all. -/
def Sys.Steps (fs : FrameService σ) : Sys σ → Sys σ → Prop := Sys.StepsIf fs fun _ _ => True

/-- Several steps in a row, and what the callers are told. -/
def Sys.run (fs : FrameService σ) (input : DevInput) (fuel : Nat) : Sys σ → List Act →
    Outcome (Sys σ × List (Option Ans))
  | s, [] => .done (s, [])
  | s, act :: acts => do
      let (s, ans) ← s.step fs input fuel act
      let (s, rest) ← s.run fs input fuel acts
      return (s, ans :: rest)

/-- The system over the file system that `vfs_init` leaves. -/
def bootSys : Sys Nat := ⟨unixSocketInit bootVfs, [], []⟩

theorem bootSys_boots : bootSys.Boots := ⟨bootVfs, rfl⟩

/-- A run of actions that meet the condition wherever they are taken. -/
theorem run_reach {fs : FrameService σ} {cond : Sys σ → Act → Prop} {input : DevInput}
    {fuel : Nat} :
    ∀ {acts : List Act} {s s' : Sys σ} {anss : List (Option Ans)}, (∀ act ∈ acts, ∀ s, cond s act) →
    Reach Sys.Boots (Sys.StepsIf fs cond) s → s.run fs input fuel acts = .done (s', anss) →
    Reach Sys.Boots (Sys.StepsIf fs cond) s'
  | [], s, s', anss, _, hr, h => by
      cases h
      exact hr
  | act :: acts, s, s', anss, hc, hr, h => by
      obtain ⟨⟨s₁, ans⟩, h₁, h⟩ := Outcome.bind_eq_done h
      obtain ⟨⟨s₂, rest⟩, h₂, h⟩ := Outcome.bind_eq_done h
      cases h
      exact run_reach (fun a ha => hc a (List.mem_cons_of_mem _ ha))
        (.next hr ⟨input, fuel, act, ans, hc act (List.mem_cons_self ..) s, h₁⟩) h₂

/-- What was logged is edits of the table, or only the file system has changed. -/
inductive Recorded (fs : FrameService σ) (s s' : Sys σ) (log : List Ev) : Prop
  | edits (h : Edits fs s.net log s'.net)
  | files (hlog : log = []) {v : Vfs σ} (h : s'.net = { s.net with vfs := v })

/-- **Every step is logged.** -/
theorem step_logged {fs : FrameService σ} {input : DevInput} {fuel : Nat} {s s' : Sys σ} {act : Act}
    {ans : Option Ans}
    (hcr : ∀ i, (s.net.socks i).state = .created → (s.net.socks i).peerIdx = peerNone)
    (h : s.step fs input fuel act = .done (s', ans)) :
    ∃ log, s'.hist = s.hist ++ log ∧ Recorded fs s s' log := by
  cases act with
  | call op =>
      obtain ⟨⟨n, log, rep⟩, hc, h⟩ := Outcome.bind_eq_done h
      have hnet : s'.net = n ∧ s'.hist = s.hist ++ log := by
        cases rep with
        | ret a => cases h; exact ⟨rfl, rfl⟩
        | sleep w => cases h; exact ⟨rfl, rfl⟩
      refine ⟨log, hnet.2, ?_⟩
      rcases call_edits hcr hc with he | ⟨hlog, f, v, _, _, hv⟩
      · exact .edits (hnet.1 ▸ he)
      · exact .files hlog (hnet.1.trans hv)
  | wake k =>
      rw [Sys.step] at h
      split at h
      · cases h
        exact ⟨[], (List.append_nil _).symm, .edits (.nil _)⟩
      · next t _ =>
        split at h
        · next n log a hr =>
          cases h
          exact ⟨log, rfl, .edits (resume_edits hr)⟩
        · next n log w hr =>
          cases h
          exact ⟨log, rfl, .edits (resume_edits hr)⟩

/-! ## Peers -/

/-- **Peers name each other.** -/
structure PeerInv (n : Net σ) : Prop where
  bound : ∀ i, (n.socks i).used = true → i < unixSockMax
  peer : ∀ i, (n.socks i).used = true → (n.socks i).peerIdx ≠ peerNone →
    ∃ j : Nat, (n.socks i).peerIdx = j ∧ (n.socks j).used = true ∧ (n.socks j).state = .connected
      ∧ (n.socks j).peerIdx = i
  alone : ∀ i, (n.socks i).state = .created ∨ (n.socks i).state = .bound
    ∨ (n.socks i).state = .listening → (n.socks i).peerIdx = peerNone

section Peers

variable {fs : FrameService σ} {n n' : Net σ}

/-- A socket with a peer is connected. -/
theorem PeerInv.connected (h : PeerInv n) {i : Nat} (hu : (n.socks i).used = true)
    (hp : (n.socks i).peerIdx ≠ peerNone) : (n.socks i).state = .connected := by
  obtain ⟨j, _, huj, _, hji⟩ := h.peer i hu hp
  obtain ⟨k, hk, _, hsk, _⟩ := h.peer j huj (by rw [hji]; unfold peerNone; omega)
  have : k = i := by rw [hji] at hk; exact_mod_cast hk.symm
  exact this ▸ hsk

theorem PeerInv.created (h : PeerInv n) (i : Nat) (hs : (n.socks i).state = .created) :
    (n.socks i).peerIdx = peerNone := h.alone i (Or.inl hs)

/-- Nothing that matters for peers has changed. -/
def SameLinks (n n' : Net σ) : Prop :=
  ∀ k, (n'.socks k).used = (n.socks k).used ∧ (n'.socks k).state = (n.socks k).state
    ∧ (n'.socks k).peerIdx = (n.socks k).peerIdx

theorem sameLinks_setSock {i : Nat} {s : USock} (hu : s.used = (n.socks i).used)
    (hs : s.state = (n.socks i).state) (hp : s.peerIdx = (n.socks i).peerIdx) :
    SameLinks n (n.setSock i s) := by
  intro k
  by_cases hk : k = i
  · rw [hk, Net.setSock_self]; exact ⟨hu, hs, hp⟩
  · rw [Net.setSock_ne _ hk]; exact ⟨rfl, rfl, rfl⟩

theorem PeerInv.same (h : PeerInv n) (hs : SameLinks n n') : PeerInv n' where
  bound := by
    intro i hu
    rw [(hs i).1] at hu
    exact h.bound i hu
  peer := by
    intro i hu hp
    rw [(hs i).1] at hu
    rw [(hs i).2.2] at hp ⊢
    obtain ⟨j, h1, h2, h3, h4⟩ := h.peer i hu hp
    obtain ⟨e1, e2, e3⟩ := hs j
    exact ⟨j, h1, by rw [e1]; exact h2, by rw [e2]; exact h3, by rw [e3]; exact h4⟩
  alone := by
    intro i hst
    rw [(hs i).2.1] at hst
    rw [(hs i).2.2]
    exact h.alone i hst

/-- A slot that was not in use, and still has no peer other than itself, may be anything. -/
theorem PeerInv.replace (h : PeerInv n) {i : Nat} {s : USock} (hu : (n.socks i).used = false)
    (hb : s.used = true → i < unixSockMax)
    (hp : s.used = true → s.peerIdx ≠ peerNone → s.peerIdx = i ∧ s.state = .connected)
    (ha : s.state = .created ∨ s.state = .bound ∨ s.state = .listening → s.peerIdx = peerNone) :
    PeerInv (n.setSock i s) where
  bound := by
    intro k hk
    by_cases hki : k = i
    · subst hki; rw [Net.setSock_self] at hk; exact hb hk
    · rw [Net.setSock_ne _ hki] at hk; exact h.bound k hk
  peer := by
    intro k hk hpk
    by_cases hki : k = i
    · subst hki
      rw [Net.setSock_self] at hk hpk ⊢
      obtain ⟨h1, h2⟩ := hp hk hpk
      exact ⟨k, h1, by rw [Net.setSock_self]; exact ⟨hk, h2, h1⟩⟩
    · rw [Net.setSock_ne _ hki] at hk hpk ⊢
      obtain ⟨j, h1, h2, h3, h4⟩ := h.peer k hk hpk
      have hji : j ≠ i := by rintro rfl; rw [hu] at h2; exact absurd h2 (by decide)
      exact ⟨j, h1, by rw [Net.setSock_ne _ hji]; exact ⟨h2, h3, h4⟩⟩
  alone := by
    intro k hst
    by_cases hki : k = i
    · subst hki; rw [Net.setSock_self] at hst ⊢; exact ha hst
    · rw [Net.setSock_ne _ hki] at hst ⊢; exact h.alone k hst

/-- Two sockets without peers are joined. -/
theorem PeerInv.join (h : PeerInv n) {a b : Nat} {s t : USock} (hne : a ≠ b) (ha : a < unixSockMax)
    (hb : b < unixSockMax)
    (hpa : (n.socks a).used = false ∨ (n.socks a).peerIdx = peerNone)
    (hpb : (n.socks b).used = false ∨ (n.socks b).peerIdx = peerNone)
    (hs : s.used = true ∧ s.state = .connected ∧ s.peerIdx = b)
    (ht : t.used = true ∧ t.state = .connected ∧ t.peerIdx = a) :
    PeerInv ((n.setSock a s).setSock b t) := by
  have hva : ((n.setSock a s).setSock b t).socks a = s := by
    rw [Net.setSock_ne _ hne, Net.setSock_self]
  have hvb : ((n.setSock a s).setSock b t).socks b = t := Net.setSock_self t
  have hvk : ∀ k, k ≠ a → k ≠ b → ((n.setSock a s).setSock b t).socks k = n.socks k := by
    intro k h1 h2
    rw [Net.setSock_ne _ h2, Net.setSock_ne _ h1]
  -- nobody else named either of them
  have hfree : ∀ x, x = a ∨ x = b → (n.socks x).used = false ∨ (n.socks x).peerIdx = peerNone := by
    rintro x (rfl | rfl)
    · exact hpa
    · exact hpb
  refine ⟨?_, ?_, ?_⟩
  · intro k hk
    by_cases h1 : k = a
    · rw [h1]; exact ha
    · by_cases h2 : k = b
      · rw [h2]; exact hb
      · rw [hvk k h1 h2] at hk; exact h.bound k hk
  · intro k hk hpk
    by_cases h1 : k = a
    · subst h1
      exact ⟨b, by rw [hva]; exact hs.2.2, by rw [hvb]; exact ht⟩
    · by_cases h2 : k = b
      · subst h2
        exact ⟨a, by rw [hvb]; exact ht.2.2, by rw [hva]; exact hs⟩
      · rw [hvk k h1 h2] at hk hpk ⊢
        obtain ⟨j, e1, e2, e3, e4⟩ := h.peer k hk hpk
        have hj : ¬ (j = a ∨ j = b) := by
          intro hj
          rcases hfree j hj with hf | hf
          · rw [hf] at e2; exact absurd e2 (by decide)
          · rw [hf] at e4; unfold peerNone at e4; omega
        rw [not_or] at hj
        exact ⟨j, e1, by rw [hvk j hj.1 hj.2]; exact ⟨e2, e3, e4⟩⟩
  · intro k hst
    by_cases h1 : k = a
    · subst h1; rw [hva, hs.2.1] at hst; exact absurd hst (by decide)
    · by_cases h2 : k = b
      · subst h2; rw [hvb, ht.2.1] at hst; exact absurd hst (by decide)
      · rw [hvk k h1 h2] at hst ⊢; exact h.alone k hst

/-- A slot other than the closed one, once the slot is given up. -/
theorem shutSlot_ne {i k : Nat} (hk : k ≠ i) :
    (shutSlot n i).socks k = n.socks k
      ∨ (n.socks i).peerIdx = k ∧ (n.socks k).used = true ∧ (n.socks k).peerIdx = i
        ∧ (shutSlot n i).socks k = { n.socks k with peerIdx := peerNone } := by
  unfold shutSlot
  rw [Net.setSock_ne _ hk]
  exact unlinkPeer_socks n i k

@[simp] theorem shutSlot_self {i : Nat} : (shutSlot n i).socks i = .zero := Net.setSock_self _

theorem PeerInv.shut (h : PeerInv n) {i : Nat} (hu : (n.socks i).used = true) :
    PeerInv (shutSlot n i) where
  bound := by
    intro k hk
    by_cases hki : k = i
    · rw [hki, shutSlot_self] at hk; exact absurd hk (by decide)
    · rcases shutSlot_ne (n := n) hki with he | ⟨_, he, _⟩
      · rw [he] at hk; exact h.bound k hk
      · exact h.bound k he
  peer := by
    intro k hk hpk
    by_cases hki : k = i
    · rw [hki, shutSlot_self] at hk; exact absurd hk (by decide)
    · rcases shutSlot_ne (n := n) hki with he | ⟨_, _, _, he⟩
      · rw [he] at hk hpk ⊢
        obtain ⟨j, e1, e2, e3, e4⟩ := h.peer k hk hpk
        -- the peer is not the slot given up, or this one would have lost it
        have hji : j ≠ i := by
          rintro rfl
          have hgone : (shutSlot n j).socks k = { n.socks k with peerIdx := peerNone } := by
            unfold shutSlot
            rw [Net.setSock_ne _ hki]
            unfold unlinkPeer
            dsimp only
            have hlt := h.bound k hk
            rw [e4, if_pos ⟨by unfold peerNone; omega, by omega, by exact_mod_cast hlt⟩,
              Int.toNat_natCast, if_pos ⟨hk, e1⟩, Net.setSock_self]
          rw [he] at hgone
          exact hpk (by rw [hgone])
        refine ⟨j, e1, ?_⟩
        rcases shutSlot_ne (n := n) hji with hf | ⟨hik, _, _, _⟩
        · rw [hf]; exact ⟨e2, e3, e4⟩
        · -- then the slot given up names `j`, and `j` names `k`, which is not it
          exfalso
          obtain ⟨m, m1, _, _, m4⟩ := h.peer i hu (by rw [hik]; unfold peerNone; omega)
          have hmj : m = j := by rw [hik] at m1; exact_mod_cast m1.symm
          subst hmj
          rw [e4] at m4
          exact hki (by exact_mod_cast m4)
      · rw [he] at hpk; exact absurd rfl hpk
  alone := by
    intro k hst
    by_cases hki : k = i
    · rw [hki, shutSlot_self] at hst; exact absurd hst (by decide)
    · rcases shutSlot_ne (n := n) hki with he | ⟨_, _, _, he⟩
      · rw [he] at hst ⊢; exact h.alone k hst
      · rw [he]

theorem PeerInv.vfs (h : PeerInv n) (v : Vfs σ) : PeerInv { n with vfs := v } :=
  h.same fun _ => ⟨rfl, rfl, rfl⟩

/-- A socket gets a name, flags or a queue to listen with: the links stay. -/
theorem PeerInv.touched (h : PeerInv n) {i : Nat} {s : USock} (ht : Touched (n.socks i) s) :
    PeerInv (n.setSock i s) := by
  rcases ht.state with hst | hst
  · exact h.same (sameLinks_setSock ht.used hst ht.peer)
  · -- the state moves only while there is no peer
    have hpn : (n.socks i).peerIdx = peerNone := by
      rcases hst with ⟨hst, _⟩ | ⟨hst, _⟩
      · exact h.alone i (Or.inl hst)
      · exact h.alone i (Or.inr (Or.inl hst))
    have hnc : (n.socks i).state ≠ .connected := by
      rcases hst with ⟨hst, _⟩ | ⟨hst, _⟩
      · rw [hst]; decide
      · rw [hst]; decide
    refine ⟨?_, ?_, ?_⟩
    · intro k hk
      by_cases hki : k = i
      · subst hki; rw [Net.setSock_self, ht.used] at hk; exact h.bound k hk
      · rw [Net.setSock_ne _ hki] at hk; exact h.bound k hk
    · intro k hk hpk
      by_cases hki : k = i
      · subst hki; rw [Net.setSock_self, ht.peer] at hpk; exact absurd hpn hpk
      · rw [Net.setSock_ne _ hki] at hk hpk ⊢
        obtain ⟨j, e1, e2, e3, e4⟩ := h.peer k hk hpk
        have hji : j ≠ i := by rintro rfl; exact hnc e3
        exact ⟨j, e1, by rw [Net.setSock_ne _ hji]; exact ⟨e2, e3, e4⟩⟩
    · intro k hst'
      by_cases hki : k = i
      · subst hki; rw [Net.setSock_self, ht.peer]; exact hpn
      · rw [Net.setSock_ne _ hki] at hst' ⊢; exact h.alone k hst'

/-- **One edit keeps it.** -/
theorem PeerInv.edit (h : PeerInv n) {es : List Ev} (he : Edit fs n es n') : PeerInv n' := by
  cases he with
  | scratch hu hs =>
      exact h.replace hu (fun hc => absurd hc (by rw [hs.used]; decide))
        (fun hc => absurd hc (by rw [hs.used]; decide))
        (fun hst => hs.peer (by rintro hc; rw [hc] at hst; exact absurd hst (by decide))
          (by rintro hc; rw [hc] at hst; exact absurd hst (by decide)))
  | touched ht => exact h.touched ht
  | opened hi hu => exact h.replace hu (fun _ => hi) (fun _ hc => absurd rfl hc) (fun _ => rfl)
  | paired ha hb hne hua hub =>
      exact h.join hne ha hb (Or.inl hua) (Or.inl hub) ⟨rfl, rfl, rfl⟩ ⟨rfl, rfl, rfl⟩
  | looped hi hu flags =>
      exact h.replace hu (fun _ => hi) (fun _ _ => ⟨rfl, rfl⟩)
        (fun hc => absurd hc (by simp [USock.joined]))
  | @linked c s l hc huc hsc hs hus hl hul hsl hw =>
      have hsc' : s ≠ c := (Net.used_ne huc hus).symm
      have hls : l ≠ s := Net.used_ne hul hus
      have hlc : l ≠ c := Net.listening_ne hsl hsc
      have hj : PeerInv ((n.setSock s (USock.fresh.joined c)).setSock c ((n.socks c).joined s)) :=
        h.join hsc' hs hc (Or.inl hus) (Or.inr (h.created c hsc)) ⟨rfl, rfl, rfl⟩ ⟨huc, rfl, rfl⟩
      have hlv : ((n.setSock s (USock.fresh.joined c)).setSock c ((n.socks c).joined s)).socks l
          = n.socks l := by rw [Net.setSock_ne _ hlc, Net.setSock_ne _ hls]
      exact hj.same (sameLinks_setSock (by rw [hlv]; rfl) (by rw [hlv]; rfl) (by rw [hlv]; rfl))
  | accepted _ _ _ _ => exact h.same (sameLinks_setSock rfl rfl rfl)
  | stale _ _ => exact h.same (sameLinks_setSock rfl rfl rfl)
  | pushed _ _ => exact h.same (sameLinks_setSock rfl rfl rfl)
  | popped _ => exact h.same (sameLinks_setSock rfl rfl rfl)
  | sent _ _ _ => exact (h.vfs _).same (sameLinks_setSock rfl rfl rfl)
  | received _ => exact h.same (sameLinks_setSock rfl rfl rfl)
  | closed _ hu => exact (h.shut hu).vfs _
  | openFile _ => exact h.vfs _
  | closeFile _ => exact h.vfs _
  | dupFile _ => exact h.vfs _
  | unlinkFile _ => exact h.vfs _

theorem PeerInv.edits {log : List Ev} (h : PeerInv n) (he : Edits fs n log n') : PeerInv n' := by
  induction he with
  | nil => exact h
  | snoc _ hstep ih => exact ih.edit hstep

theorem peerInv_init (v : Vfs σ) : PeerInv (unixSocketInit v) where
  bound := by intro i hu; exact absurd hu (by simp [unixSocketInit, USock.zero])
  peer := by intro i hu; exact absurd hu (by simp [unixSocketInit, USock.zero])
  alone := by intro i hst; exact absurd hst (by simp [unixSocketInit, USock.zero])

end Peers

/-! ## The rule for runs -/

section Rule

variable {fs : FrameService σ} {cond : Sys σ → Act → Prop}

theorem Recorded.peerInv {s s' : Sys σ} {log : List Ev} (hl : Recorded fs s s' log)
    (h : PeerInv s.net) : PeerInv s'.net := by
  cases hl with
  | edits he => exact h.edits he
  | files _ hv => rw [hv]; exact h.vfs _

theorem reach_peerInv {s : Sys σ} (h : Reach Sys.Boots (Sys.StepsIf fs cond) s) :
    PeerInv s.net := by
  refine h.invariant (P := fun s => PeerInv s.net) ?_ ?_
  · rintro s ⟨v, rfl⟩
    exact peerInv_init v
  · rintro s s' hp ⟨input, fuel, act, ans, _, hs⟩
    obtain ⟨log, _, hl⟩ := step_logged hp.created hs
    exact hl.peerInv hp

/-- **The invariant rule for systems.** What is kept in mind about the log is a fold over it; an
edit may assume `ok` of its own entries, which the condition on steps has to give. -/
theorem sys_invariant {G : Type} {after : G → Ev → G} (ok : G → Ev → Prop) {g₀ : G}
    {P : Net σ → G → Prop} (h0 : ∀ v, P (unixSocketInit v) g₀)
    (hv : ∀ n v g, P n g → P { n with vfs := v } g)
    (he : ∀ n es n' g, PeerInv n → P n g → Allowed after ok g es → Edit fs n es n' →
      P n' (es.foldl after g))
    (hok : ∀ input fuel s act s' ans log, cond s act → s.step fs input fuel act = .done (s', ans) →
      s'.hist = s.hist ++ log → P s.net (s.hist.foldl after g₀) →
      Allowed after ok (s.hist.foldl after g₀) log)
    {s : Sys σ} (h : Reach Sys.Boots (Sys.StepsIf fs cond) s) :
        P s.net (s.hist.foldl after g₀) := by
  refine (h.invariant (P := fun s => PeerInv s.net ∧ P s.net (s.hist.foldl after g₀)) ?_ ?_).2
  · rintro s ⟨v, rfl⟩
    exact ⟨peerInv_init v, h0 v⟩
  · rintro s s' ⟨hp, hi⟩ ⟨input, fuel, act, ans, hc, hs⟩
    obtain ⟨log, hlog, hl⟩ := step_logged hp.created hs
    refine ⟨hl.peerInv hp, ?_⟩
    have hall := hok input fuel s act s' ans log hc hs hlog hi
    rw [hlog, List.foldl_append]
    cases hl with
    | edits ht =>
        exact (Trace.fold (P := fun n g => PeerInv n ∧ P n g)
          (fun n es n' g hpi ha hstep => ⟨hpi.1.edit hstep, he n es n' g hpi.1 hpi.2 ha hstep⟩)
          ht hall ⟨hp, hi⟩).2
    | files hnil hv' =>
        rw [hnil, hv']
        exact hv _ _ _ hi

/-- Where nothing is assumed of the entries. -/
theorem allowed_true {G : Type} {after : G → Ev → G} : ∀ {g : G} {log : List Ev},
    Allowed after (fun _ _ => True) g log
  | _, [] => trivial
  | _, _ :: _ => ⟨trivial, allowed_true⟩

/-- Where nothing is kept in mind. -/
theorem net_invariant {P : Net σ → Prop} (h0 : ∀ v, P (unixSocketInit v))
    (hv : ∀ n v, P n → P { n with vfs := v })
    (he : ∀ n es n', PeerInv n → P n → Edit fs n es n' → P n') {s : Sys σ}
    (h : Reach Sys.Boots (Sys.StepsIf fs cond) s) : P s.net :=
  @sys_invariant σ fs cond Unit (fun g _ => g) (fun _ _ => True) () (fun n _ => P n) h0
    (fun n v _ hp => hv n v hp) (fun n es n' _ hpeer hp _ hedit => he n es n' hpeer hp hedit)
    (fun _ _ _ _ _ _ _ _ _ _ _ => allowed_true) s h

/-- A weaker condition on steps. -/
theorem reach_weaken {cond' : Sys σ → Act → Prop} (hc : ∀ s act, cond s act → cond' s act)
    {s : Sys σ}
    (h : Reach Sys.Boots (Sys.StepsIf fs cond) s) : Reach Sys.Boots (Sys.StepsIf fs cond') s :=
  h.mono fun _ _ ⟨input, fuel, act, ans, hcond, hs⟩ => ⟨input, fuel, act, ans, hc _ _ hcond, hs⟩

end Rule

/-! ## Who hands out and who gives up -/

/-- Does this entry say that a slot was given up? -/
def Ev.closes : Ev → Bool
  | .closed _ _ => true
  | _ => false

/-- Nothing is given up, and nothing handed out but the slots `is`. -/
def Keeps (is : List Nat) (log : List Ev) : Prop :=
  ∀ e ∈ log, e.closes = false ∧ ∀ i, e.opens i = true → i ∈ is

/-- The slots a call hands out, if it hands any out: the first ones that are free. -/
def SockOp.takes (n : Net σ) : SockOp → List Nat
  | .socket _ _ => (freeSlot n).toList
  | .eventfd _ _ => (freeSlot n).toList
  | .connect _ _ _ => (freeSlot n).toList
  | .socketpair _ _ _ =>
      match freeSlot n with
      | none => []
      | some a => a :: (freeSlot (n.setSock a .fresh)).toList
  | _ => []

/-- Does this entry say nothing of who has which slot and who waits in which queue? -/
def Ev.plain : Ev → Bool
  | .opened _ => false
  | .paired _ _ => false
  | .looped _ => false
  | .linked _ _ _ => false
  | .accepted _ _ => false
  | .stale _ _ => false
  | .closed _ _ => false
  | _ => true

def PlainLog (log : List Ev) : Prop := ∀ e ∈ log, e.plain = true

section Closes

variable {fs : FrameService σ} {n n' : Net σ} {log : List Ev} {r : Int} {rep : Reply}

theorem keeps_nil (is : List Nat) : Keeps is [] := by simp [Keeps]

theorem Keeps.mono {is : List Nat} (h : Keeps [] log) : Keeps is log := fun e he =>
  ⟨(h e he).1, fun i hi => absurd ((h e he).2 i hi) (by simp)⟩

theorem plain_nil : PlainLog [] := by simp [PlainLog]

theorem PlainLog.append {log' : List Ev} (h : PlainLog log) (h' : PlainLog log') :
    PlainLog (log ++ log') := by
  intro e he
  rcases List.mem_append.mp he with he | he
  · exact h e he
  · exact h' e he

theorem PlainLog.keeps {is : List Nat} (h : PlainLog log) : Keeps is log := by
  intro e he
  have hp := h e he
  cases e with
  | opened _ => exact absurd hp (by simp [Ev.plain])
  | paired _ _ => exact absurd hp (by simp [Ev.plain])
  | looped _ => exact absurd hp (by simp [Ev.plain])
  | linked _ _ _ => exact absurd hp (by simp [Ev.plain])
  | closed _ _ => exact absurd hp (by simp [Ev.plain])
  | _ => exact ⟨rfl, fun i hi => absurd hi (by simp [Ev.opens])⟩

theorem sendFd_plain (n : Net σ) (i j : Nat) (f : Int) : PlainLog (sendFd n i j f).2.1 := by
  unfold sendFd
  dsimp only
  generalize (if unixIsSockfd n f = true then (n.vfs, f) else vfsDup n.vfs f) = p
  split
  · exact plain_nil
  · split
    · split
      · exact plain_nil
      · simp [PlainLog, Ev.plain]
    · simp [PlainLog, Ev.plain]

theorem sendFds_plain (i j : Nat) (fds : Nat → Int) : ∀ (k f : Nat) (n : Net σ),
    PlainLog (sendFds i j fds k f n).2.1
  | 0, _, _ => plain_nil
  | k + 1, f, n => by
      rw [sendFds]
      dsimp only
      split
      · exact sendFd_plain n i j (fds f)
      · exact (sendFd_plain n i j (fds f)).append (sendFds_plain i j fds k (f + 1) _)

theorem sendControl_plain {i j : Nat} {control : Nat → UInt8} {controllen : Nat} :
    ∀ (fuel offset : Nat) {n n' : Net σ} {log : List Ev} {r : Int},
      sendControl i j control controllen fuel offset n = .done (n', log, r) → PlainLog log
  | 0, offset, n, n', log, r, h => absurd h (by simp [sendControl])
  | fuel + 1, offset, n, n', log, r, h => by
      rw [sendControl] at h
      split at h
      · dsimp only at h
        split at h
        · cases h; exact plain_nil
        · generalize hg : (if readInt control (offset + 8) = solSocket
            ∧ readInt control (offset + 12) = scmRights then _ else _ : Net σ × List Ev × Int)
              = g at h
          have hm : PlainLog g.2.1 := by
            subst hg
            split
            · exact sendFds_plain i j _ _ _ n
            · exact plain_nil
          split at h
          · cases h; exact hm
          · obtain ⟨⟨m', log₂, r₂⟩, h₂, h⟩ := Outcome.bind_eq_done h
            cases h
            exact hm.append (sendControl_plain fuel _ h₂)
      · cases h; exact plain_nil

theorem unixSockSendmsg_plain {fuel : Nat} {fd : Int} {msg : Option MsgHdr}
    (h : unixSockSendmsg fuel n fd msg = .done (n', log, r)) : PlainLog log := by
  have hpush : ∀ i j bytes, PlainLog [.pushed i j bytes] := by simp [PlainLog, Ev.plain]
  unfold unixSockSendmsg at h
  split at h
  · cases h; exact plain_nil
  · split at h
    · cases h; exact plain_nil
    · dsimp only at h
      split at h
      · cases h; exact hpush _ _ _
      · split at h
        · cases h; exact hpush _ _ _
        · split at h
          · cases h; exact hpush _ _ _
          · obtain ⟨⟨m, log₁, r₁⟩, hc, h⟩ := Outcome.bind_eq_done h
            cases h
            exact (hpush _ _ _).append (sendControl_plain _ _ hc)

theorem allocSlot_freeSlot {i : Nat} (h : allocSlot n = some (n', i)) :
    freeSlot n = some i ∧ n' = n.setSock i .fresh := by
  unfold allocSlot at h
  split at h
  · exact absurd h (by simp)
  · next k hk => cases h; exact ⟨hk, rfl⟩

theorem unixSocket_keeps {domain type : Int} (h : unixSocket n domain type = (n', log, r)) :
    Keeps (SockOp.takes n (.socket domain type)) log := by
  unfold unixSocket at h
  split at h
  · cases h; exact keeps_nil _
  · split at h
    · cases h; exact keeps_nil _
    · split at h
      · cases h; exact keeps_nil _
      · next m i ha =>
        cases h
        simp [Keeps, Ev.closes, Ev.opens, SockOp.takes, (allocSlot_freeSlot ha).1]

theorem unixSocketpair_keeps {domain type : Int} {svNull : Bool} {sv : Option (Int × Int)}
    (h : unixSocketpair n domain type svNull = (n', log, r, sv)) :
    Keeps (SockOp.takes n (.socketpair domain type svNull)) log := by
  unfold unixSocketpair at h
  split at h
  · cases h; exact keeps_nil _
  · split at h
    · cases h; exact keeps_nil _
    · split at h
      · cases h; exact keeps_nil _
      · next m a ha =>
        obtain ⟨hfa, rfl⟩ := allocSlot_freeSlot ha
        split at h
        · cases h; exact keeps_nil _
        · next m b hb =>
          cases h
          intro e he
          rw [List.mem_singleton] at he
          subst he
          refine ⟨rfl, ?_⟩
          intro i hi
          simp only [Ev.opens, Bool.or_eq_true, decide_eq_true_eq] at hi
          simp only [SockOp.takes, hfa, (allocSlot_freeSlot hb).1, Option.toList, List.mem_cons]
          rcases hi with rfl | rfl
          · exact Or.inl rfl
          · exact Or.inr (Or.inl rfl)

theorem unixEventfd_keeps {initval flags : Nat} (h : unixEventfd n initval flags = (n', log, r)) :
    Keeps (SockOp.takes n (.eventfd initval flags)) log := by
  unfold unixEventfd at h
  split at h
  · cases h; exact keeps_nil _
  · next m i ha =>
    dsimp only at h
    split at h
    · cases h
      simp [Keeps, Ev.closes, Ev.opens, SockOp.takes, (allocSlot_freeSlot ha).1]
    · cases h
      simp [Keeps, Ev.closes, Ev.opens, SockOp.takes, (allocSlot_freeSlot ha).1]

theorem unixConnect_keeps {fd : Int} {addr : Option (Nat → UInt8)} {addrlen : Nat}
    (h : unixConnect n fd addr addrlen = (n', log, r)) :
    Keeps (SockOp.takes n (.connect fd addr addrlen)) log := by
  rcases unixConnect_cases h with ⟨_, rfl, _⟩ | ⟨c, s, _, _, _, rfl, _⟩
    | ⟨c, s, l, path, _, _, hs, _, _, _, rfl, _⟩
  · exact keeps_nil _
  · exact keeps_nil _
  · simp [Keeps, Ev.closes, Ev.opens, SockOp.takes, hs]

theorem unixSockWrite_plain {fd : Int} {buf : Nat → UInt8} {len : Nat}
    (h : unixSockWrite n fd buf len = (n', log, r)) : PlainLog log := by
  unfold unixSockWrite at h
  split at h
  · cases h; exact plain_nil
  · cases h; simp [PlainLog, Ev.plain]

theorem unixBind_plain {fd : Int} {addr : Option (Nat → UInt8)} {addrlen : Nat}
    (h : unixBind n fd addr addrlen = .done (n', log, r)) : PlainLog log := by
  unfold unixBind at h
  split at h
  · cases h; exact plain_nil
  · split at h
    · cases h; exact plain_nil
    · split at h
      · cases h; exact plain_nil
      · dsimp only at h
        split at h
        · cases h; exact plain_nil
        · split at h
          · cases h; exact plain_nil
          · split at h
            · cases h; exact plain_nil
            · obtain ⟨⟨v, tfd⟩, _, h⟩ := Outcome.bind_eq_done h
              dsimp only at h
              split at h
              · cases h; simp [PlainLog, Ev.plain]
              · cases h; simp [PlainLog, Ev.plain]

theorem readFrom_plain {i len : Nat} (h : readFrom n i len = (n', log, rep)) : PlainLog log := by
  unfold readFrom at h
  split at h
  · cases h; exact plain_nil
  · cases h; simp [PlainLog, Ev.plain]

theorem recvFrom_plain {i : Nat} {msg : MsgHdr} (h : recvFrom n i msg = (n', log, rep)) :
    PlainLog log := by
  unfold recvFrom at h
  split at h
  · cases h; exact plain_nil
  · cases h; simp [PlainLog, Ev.plain]
  · split at h
    · cases h; simp [PlainLog, Ev.plain]
    · cases h; simp [PlainLog, Ev.plain]

theorem resume_keeps {w : Wait} (h : n.resume w = (n', log, rep)) : Keeps [] log := by
  cases w with
  | read i len => exact (readFrom_plain h).keeps
  | recvmsg i msg => exact (recvFrom_plain h).keeps
  | accept i =>
      rcases acceptFrom_cases h with ⟨_, rfl, _⟩ | ⟨_, _, ⟨s, _, _, _, rfl, _⟩ | ⟨_, rfl, _⟩⟩
      · exact keeps_nil _
      · simp [Keeps, Ev.closes, Ev.opens]
      · simp [Keeps, Ev.closes, Ev.opens]

/-- **Only `unix_sock_close` gives a slot up**, and it gives up the one it is called with; what
other calls hand out was free. -/
theorem call_closes {input : DevInput} {fuel : Nat} {op : SockOp}
    (h : n.call fs input fuel op = .done (n', log, rep)) :
    Keeps (op.takes n) log ∨ ∃ fd i pre, op = .close fd ∧ sockOf n fd = some i
      ∧ (pre = [] ∨ pre = [.unlinkFile (n.socks i).path])
      ∧ log = pre ++ [.closed i (n.socks i).fdsRx.toList] := by
  cases op with
  | socket domain type => cases h; exact Or.inl (unixSocket_keeps rfl)
  | socketpair domain type svNull => cases h; exact Or.inl (unixSocketpair_keeps rfl)
  | eventfd initval flags => cases h; exact Or.inl (unixEventfd_keeps rfl)
  | bind fd addr addrlen =>
      obtain ⟨⟨m, l, r⟩, hb, h⟩ := Outcome.bind_eq_done h
      cases h
      exact Or.inl (unixBind_plain hb).keeps
  | listen fd => cases h; exact Or.inl (keeps_nil _)
  | connect fd addr addrlen => cases h; exact Or.inl (unixConnect_keeps rfl)
  -- a call that blocks goes on as it does when it is woken
  | accept fd =>
      left
      have h := Outcome.done.inj h
      unfold unixAccept at h
      split at h
      · cases h; exact keeps_nil _
      · next i _ =>
        split at h
        · cases h; exact keeps_nil _
        · exact (resume_keeps (w := .accept i) h).mono
  | read fd len =>
      left
      have h := Outcome.done.inj h
      unfold unixSockRead at h
      split at h
      · cases h; exact keeps_nil _
      · next i _ =>
        split at h
        · cases h; exact keeps_nil _
        · exact (resume_keeps (w := .read i len) h).mono
  | write fd buf len => cases h; exact Or.inl (unixSockWrite_plain rfl).keeps
  | sendmsg fd msg =>
      obtain ⟨⟨m, l, r⟩, hs, h⟩ := Outcome.bind_eq_done h
      cases h
      exact Or.inl (unixSockSendmsg_plain hs).keeps
  | recvmsg fd msg =>
      left
      have h := Outcome.done.inj h
      unfold unixSockRecvmsg at h
      split at h
      · cases h; exact keeps_nil _
      · next i _ =>
        split at h
        · cases h; exact keeps_nil _
        · split at h
          · cases h; exact keeps_nil _
          · next m _ => exact (resume_keeps (w := .recvmsg i m) h).mono
  | close fd =>
      obtain ⟨⟨m, l, r⟩, hc, h⟩ := Outcome.bind_eq_done h
      cases h
      -- the file of a bound socket goes first
      rcases unixSockClose_cases hc with ⟨_, rfl, _⟩ | ⟨i, v, pre, hi, _, hpre, rfl, _⟩
      · exact Or.inl (keeps_nil _)
      · exact Or.inr ⟨fd, i, pre, rfl, hi, hpre, rfl⟩
  | fcntl fd cmd arg => cases h; exact Or.inl (keeps_nil _)
  | poll fd events => cases h; exact Or.inl (keeps_nil _)
  | file f =>
      obtain ⟨v, _, h⟩ := Outcome.bind_eq_done h
      cases h
      exact Or.inl (keeps_nil _)

/-- The slots a step hands out, if it hands any out. -/
def Sys.takes (s : Sys σ) : Act → List Nat
  | .call op => op.takes s.net
  | .wake _ => []

theorem step_closes {input : DevInput} {fuel : Nat} {s s' : Sys σ} {act : Act} {ans : Option Ans}
    (h : s.step fs input fuel act = .done (s', ans)) (hlog : s'.hist = s.hist ++ log) :
    Keeps (s.takes act) log ∨ ∃ fd i pre, act = .call (.close fd) ∧ sockOf s.net fd = some i
      ∧ (pre = [] ∨ pre = [.unlinkFile (s.net.socks i).path])
      ∧ log = pre ++ [.closed i (s.net.socks i).fdsRx.toList] := by
  cases act with
  | call op =>
      obtain ⟨⟨n, l, rep⟩, hc, h⟩ := Outcome.bind_eq_done h
      have hl : l = log := by
        cases rep with
        | ret a => cases h; exact List.append_cancel_left hlog
        | sleep w => cases h; exact List.append_cancel_left hlog
      subst hl
      rcases call_closes hc with hk | ⟨fd, i, pre, rfl, hi, hpre, hl⟩
      · exact Or.inl hk
      · exact Or.inr ⟨fd, i, pre, rfl, hi, hpre, hl⟩
  | wake k =>
      left
      rw [Sys.step] at h
      split at h
      · cases h
        rw [List.append_cancel_left ((List.append_nil _).trans hlog).symm]
        exact keeps_nil _
      · next t _ =>
        split at h
        · next n l a hr =>
          cases h
          rw [← List.append_cancel_left hlog]
          exact resume_keeps hr
        · next n l w hr =>
          cases h
          rw [← List.append_cancel_left hlog]
          exact resume_keeps hr

end Closes

/-! ## What a write stores into -/

section Store

variable {fs : FrameService σ} {n n' : Net σ} {log : List Ev} {r : Int}

/-- The peer of a sending socket is a socket that names it. -/
theorem PeerInv.sends (h : PeerInv n) {i j : Nat} (hs : Sends n i j) :
    (n.socks i).peerIdx = j ∧ j < unixSockMax ∧ (n.socks j).used = true
      ∧ (n.socks j).state = .connected ∧ (n.socks j).peerIdx = i := by
  obtain ⟨k, h1, h2, h3, h4⟩ := h.peer i hs.used hs.peer
  have hkj : k = j := by have := hs.target; rw [h1] at this; exact_mod_cast this
  subst hkj
  exact ⟨h1, h.bound k h2, h2, h3, h4⟩

/-- The slots other than the sender's peer are as they were, and the bytes it holds. -/
structure StoresOnly (n n' : Net σ) (j : Nat) : Prop where
  rest : ∀ k, k ≠ j → n'.socks k = n.socks k
  rx : (n'.socks j).rx = (n.socks j).rx

theorem StoresOnly.trans {n'' : Net σ} {j : Nat} (h : StoresOnly n n' j)
    (h' : StoresOnly n' n'' j) : StoresOnly n n'' j :=
  ⟨fun k hk => (h'.rest k hk).trans (h.rest k hk), h'.rx.trans h.rx⟩

theorem storesOnly_refl (n : Net σ) (j : Nat) : StoresOnly n n j := ⟨fun _ _ => rfl, rfl⟩

theorem sendFd_storesOnly (n : Net σ) (i j : Nat) (f : Int) :
    StoresOnly n (sendFd n i j f).1 j := by
  unfold sendFd
  dsimp only
  generalize (if unixIsSockfd n f = true then (n.vfs, f) else vfsDup n.vfs f) = p
  split
  · exact storesOnly_refl n j
  · split
    · split
      · exact ⟨fun _ _ => rfl, rfl⟩
      · exact ⟨fun _ _ => rfl, rfl⟩
    · refine ⟨fun k hk => Net.setSock_ne _ hk, ?_⟩
      rw [Net.setSock_self]

theorem sendFds_storesOnly (i j : Nat) (fds : Nat → Int) : ∀ (k f : Nat) (n : Net σ),
    StoresOnly n (sendFds i j fds k f n).1 j
  | 0, _, n => storesOnly_refl n j
  | k + 1, f, n => by
      rw [sendFds]
      dsimp only
      split
      · exact sendFd_storesOnly n i j (fds f)
      · exact (sendFd_storesOnly n i j (fds f)).trans (sendFds_storesOnly i j fds k (f + 1) _)

theorem sendControl_storesOnly {i j : Nat} {control : Nat → UInt8} {controllen : Nat} :
    ∀ (fuel offset : Nat) {n n' : Net σ} {log : List Ev} {r : Int},
      sendControl i j control controllen fuel offset n = .done (n', log, r) → StoresOnly n n' j
  | 0, offset, n, n', log, r, h => absurd h (by simp [sendControl])
  | fuel + 1, offset, n, n', log, r, h => by
      rw [sendControl] at h
      split at h
      · dsimp only at h
        split at h
        · cases h; exact storesOnly_refl n j
        · generalize hg : (if readInt control (offset + 8) = solSocket
            ∧ readInt control (offset + 12) = scmRights then _ else _ : Net σ × List Ev × Int)
              = g at h
          have hm : StoresOnly n g.1 j := by
            subst hg
            split
            · exact sendFds_storesOnly i j _ _ _ n
            · exact storesOnly_refl n j
          split at h
          · cases h; exact hm
          · obtain ⟨⟨m', log₂, r₂⟩, h₂, h⟩ := Outcome.bind_eq_done h
            cases h
            exact hm.trans (sendControl_storesOnly fuel _ h₂)
      · cases h; exact storesOnly_refl n j

theorem unixSockWrite_storesOnly {fd : Int} {buf : Nat → UInt8} {len k : Nat}
    (hk : (unixSockWrite n fd buf len).1.socks k ≠ n.socks k) : ∃ i, sockOf n fd = some i
      ∧ Sends n i k := by
  unfold unixSockWrite at hk
  split at hk
  · exact absurd rfl hk
  · next i j hs =>
    by_cases hkj : k = j
    · exact ⟨i, (sendTo_ok hs).1, hkj ▸ (sendTo_ok hs).2⟩
    · exact absurd (Net.setSock_ne _ hkj) hk

theorem unixSockSendmsg_storesOnly {fuel : Nat} {fd : Int} {msg : Option MsgHdr} {k : Nat}
    (h : unixSockSendmsg fuel n fd msg = .done (n', log, r)) (hk : n'.socks k ≠ n.socks k) :
    ∃ i, sockOf n fd = some i ∧ Sends n i k := by
  unfold unixSockSendmsg at h
  split at h
  · cases h; exact absurd rfl hk
  · next i j hs =>
    by_cases hkj : k = j
    · exact ⟨i, (sendTo_ok hs).1, hkj ▸ (sendTo_ok hs).2⟩
    · refine absurd ?_ hk
      split at h
      · cases h; rfl
      · next msg =>
        dsimp only at h
        split at h
        · cases h; exact Net.setSock_ne _ hkj
        · split at h
          · cases h; exact Net.setSock_ne _ hkj
          · split at h
            · cases h; exact Net.setSock_ne _ hkj
            · obtain ⟨⟨m, log₁, r₁⟩, hc, h⟩ := Outcome.bind_eq_done h
              cases h
              rw [(sendControl_storesOnly _ _ hc).rest k hkj, Net.setSock_ne _ hkj]

end Store

/-- **Peer symmetry.** -/
theorem Sys.reachable_peers {fs : FrameService σ} {s : Sys σ} (h : Reach Sys.Boots (Sys.Steps fs) s) :
    (∀ i, (s.net.socks i).used = true → (s.net.socks i).peerIdx ≠ peerNone →
        ∃ j : Nat, (s.net.socks i).peerIdx = j ∧ j < unixSockMax ∧ (s.net.socks j).used = true
          ∧ (s.net.socks j).state = .connected ∧ (s.net.socks j).peerIdx = i)
      ∧ (∀ i, (s.net.socks i).state = .created ∨ (s.net.socks i).state = .bound
        ∨ (s.net.socks i).state = .listening → (s.net.socks i).peerIdx = peerNone)
      ∧ (∀ fd buf len k, (unixSockWrite s.net fd buf len).1.socks k ≠ s.net.socks k →
          ∃ i, sockOf s.net fd = some i ∧ (s.net.socks i).peerIdx = k ∧ k < unixSockMax
            ∧ (s.net.socks k).used = true ∧ (s.net.socks k).state = .connected
            ∧ (s.net.socks k).peerIdx = i)
      ∧ ∀ fuel fd msg n' log r k, unixSockSendmsg fuel s.net fd msg = .done (n', log, r) →
          n'.socks k ≠ s.net.socks k →
          ∃ i, sockOf s.net fd = some i ∧ (s.net.socks i).peerIdx = k ∧ k < unixSockMax
            ∧ (s.net.socks k).used = true ∧ (s.net.socks k).state = .connected
            ∧ (s.net.socks k).peerIdx = i := by
  have hp : PeerInv s.net := reach_peerInv h
  refine ⟨?_, hp.alone, ?_, ?_⟩
  · intro i hu hpi
    obtain ⟨j, h1, h2, h3, h4⟩ := hp.peer i hu hpi
    exact ⟨j, h1, hp.bound j h2, h2, h3, h4⟩
  · intro fd buf len k hk
    obtain ⟨i, hi, hs⟩ := unixSockWrite_storesOnly hk
    exact ⟨i, hi, hp.sends hs⟩
  · intro fuel fd msg n' log r k hm hk
    obtain ⟨i, hi, hs⟩ := unixSockSendmsg_storesOnly hm hk
    exact ⟨i, hi, hp.sends hs⟩

/-- After a pair is opened each end is the other's peer. -/
theorem Sys.reachable_peers_pair : ∃ s : Sys Nat, Reach Sys.Boots (Sys.Steps zeroedService) s
    ∧ (s.net.socks 0).used = true ∧ (s.net.socks 0).peerIdx ≠ peerNone
    ∧ ∃ j : Nat, (s.net.socks 0).peerIdx = j ∧ (s.net.socks j).used = true
      ∧ (s.net.socks j).peerIdx = 0 := by
  have hrun : (do
      let (s, _) ← bootSys.run zeroedService noInput 0 [.call (.socketpair 1 1 false)]
      return decide ((s.net.socks 0).used = true ∧ (s.net.socks 0).peerIdx ≠ peerNone))
          = .done true := by
    decide +kernel
  obtain ⟨⟨s, anss⟩, hs, hd⟩ := Outcome.bind_eq_done hrun
  have hd := of_decide_eq_true (Outcome.done.inj hd)
  have hr := run_reach (fun _ _ _ => trivial) (.start bootSys_boots) hs
  obtain ⟨j, h1, _, h2, _, h3⟩ := (Sys.reachable_peers hr).1 0 hd.1 hd.2
  exact ⟨s, hr, hd.1, hd.2, j, h1, h2, h3⟩

end VnlKernel
