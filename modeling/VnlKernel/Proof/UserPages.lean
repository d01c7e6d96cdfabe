import VnlKernel.Fs.Vfs
import VnlKernel.Kernel.ElfLoad
import VnlKernel.Proof.VmmAccess
import VnlKernel.Proof.VmmFrames

/-!
# Pages of a program

The loop that maps fresh frames changes the pages it has come to and no others, and each of
them has a frame that was nobody's. As long as no page's frame is one of the tables, copying
bytes to a program's memory changes no table either, and so no page is lost on the way.
-/

namespace VnlKernel

open ByteMem Bits Radix

variable {σ : Type} {fs : FrameService σ} {o : OverPmm fs} {root : Nat} {s s₁ s' : σ}

theorem pageOf_u64 (x : Nat) : pageOf (u64 x) = pageOf x := by
  unfold pageOf u64
  rw [show pageSize = 4096 from rfl]
  omega

/-- The pages are on frames in use, and none of them is a table. -/
def PagesApart (o : OverPmm fs) (s : σ) (root : Nat) : Prop :=
  ∀ v, isPresent (pageEntry (fs.phys s) root v) = true →
    FrameTaken (o.pmm s) (alignDown (pageEntry (fs.phys s) root v) pageSize)
      ∧ ∀ q, q.length ≤ 3 → tableAt (fs.phys s) root q ≠ some (alignDown (pageEntry (fs.phys s) root v) pageSize)

/-- Each page has the entry it had, or is on a frame that is in use and no table. -/
theorem PagesApart.changed (h : PagesApart o s root) (hc : Changed o root s s')
    (he : ∀ v, pageEntry (fs.phys s') root v = pageEntry (fs.phys s) root v
      ∨ FrameTaken (o.pmm s') (alignDown (pageEntry (fs.phys s') root v) pageSize)
        ∧ ∀ q, q.length ≤ 3 →
          tableAt (fs.phys s') root q ≠ some (alignDown (pageEntry (fs.phys s') root v) pageSize)) :
    PagesApart o s' root := by
  intro v hpresent
  rcases he v with hsame | hnew
  · rw [hsame] at hpresent ⊢
    obtain ⟨htaken, hnone⟩ := h v hpresent
    refine ⟨hc.taken _ htaken, fun q hq hqa => ?_⟩
    rcases hc.table q _ hq hqa with hold | hfresh
    · exact hnone q hq hold
    · exact hfresh htaken
  · exact hnew

/-! ## A page of its own -/

/-- A frame is taken and cleared. -/
theorem alloc_changed (hm : FlatMemory fs) (hs : Space o s root) (h0 : (fs.alloc s).2 ≠ 0) :
    let s₁ := fs.setPhys (fs.alloc s).1 (memset (fs.phys (fs.alloc s).1) (fs.alloc s).2 0 pageSize)
    Changed o root s s₁ ∧ (∀ v, pageEntry (fs.phys s₁) root v = pageEntry (fs.phys s) root v)
      ∧ (∀ q, q.length ≤ 3 → tableAt (fs.phys s₁) root q = tableAt (fs.phys s) root q)
      ∧ FrameTaken (o.pmm s₁) (fs.alloc s).2 ∧ ¬ FrameTaken (o.pmm s) (fs.alloc s).2
      ∧ (o.pmm s).freeFrames = (o.pmm s₁).freeFrames + 1 ∧ o.pmm s₁ = (pmmAlloc (o.pmm s)).1 := by
  intro s₁
  obtain ⟨hinv, hmono, hfresh⟩ := frameTaken_alloc hs.inv (o.alloc s)
  obtain ⟨htaken, hnone⟩ := hfresh h0
  have hpmm : o.pmm s₁ = o.pmm (fs.alloc s).1 := o.setPhys _ _
  have hphys : fs.phys s₁ = memset (fs.phys s) (fs.alloc s).2 0 pageSize := by
    change fs.phys (fs.setPhys _ _) = _
    rw [hm.setPhys, hm.alloc]
  obtain ⟨hc, he, htables⟩ := Changed.outside hs (show PmmInv (o.pmm s₁) from hpmm ▸ hinv)
    (fun a ha => hpmm ▸ hmono a ha) fun a k ha hk => by
      have hne : (fs.alloc s).2 ≠ a := fun hc => hnone (hc ▸ ha)
      have h1 := (ha.isFrame hs.inv).1
      have h2 := (htaken.isFrame hinv).1
      rw [show pageSize = 4096 from rfl] at *
      rw [hphys, memset_out (by omega)]
  exact ⟨hc, he, htables, hpmm ▸ htaken, hnone, hpmm ▸ (alloc_count hs.inv (o.alloc s)).2 h0,
    by rw [hpmm, o.alloc s]⟩

/-- The entry is for a user page on a frame that was taken on the way from `s` to `s'`, and not for
a table. -/
def FreshEntry (o : OverPmm fs) (root : Nat) (s s' : σ) (entry : Nat) : Prop :=
  ∃ frame, FrameTaken (o.pmm s') frame ∧ ¬ FrameTaken (o.pmm s) frame ∧ entry = pteValue frame userPageFlags
    ∧ ∀ q, q.length ≤ 3 → tableAt (fs.phys s') root q ≠ some frame

theorem FreshEntry.wider {s₂ s₃ : σ} {entry : Nat} (h : FreshEntry o root s₁ s₂ entry)
    (h₁ : ∀ a, FrameTaken (o.pmm s) a → FrameTaken (o.pmm s₁) a) (h₃ : Changed o root s₂ s₃) :
    FreshEntry o root s s₃ entry := by
  obtain ⟨frame, htaken, hfresh, he, hnone⟩ := h
  refine ⟨frame, h₃.taken _ htaken, fun hc => hfresh (h₁ _ hc), he, fun q hq hqa => ?_⟩
  rcases h₃.table q frame hq hqa with hold | hnew
  · exact hnone q hq hold
  · exact hnew htaken

/-- The page can be used, and its entry leads to the frame. -/
theorem FreshEntry.value {entry : Nat} (hinv : PmmInv (o.pmm s'))
    (h : FreshEntry o root s s' entry) :
    isPresent entry = true ∧ FrameTaken (o.pmm s') (alignDown entry pageSize)
      ∧ ¬ FrameTaken (o.pmm s) (alignDown entry pageSize)
      ∧ ∀ q, q.length ≤ 3 → tableAt (fs.phys s') root q ≠ some (alignDown entry pageSize) := by
  obtain ⟨frame, htaken, hfresh, rfl, hnone⟩ := h
  obtain ⟨hal, _, hlt⟩ := htaken.isFrame hinv
  rw [show pageSize = 4096 from rfl] at hal
  obtain ⟨_, hpresent, hdown⟩ := pte_value hlt (show userPageFlags < 4096 by decide)
  have heq : alignDown (pteValue frame userPageFlags) pageSize = frame := by
    unfold pteValue
    rw [hdown]
    omega
  rw [heq]
  exact ⟨hpresent, htaken, hfresh, hnone⟩

/-- `k` pages from `va` on have got a frame each. -/
structure FreshPages (o : OverPmm fs) (root va k : Nat) (s s' : σ) : Prop where
  changed : Changed o root s s'
  cost : PageCost o root va k k s s'
  new : ∀ v j, j < k → pageOf v = pageOf (va + pageSize * j) → ¬ UnderLarge (fs.phys s) root v →
    FreshEntry o root s s' (pageEntry (fs.phys s') root v)
  old : ∀ v, (∀ j, j < k → pageOf v ≠ pageOf (va + pageSize * j)) ∨ UnderLarge (fs.phys s) root v →
    pageEntry (fs.phys s') root v = pageEntry (fs.phys s) root v
  /-- The page that comes last where several are one. -/
  frame : ∀ v j, j < k → pageOf v = pageOf (va + pageSize * j) →
    (∀ l, l < k → pageOf v = pageOf (va + pageSize * l) → l ≤ j) → ¬ UnderLarge (fs.phys s) root v →
    pageEntry (fs.phys s') root v
      = pteValue (frameAfter (o.pmm s) (framesNeeded (fs.phys s) root va j)) userPageFlags
  /-- One frame at least is gone that is no table. -/
  spent : 0 < k → ∃ a, FrameTaken (o.pmm s') a ∧ ¬ FrameTaken (o.pmm s) a
    ∧ ∀ q, q.length ≤ 3 → tableAt (fs.phys s') root q ≠ some a

theorem FreshPages.none (hs : Space o s root) (va : Nat) : FreshPages o root va 0 s s :=
  ⟨.refl hs, .none va, fun _ _ hj => absurd hj (by omega), fun _ _ => rfl,
    fun _ _ hj => absurd hj (by omega), fun hk => absurd hk (by omega)⟩

/-- No frame was left. -/
theorem FreshPages.fail (hm : FlatMemory fs) (hs : Space o s root) (h0 : (fs.alloc s).2 = 0)
    (va : Nat) :
    FreshPages o root va 0 s (fs.alloc s).1 := by
  obtain ⟨hinv, hmono, _⟩ := frameTaken_alloc hs.inv (o.alloc s)
  obtain ⟨hc, he, _⟩ := Changed.outside hs hinv hmono fun a k _ _ => by rw [hm.alloc]
  refine ⟨hc, ?_, fun _ _ hj => absurd hj (by omega), fun v _ => he v,
    fun _ _ hj => absurd hj (by omega), fun hk => absurd hk (by omega)⟩
  have hphys : fs.phys (fs.alloc s).1 = fs.phys s := hm.alloc s
  have hpmm : o.pmm (fs.alloc s).1 = o.pmm s := ((alloc_count hs.inv (o.alloc s)).1 h0).2
  exact PageCost.still hphys hpmm va

/-- One page, on a fresh frame. -/
theorem FreshPages.one (hm : FlatMemory fs) (hs : Space o s root) {va : Nat}
    (h0 : (fs.alloc s).2 ≠ 0)
    (h : vmmMapInPml4 fs (fs.setPhys (fs.alloc s).1
      (memset (fs.phys (fs.alloc s).1) (fs.alloc s).2 0 pageSize))
      root va (fs.alloc s).2 userPageFlags = .done s') : FreshPages o root va 1 s s' := by
  obtain ⟨hc, he, htables, htaken, hfresh, hcount, hpmm⟩ := alloc_changed hm hs h0
  generalize fs.setPhys (fs.alloc s).1 (memset (fs.phys (fs.alloc s).1) (fs.alloc s).2 0 pageSize)
    = s₁
    at h hc he htables htaken hcount hpmm
  have hmaps := vmmMapInPml4_maps hm hc.space (by decide) h
  have hfirst : PageCost o root va 0 1 s s₁ := by
    constructor
    · rw [missingTables_zero, Set.ncard_empty]
      exact hcount
    · rw [missingTables_zero, Set.ncard_empty]
      exact hpmm
    · intro q hq
      rw [missingTables_zero, htables q hq]
      simp
  have hcost : PageCost o root va 1 1 s s' :=
    hfirst.append hc (vmmMapInPml4_cost hm hc.space (by decide) h)
  have hchanged := hc.trans hmaps.changed
  -- the frame was nobody's, so it was no table, and it was taken before the tables that are new
  have hnone : ∀ q, q.length ≤ 3 → tableAt (fs.phys s') root q ≠ some (fs.alloc s).2 := by
    intro q hq hqa
    rcases hmaps.changed.table q _ hq hqa with hq₁ | hq₁
    · rw [htables q hq] at hq₁
      exact hfresh (hs.taken q _ hq hq₁)
    · exact hq₁ htaken
  have htaken' : FrameTaken (o.pmm s') (fs.alloc s).2 := hmaps.changed.taken _ htaken
  have hentry : FreshEntry o root s s' (pteValue (fs.alloc s).2 userPageFlags) :=
    ⟨_, htaken', hfresh, rfl, hnone⟩
  have hnew : ∀ v j, j < 1 → pageOf v = pageOf (va + pageSize * j)
    → ¬ UnderLarge (fs.phys s) root v →
      FreshEntry o root s s' (pageEntry (fs.phys s') root v) := by
    intro v j hj hv hl
    obtain rfl : j = 0 := by omega
    rw [Nat.mul_zero, Nat.add_zero] at hv
    rw [hmaps.here v hv fun hc' => hl ((hc.large v).mp hc')]
    exact hentry
  have hold : ∀ v, (∀ j, j < 1 → pageOf v ≠ pageOf (va + pageSize * j))
    ∨ UnderLarge (fs.phys s) root v →
      pageEntry (fs.phys s') root v = pageEntry (fs.phys s) root v := by
    intro v hv
    rcases hv with hne | hl
    · have hne0 := hne 0 (by omega)
      rw [Nat.mul_zero, Nat.add_zero] at hne0
      rw [hmaps.other v hne0, he]
    · rw [hmaps.large v ((hc.large v).mpr hl), he]
  have hvalue : pteValue (fs.alloc s).2 userPageFlags
      = pteValue (frameAfter (o.pmm s) (framesNeeded (fs.phys s) root va 0)) userPageFlags := by
    have hzero : framesNeeded (fs.phys s) root va 0 = 0 := by
      unfold framesNeeded
      rw [missingTables_zero, Set.ncard_empty]
    rw [hzero]
    change _ = pteValue (pmmAlloc (o.pmm s)).2 userPageFlags
    rw [o.alloc s]
  refine ⟨hchanged, hcost, hnew, hold, fun v j hj hv _ hl => ?_,
    fun _ => ⟨_, htaken', hfresh, hnone⟩⟩
  · obtain rfl : j = 0 := by omega
    rw [Nat.mul_zero, Nat.add_zero] at hv
    rw [hmaps.here v hv fun hc' => hl ((hc.large v).mp hc')]
    exact hvalue

/-- First some pages, then the pages after them. -/
theorem FreshPages.append {va j k : Nat} (h : FreshPages o root va j s s₁)
    (h' : FreshPages o root (va + pageSize * j) k s₁ s') : FreshPages o root va (j + k) s s' := by
  have hat := page_append va j
  refine ⟨h.changed.trans h'.changed, h.cost.append h.changed h'.cost, fun v i hi hv hl => ?_,
    fun v hv => ?_, fun v i hi hv hlast hl => ?_, fun hk => ?_⟩
  · have hl₁ : ¬ UnderLarge (fs.phys s₁) root v := fun hc => hl ((h.changed.large v).mp hc)
    by_cases hlater : ∃ l, l < k ∧ pageOf v = pageOf (va + pageSize * j + pageSize * l)
    · -- also among the later pages: it has the frame that came last
      obtain ⟨l, hlk, hvl⟩ := hlater
      exact (h'.new v l hlk hvl hl₁).wider h.changed.taken (.refl h'.changed.space)
    · have hij : i < j := by
        by_contra hc
        refine hlater ⟨i - j, by omega, ?_⟩
        rw [hv, ← hat, Nat.add_sub_cancel' (by omega)]
      rw [h'.old v (Or.inl fun l hlk hvl => hlater ⟨l, hlk, hvl⟩)]
      exact (h.new v i hij hv hl).wider (fun _ ha => ha) h'.changed
  · rcases hv with hne | hl
    · rw [h'.old v (Or.inl fun l hl => by rw [← hat]; exact hne (j + l) (by omega)),
        h.old v (Or.inl fun l hl => hne l (by omega))]
    · rw [h'.old v (Or.inr ((h.changed.large v).mpr hl)), h.old v (Or.inr hl)]
  · have hl₁ : ¬ UnderLarge (fs.phys s₁) root v := fun hc => hl ((h.changed.large v).mp hc)
    by_cases hij : j ≤ i
    · obtain ⟨l, rfl⟩ := Nat.exists_eq_add_of_le hij
      rw [hat] at hv
      rw [h'.frame v l (by omega) hv (fun l' hl' hv' => ?_) hl₁]
      · unfold frameAfter
        rw [h.cost.pmm, ← allocs_add]
        unfold framesNeeded
        rw [(h.cost.missing h.changed l).2,
          show j + l + ((MissingTables (fs.phys s) root va j).ncard
          + (MissingTables (fs.phys s₁) root (va + pageSize * j) l).ncard)
          = j + (MissingTables (fs.phys s) root va j).ncard
            + (l + (MissingTables (fs.phys s₁) root (va + pageSize * j) l).ncard) by omega]
      · rw [← hat] at hv'
        have := hlast (j + l') (by omega) hv'
        omega
    · rw [h'.old v (Or.inl fun l hlk hvl => ?_)]
      · exact h.frame v i (by omega) hv (fun l hl' hv' => hlast l (by omega) hv') hl
      · rw [← hat] at hvl
        have := hlast (j + l) (by omega) hvl
        omega
  · by_cases hj : 0 < j
    · obtain ⟨a, htaken, hfresh, hnone⟩ := h.spent hj
      refine ⟨a, h'.changed.taken a htaken, hfresh, fun q hq hqa => ?_⟩
      rcases h'.changed.table q a hq hqa with hold | hnew
      · exact hnone q hq hold
      · exact hnew htaken
    · obtain ⟨a, htaken, hfresh, hnone⟩ := h'.spent (by omega)
      exact ⟨a, htaken, fun hc => hfresh (h.changed.taken a hc), hnone⟩

/-- Where the pages begin does not matter beyond 64 bits. -/
theorem FreshPages.u64 {va k : Nat} (h : FreshPages o root (u64 va) k s s') :
    FreshPages o root va k s s' := by
  have hat : ∀ j, pageOf (Bits.u64 va + pageSize * j) = pageOf (va + pageSize * j) := fun j => by
    unfold pageOf Bits.u64
    rw [show pageSize = 4096 from rfl]
    omega
  have hset : ∀ k, MissingTables (fs.phys s) root (Bits.u64 va) k
      = MissingTables (fs.phys s) root va k :=
    fun k => missingTables_of_page hat
  refine ⟨h.changed, ⟨hset k ▸ h.cost.count, hset k ▸ h.cost.pmm, hset k ▸ h.cost.tables⟩,
    fun v j hj hv => h.new v j hj (hv.trans (hat j).symm),
    fun v hv => h.old v (hv.imp_left fun hne j hj hv' => hne j hj (hv'.trans (hat j))),
    fun v j hj hv hlast hl => ?_, h.spent⟩
  rw [h.frame v j hj (hv.trans (hat j).symm) (fun l hl' hv' => hlast l hl' (hv'.trans (hat l))) hl]
  unfold framesNeeded
  rw [hset j]

/-- What has fresh pages, or none, stays apart from its tables. -/
theorem FreshPages.apart {va k : Nat} (h : FreshPages o root va k s s') (hp : PagesApart o s root) :
    PagesApart o s' root := by
  refine hp.changed h.changed fun v => ?_
  by_cases hnew : (∃ j, j < k ∧ pageOf v = pageOf (va + pageSize * j))
    ∧ ¬ UnderLarge (fs.phys s) root v
  · obtain ⟨⟨j, hj, hv⟩, hl⟩ := hnew
    obtain ⟨_, htaken, _, hnone⟩ := (h.new v j hj hv hl).value h.changed.space.inv
    exact Or.inr ⟨htaken, hnone⟩
  · refine Or.inl (h.old v ?_)
    by_cases hl : UnderLarge (fs.phys s) root v
    · exact Or.inr hl
    · exact Or.inl fun j hj hv => hnew ⟨⟨j, hj, hv⟩, hl⟩

/-- **The loop that maps fresh frames**: all the pages, or those up to where memory ran out. -/
theorem mapFreshPages_fresh (hm : FlatMemory fs) : ∀ (n va : Nat) {s s' : σ} {all : Bool},
    Space o s root →
    mapFreshPages fs root n va s = .done (s', all) →
    ∃ k, k ≤ n ∧ FreshPages o root va k s s' ∧ (all = true ↔ k = n)
      ∧ (all = false → (o.pmm s').freeFrames = 0) := by
  intro n
  induction n with
  | zero =>
      intro va s s' all hs h
      cases h
      exact ⟨0, Nat.le_refl 0, .none hs va, by simp, fun hc => Bool.noConfusion hc⟩
  | succ n ih =>
      intro va s s' all hs h
      rw [mapFreshPages] at h
      dsimp only at h
      by_cases h0 : (fs.alloc s).2 = 0
      · rw [if_pos h0] at h
        cases h
        obtain ⟨hfree, hpmm⟩ := (alloc_count hs.inv (o.alloc s)).1 h0
        exact ⟨0, by omega, .fail hm hs h0 va, by simp, fun _ => by rw [hpmm]; exact hfree⟩
      · rw [if_neg h0] at h
        obtain ⟨s₁, hmap, h⟩ := Outcome.bind_eq_done h
        have hone := FreshPages.one hm hs h0 hmap
        obtain ⟨k, hk, hrest, hall, hempty⟩ := ih (Bits.u64 (va + pageSize)) hone.changed.space h
        have hrest' : FreshPages o root (va + pageSize * 1) k s₁ s' := by
          rw [Nat.mul_one]
          exact hrest.u64
        refine ⟨1 + k, by omega, hone.append hrest', ?_, hempty⟩
        rw [hall]
        omega

/-- Pages that are not too far from each other are different pages. -/
theorem page_inj {va j l : Nat} (hj : j < 2 ^ 36) (hl : l < 2 ^ 36)
    (h : pageOf (va + pageSize * j) = pageOf (va + pageSize * l)) : j = l := by
  unfold pageOf at h
  rw [show pageSize = 4096 from rfl] at h
  omega

/-- There are not more pages than there were frames. -/
theorem FreshPages.few {va k : Nat} (h : FreshPages o root va k s s') (hinv : PmmInv (o.pmm s)) :
    k ≤ maxFrames := by
  have hcount := h.cost.count
  have hle := hinv.free_le
  omega

/-- **Where the pages lead**: the allocations that went before say which frame a page gets. -/
theorem FreshPages.pageFrame_new {va k j : Nat} (h : FreshPages o root va k s s')
    (hinv : PmmInv (o.pmm s))
    (hj : j < k) {v : Nat} (hv : pageOf v = pageOf (va + pageSize * j))
    (hl : ¬ UnderLarge (fs.phys s) root v) :
    pageFrame (fs.phys s') root v = some
      (frameAfter (o.pmm s) (framesNeeded (fs.phys s) root va j)) := by
  have hfew := h.few hinv
  have hmax : maxFrames = 1048576 := rfl
  obtain ⟨hal, hlt⟩ := frameAfter_aligned hinv (framesNeeded (fs.phys s) root va j)
  have hentry := h.frame v j hj hv (fun l hlk hvl => by
    have := page_inj (by omega) (by omega) (hv.symm.trans hvl)
    omega) hl
  obtain ⟨_, hpresent, hdown⟩ := pte_value hlt (show userPageFlags < 4096 by decide)
  unfold pageFrame
  rw [hentry]
  unfold pteValue
  rw [if_pos hpresent, hdown]
  rw [show pageSize = 4096 from rfl] at hal
  rw [show ∀ f, f % 4096 = 0 → f / 4096 * 4096 = f from fun f hf => by omega]
  exact hal

theorem FreshPages.pageFrame_old {va k : Nat} (h : FreshPages o root va k s s') {v : Nat}
    (hv : (∀ j, j < k → pageOf v ≠ pageOf (va + pageSize * j)) ∨ UnderLarge (fs.phys s) root v) :
    pageFrame (fs.phys s') root v = pageFrame (fs.phys s) root v := by
  unfold pageFrame
  rw [h.old v hv]

/-! ## Pages that can be used -/

/-- The page of `v` is present, and its entry says that a program may use it and write to it. -/
def PageUsable (m : Mem) (root v : Nat) : Prop := pageEntry m root v &&& userPageFlags = userPageFlags

/-- A page on a fresh frame can be used. -/
theorem FreshEntry.usable {entry : Nat} (h : FreshEntry o root s s' entry) :
    entry &&& userPageFlags = userPageFlags := by
  obtain ⟨frame, _, _, rfl, _⟩ := h
  unfold pteValue
  rw [Nat.and_or_distrib_right, Nat.and_or_distrib_right, Nat.and_self,
    show vmmFlagPresent &&& userPageFlags = vmmFlagPresent from rfl, Nat.or_assoc,
    show userPageFlags ||| vmmFlagPresent = userPageFlags from rfl]
  exact Nat.eq_of_testBit_eq fun i => by
    rw [Nat.testBit_or, Nat.testBit_and]
    cases userPageFlags.testBit i with
    | false => simp
    | true => simp

/-- What can be used afterwards. -/
theorem FreshPages.usable {va n : Nat} (h : FreshPages o root va n s s') (v : Nat) :
    PageUsable (fs.phys s') root v ↔ PageUsable (fs.phys s) root v
      ∨ (∃ j, j < n ∧ pageOf v = pageOf (va + pageSize * j)) ∧ ¬ UnderLarge (fs.phys s) root v := by
  by_cases hnew : (∃ j, j < n ∧ pageOf v = pageOf (va + pageSize * j))
    ∧ ¬ UnderLarge (fs.phys s) root v
  · obtain ⟨⟨j, hj, hv⟩, hl⟩ := hnew
    exact ⟨fun _ => Or.inr ⟨⟨j, hj, hv⟩, hl⟩, fun _ => (h.new v j hj hv hl).usable⟩
  · have hold : pageEntry (fs.phys s') root v = pageEntry (fs.phys s) root v := by
      refine h.old v ?_
      by_cases hl : UnderLarge (fs.phys s) root v
      · exact Or.inr hl
      · exact Or.inl fun j hj hv => hnew ⟨⟨j, hj, hv⟩, hl⟩
    unfold PageUsable
    rw [hold]
    exact ⟨Or.inl, fun hor => hor.resolve_right hnew⟩

/-! ## Copying to a program's memory -/

/-- The tables are what they were, and nothing was allocated. -/
structure TablesKept (o : OverPmm fs) (root : Nat) (s s' : σ) : Prop where
  space : Space o s' root
  pmm : o.pmm s' = o.pmm s
  table : ∀ q, q.length ≤ 3 → tableAt (fs.phys s') root q = tableAt (fs.phys s) root q
  entry : ∀ q j, q.length ≤ 3 → entryOn (fs.phys s') root q j = entryOn (fs.phys s) root q j

namespace TablesKept

theorem refl (hs : Space o s root) : TablesKept o root s s :=
  ⟨hs, rfl, fun _ _ => rfl, fun _ _ _ => rfl⟩

theorem trans (h : TablesKept o root s s₁) (h' : TablesKept o root s₁ s') :
    TablesKept o root s s' :=
  ⟨h'.space, h'.pmm.trans h.pmm, fun q hq => (h'.table q hq).trans (h.table q hq),
    fun q j hq => (h'.entry q j hq).trans (h.entry q j hq)⟩

variable (h : TablesKept o root s s')
include h

theorem pageEntry_eq (v : Nat) : pageEntry (fs.phys s') root v = pageEntry (fs.phys s) root v := by
  unfold pageEntry pteOf
  rw [h.entry _ _ (by rw [route_length])]

theorem underLarge_iff (v : Nat) : UnderLarge (fs.phys s') root v
    ↔ UnderLarge (fs.phys s) root v := by
  constructor
  · intro ⟨q, i, e, hq, he, hrest⟩
    exact ⟨q, i, e, hq, (h.entry q i (by have := route_init_short hq; omega)).symm.trans he, hrest⟩
  · intro ⟨q, i, e, hq, he, hrest⟩
    exact ⟨q, i, e, hq, (h.entry q i (by have := route_init_short hq; omega)).trans he, hrest⟩

theorem apart (hp : PagesApart o s root) : PagesApart o s' root := by
  intro v hpresent
  rw [h.pageEntry_eq] at hpresent ⊢
  obtain ⟨htaken, hnone⟩ := hp v hpresent
  refine ⟨h.pmm ▸ htaken, fun q hq => ?_⟩
  rw [h.table q hq]
  exact hnone q hq

end TablesKept

theorem lookup_present {m : Mem} {v : Nat} (hpresent : isPresent (pageEntry m root v) = true)
    (hf : alignDown (pageEntry m root v) pageSize % pageSize = 0) :
    vmmLookupPhysPml4 m root v = alignDown (pageEntry m root v) pageSize + v % pageSize := by
  rw [vmmLookup_pageEntry, if_pos hpresent, and_offset]
  generalize alignDown (pageEntry m root v) pageSize = frame at hf
  rw [show pageSize = 4096 from rfl] at *
  rw [show frame = frame / 4096 * 2 ^ 12 by omega]
  exact or_low (Nat.mod_lt _ (by decide))

/-- Where an address leads: to its place on the page's frame. -/
theorem lookup_place {m : Mem} {v : Nat} (hv : vmmLookupPhysPml4 m root v ≠ 0) :
    isPresent (pageEntry m root v) = true
      ∧ vmmLookupPhysPml4 m root v = alignDown (pageEntry m root v) pageSize + v % pageSize := by
  cases hpresent : isPresent (pageEntry m root v) with
  | false =>
      rw [vmmLookup_pageEntry, hpresent] at hv
      exact absurd rfl hv
  | true => exact ⟨rfl, lookup_present hpresent (alignDown_pageSize _)⟩

/-- No page of one address space is on a frame of a table of another. -/
def PagesOff (m : Mem) (root other : Nat) : Prop :=
  ∀ v, isPresent (pageEntry m root v) = true → ∀ q, q.length ≤ 3 →
    tableAt m other q ≠ some (alignDown (pageEntry m root v) pageSize)

theorem PagesApart.off (hp : PagesApart o s root) : PagesOff (fs.phys s) root root :=
  fun v hpresent => (hp v hpresent).2

theorem TablesKept.off (h : TablesKept o root s s') (hp : PagesOff (fs.phys s) root root) :
    PagesOff (fs.phys s') root root := by
  intro v hpresent q hq
  rw [h.pageEntry_eq] at hpresent ⊢
  rw [h.table q hq]
  exact hp v hpresent q hq

/-- What was written is on pages of the address space. -/
def OnPages (m m' : Mem) (root : Nat) : Prop :=
  ∀ x, m' x ≠ m x → ∃ v, isPresent (pageEntry m root v) = true ∧ alignDown (pageEntry m root v) pageSize ≤ x
    ∧ x < alignDown (pageEntry m root v) pageSize + pageSize

/-- Where an address of a program leads if its pages are on frames in use. -/
theorem lookup_frame (hs : Space o s root) (hp : PagesApart o s root) {v : Nat}
    (hv : vmmLookupPhysPml4 (fs.phys s) root v ≠ 0) :
    ∃ frame, FrameTaken (o.pmm s) frame ∧
      (∀ q, q.length ≤ 3 → tableAt (fs.phys s) root q ≠ some frame)
      ∧ vmmLookupPhysPml4 (fs.phys s) root v = frame + v % pageSize := by
  rw [vmmLookup_pageEntry] at hv
  cases hpresent : isPresent (pageEntry (fs.phys s) root v) with
  | false => exact absurd (if_neg (by rw [hpresent]; exact Bool.false_ne_true)) hv
  | true =>
      obtain ⟨htaken, hnone⟩ := hp v hpresent
      exact ⟨_, htaken, hnone, lookup_present hpresent (htaken.isFrame hs.inv).1⟩

/-- An address is mapped if its page's entry is present. -/
theorem lookup_ne_zero (hp : PagesApart o s root) {v : Nat} :
    vmmLookupPhysPml4 (fs.phys s) root v ≠ 0 ↔ isPresent (pageEntry (fs.phys s) root v) = true := by
  rw [vmmLookup_pageEntry]
  cases hpresent : isPresent (pageEntry (fs.phys s) root v) with
  | false => simp
  | true =>
      have hne := (hp v hpresent).1.ne_zero
      have hle : alignDown (pageEntry (fs.phys s) root v) pageSize
          ≤ alignDown (pageEntry (fs.phys s) root v) pageSize ||| (v &&& (pageSize - 1)) :=
            Nat.left_le_or
      simp only [if_true, iff_true]
      omega

/-- **What is mapped** once a segment has its pages. -/
theorem FreshPages.mapped {va n : Nat} (h : FreshPages o root va n s s') (hp : PagesApart o s root)
    (v : Nat) : vmmLookupPhysPml4 (fs.phys s') root v ≠ 0
      ↔ (∃ j, j < n ∧ pageOf v = pageOf (va + pageSize * j)) ∧ ¬ UnderLarge (fs.phys s) root v
        ∨ vmmLookupPhysPml4 (fs.phys s) root v ≠ 0 := by
  have hs' := h.changed.space
  have hp' := h.apart hp
  rw [lookup_ne_zero hp', lookup_ne_zero hp]
  by_cases hnew : (∃ j, j < n ∧ pageOf v = pageOf (va + pageSize * j))
    ∧ ¬ UnderLarge (fs.phys s) root v
  · obtain ⟨⟨j, hj, hv⟩, hl⟩ := hnew
    exact ⟨fun _ => Or.inl ⟨⟨j, hj, hv⟩, hl⟩, fun _ => ((h.new v j hj hv hl).value hs'.inv).1⟩
  · have hold : pageEntry (fs.phys s') root v = pageEntry (fs.phys s) root v := by
      refine h.old v ?_
      by_cases hl : UnderLarge (fs.phys s) root v
      · exact Or.inr hl
      · exact Or.inl fun j hj hv => hnew ⟨⟨j, hj, hv⟩, hl⟩
    rw [hold]
    exact ⟨Or.inr, fun hor => hor.resolve_left hnew⟩

/-- A byte of a program is written. -/
theorem TablesKept.byte (hm : FlatMemory fs) (hs : Space o s root)
    (hp : PagesOff (fs.phys s) root root) {v : Nat}
    (hv : vmmLookupPhysPml4 (fs.phys s) root v ≠ 0) (c : UInt8) :
    TablesKept o root s (fs.setPhys s (setByte (fs.phys s)
    (vmmLookupPhysPml4 (fs.phys s) root v) c)) := by
  obtain ⟨hpresent, hat⟩ := lookup_place hv
  rw [hat]
  have hnone := hp v hpresent
  have hal := alignDown_pageSize (pageEntry (fs.phys s) root v)
  generalize alignDown (pageEntry (fs.phys s) root v) pageSize = frame at hnone hal
  have hpmm : o.pmm (fs.setPhys s (setByte (fs.phys s) (frame + v % pageSize) c)) = o.pmm s :=
    o.setPhys _ _
  obtain ⟨h1, h2, h3⟩ := hs.outside
    (show PmmInv (o.pmm (fs.setPhys s (setByte (fs.phys s) (frame + v % pageSize) c))) from
      hpmm ▸ hs.inv)
    (fun a ha => hpmm ▸ ha) fun q a k hq ha hk => by
      have hne : frame ≠ a := fun hc => hnone q hq (hc ▸ ha)
      have h1 := (hs.isFrame hq ha).1
      have h3 : v % pageSize < pageSize := Nat.mod_lt _ (by decide)
      rw [hm.setPhys, setByte_ne]
      rw [show pageSize = 4096 from rfl] at *
      omega
  exact ⟨h1, hpmm, h2, h3⟩

section Copy

variable {E : Type} {P : E → Prop}

/-- **`vnl_copy_to_user_va`** changes no table, and nothing outside the pages. -/
theorem vnlCopyToUserVa_kept (hm : FlatMemory fs) (dst : Nat) (src : Nat → Logged E UInt8)
    (hsrc : ∀ i, ∃ c, (src i).out = .done c) : ∀ (n i : Nat) {s : σ}, Space o s root →
    PagesOff (fs.phys s) root root →
    ∃ s', (vnlCopyToUserVa fs root dst src n i s).out = .done s' ∧ TablesKept o root s s'
      ∧ OnPages (fs.phys s) (fs.phys s') root := by
  intro n
  induction n with
  | zero => exact fun i s hs _ => ⟨s, rfl, .refl hs, fun x hx => absurd rfl hx⟩
  | succ n ih =>
      intro i s hs hp
      rw [vnlCopyToUserVa]
      by_cases h0 : vmmLookupPhysPml4 (fs.phys s) root (u64 (dst + i)) = 0
      · rw [if_pos h0]
        exact ⟨s, rfl, .refl hs, fun x hx => absurd rfl hx⟩
      · rw [if_neg h0]
        obtain ⟨c, hc⟩ := hsrc i
        have hbyte := TablesKept.byte hm hs hp h0 c
        obtain ⟨s', hs', hkept, hpages⟩ := ih (i + 1) hbyte.space (hbyte.off hp)
        refine ⟨s', ?_, hbyte.trans hkept, fun x hx => ?_⟩
        · rw [Logged.bind_out, hc]
          exact hs'
        · obtain ⟨hpresent, hplace⟩ := lookup_place h0
          by_cases hlater : fs.phys s' x ≠ fs.phys (fs.setPhys s (setByte (fs.phys s)
              (vmmLookupPhysPml4 (fs.phys s) root (u64 (dst + i))) c)) x
          · obtain ⟨v, hv⟩ := hpages x hlater
            rw [hbyte.pageEntry_eq] at hv
            exact ⟨v, hv⟩
          · rw [not_not.mp hlater, hm.setPhys] at hx
            have hat : x = vmmLookupPhysPml4 (fs.phys s) root (u64 (dst + i)) := by
              by_contra hne
              exact hx (setByte_ne hne)
            have hlt : u64 (dst + i) % pageSize < pageSize := Nat.mod_lt _ (by decide)
            exact ⟨_, hpresent, by omega, by omega⟩

end Copy

/-- Outside the kernel's part a new root has no large pages. -/
theorem RootMade.not_underLarge {cr3 : Nat} (h : RootMade o cr3 s s' root) {v : Nat}
    (hv : levelFin 3 v ≠ 511) :
    ¬ UnderLarge (fs.phys s') root v := by
  intro ⟨q, i, e, hq, he, hpresent, hstop⟩
  cases q with
  | nil =>
      -- the root itself has no entries for large pages
      rw [stopsAt] at hstop
      simp at hstop
  | cons j q =>
      have hj : j = levelFin 3 v := by
        obtain ⟨r, hr⟩ := hq
        rw [show route v 3 = levelFin 3 v :: route v 2 from rfl, List.cons_append,
          List.cons_append] at hr
        exact (List.cons.inj hr).1
      unfold entryOn at he
      rw [h.tableAt_rest (hj ▸ hv)] at he
      cases he

/-- A root made under the boot code's tables has no pages yet. -/
theorem bootMachine_pages {s₁ : Pmm × Mem × Nat} {root : Nat}
    (h : RootMade machineFrames_over 0x100000 bootMachine s₁ root) (v : Nat) :
    pageEntry (machineFrames.phys s₁) root v = 0 := by
  have hnone : tableAt (machineFrames.phys s₁) root (route v 3) = none := by
    change tableAt (machineFrames.phys s₁) root (levelFin 3 v :: [levelFin 2 v, levelFin 1 v])
      = none
    by_cases hi : levelFin 3 v = 511
    · rw [hi, h.tableAt_shared bootMachine_space [levelFin 2 v, levelFin 1 v] (Nat.le_refl 2)]
      cases ht : tableAt (machineFrames.phys bootMachine) 0x100000
        (511 :: [levelFin 2 v, levelFin 1 v]) with
      | none => rfl
      | some a =>
          rcases bootMachine_paths _ a ht with ⟨hc, _⟩ | ⟨hc, _⟩ | ⟨hc, _⟩
          · cases hc
          · cases hc
          · cases hc
    · exact h.tableAt_rest hi _
  unfold pageEntry pteOf entryOn
  rw [hnone]
  rfl

theorem bootMachine_apart {s₁ : Pmm × Mem × Nat} {root : Nat}
    (h : RootMade machineFrames_over 0x100000 bootMachine s₁ root) :
    Space machineFrames_over s₁ root ∧ PagesApart machineFrames_over s₁ root := by
  refine ⟨h.space bootMachine_space, fun v hpresent => ?_⟩
  rw [bootMachine_pages h] at hpresent
  exact absurd hpresent (by decide)

/-- The file system of a machine after boot, over these frames. -/
def vfsOver (s : Pmm × Mem × Nat) : Vfs (Pmm × Mem × Nat) :=
  { vfsInit 0 shmInit ⟨fun _ => 0, 0, 0, s⟩ with heap := ⟨fun _ => 0, 0, 0, s⟩ }

theorem vfsOver_pages (s : Pmm × Mem × Nat) : (vfsOver s).heap.pages = s := rfl

/-- The first root that is made after boot. -/
theorem bootMachine_root : ∃ s₁ root, uspaceCreatePml4 machineFrames bootMachine 0x100000
    = (s₁, root)
    ∧ root ≠ 0 ∧ RootMade machineFrames_over 0x100000 bootMachine s₁ root := by
  have hne : (uspaceCreatePml4 machineFrames bootMachine 0x100000).2 ≠ 0 := by decide +kernel
  obtain ⟨⟨s₁, root⟩, hcreate⟩ : ∃ x, uspaceCreatePml4 machineFrames bootMachine 0x100000 = x :=
    ⟨_, rfl⟩
  rw [hcreate] at hne
  exact ⟨s₁, root, hcreate, hne, uspaceCreatePml4_made machineFrames_flat bootMachine_space hcreate
    hne⟩

end VnlKernel
