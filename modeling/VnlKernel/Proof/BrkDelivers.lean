import VnlKernel.Kernel.MemCalls
import VnlKernel.Proof.UserPages

/-!
# What `brk` delivers

The heap grows from the page after `brk_end` on, one fresh frame a page. When it works out,
the pages are there; but a page that was there before, below a lowered `brk_end` or mapped by
someone else, loses its frame. When memory runs out after the first page, the pages that were
mapped stay. And a new end in the last page of the address space rounds up to zero, so that
nothing is mapped at all.
-/

namespace VnlKernel

open ByteMem Bits Radix

variable {σ : Type} {fs : FrameService σ} {o : OverPmm fs} {s s' : σ} {t t' : TaskMem} {nb : Nat} {r : Int}

/-- The pages that the heap is to grow by. -/
def growth (t : TaskMem) (nb : Nat) : Nat := (alignUpPage nb - alignUpPage t.brkEnd) / pageSize

/-- `v` is on one of them, and that is below no large page. -/
def OnGrowth (m : Mem) (t : TaskMem) (nb v : Nat) : Prop :=
  (∃ j, j < growth t nb ∧ pageOf v = pageOf (alignUpPage t.brkEnd + pageSize * j)) ∧ ¬ UnderLarge m t.cr3Phys v

/-- What a call of `brk` is to have done when it returns `r`. -/
structure BrkDelivers (fs : FrameService σ) (s s' : σ) (t t' : TaskMem) (nb : Nat) (r : Int) : Prop where
  granted : r = toInt64 nb → t'.brkEnd = nb
    ∧ ∀ v, t.brkStart ≤ v → v < nb → PageUsable (fs.phys s') t.cr3Phys v
  refused : r ≠ toInt64 nb → t'.brkEnd = t.brkEnd
    ∧ ∀ v, pageFrame (fs.phys s') t.cr3Phys v = pageFrame (fs.phys s) t.cr3Phys v
  kept : ∀ v f, pageFrame (fs.phys s) t.cr3Phys v = some f → pageFrame (fs.phys s') t.cr3Phys v = some f

/-- The page to grow by that comes after `j` others. -/
def growthPage (t : TaskMem) (j : Nat) : Nat := alignUpPage t.brkEnd + pageSize * j

/-- The frames that the first `k` pages to grow by take. -/
noncomputable def growthFrames (fs : FrameService σ) (s : σ) (t : TaskMem) (k : Nat) : Nat :=
  framesNeeded (fs.phys s) t.cr3Phys (alignUpPage t.brkEnd) k

/-- The page is on the very frame that the allocator would give it now. -/
def SameFrame (o : OverPmm fs) (s : σ) (t : TaskMem) (j : Nat) : Prop :=
  pageFrame (fs.phys s) t.cr3Phys (growthPage t j) = some (frameAfter (o.pmm s) (growthFrames fs s t j))

/-- If there are frames enough, then the pages to grow by are not mapped yet, and they are all that
is missing; if not, then memory runs out at the first page. -/
structure BrkFits (o : OverPmm fs) (s : σ) (t : TaskMem) (nb : Nat) : Prop where
  unmapped : growthFrames fs s t (growth t nb) ≤ (o.pmm s).freeFrames → ∀ j, j < growth t nb →
    pageFrame (fs.phys s) t.cr3Phys (growthPage t j) = none ∨ SameFrame o s t j
  covers : growthFrames fs s t (growth t nb) ≤ (o.pmm s).freeFrames → ∀ v, t.brkStart ≤ v → t.brkEnd ≤ v → v < nb →
    PageUsable (fs.phys s) t.cr3Phys v ∨ OnGrowth (fs.phys s) t nb v
  atOnce : ∀ k, k < growth t nb → (o.pmm s).freeFrames = growthFrames fs s t k →
    ∀ j, j < k → UnderLarge (fs.phys s) t.cr3Phys (growthPage t j) ∨ SameFrame o s t j

theorem toInt64_inj {m n : Nat} (hm : m < 2 ^ 64) (hn : n < 2 ^ 64) :
    toInt64 m = toInt64 n ↔ m = n := by
  unfold toInt64
  rw [Nat.mod_eq_of_lt hm, Nat.mod_eq_of_lt hn]
  constructor
  · intro h
    split at h <;> split at h <;> omega
  · intro h
    rw [h]

theorem growthFrames_lt (fs : FrameService σ) (s : σ) (t : TaskMem) :
    StrictMono (growthFrames fs s t) :=
  fun _ _ h => framesNeeded_lt h

section Brk

/-- All the pages that the heap is to grow by have been mapped. -/
theorem brk_all (hs : Space o s t.cr3Phys)
    (hheap : ∀ v, t.brkStart ≤ v → v < t.brkEnd → PageUsable (fs.phys s) t.cr3Phys v)
    (h : FreshPages o t.cr3Phys (alignUpPage t.brkEnd) (growth t nb) s s') :
    BrkDelivers fs s s' t { t with brkEnd := nb } nb (toInt64 nb)
      ↔ (∀ j, j < growth t nb → pageFrame (fs.phys s) t.cr3Phys (growthPage t j) = none
        ∨ SameFrame o s t j)
          ∧ ∀ v, t.brkStart ≤ v → t.brkEnd ≤ v → v < nb →
              PageUsable (fs.phys s) t.cr3Phys v ∨ OnGrowth (fs.phys s) t nb v := by
  have hnew : ∀ v j, j < growth t nb → pageOf v = pageOf (growthPage t j) →
      ¬ UnderLarge (fs.phys s) t.cr3Phys v →
      pageFrame (fs.phys s') t.cr3Phys v = some (frameAfter (o.pmm s) (growthFrames fs s t j)) :=
    fun v j hj hv hl => h.pageFrame_new hs.inv hj hv hl
  constructor
  · intro hd
    refine ⟨fun j hj => ?_, fun v h1 _ h2 => (h.usable v).mp ((hd.granted rfl).2 v h1 h2)⟩
    cases hframe : pageFrame (fs.phys s) t.cr3Phys (growthPage t j) with
    | none => exact Or.inl rfl
    | some f =>
        have hl : ¬ UnderLarge (fs.phys s) t.cr3Phys (growthPage t j) := by
          intro hc
          rw [hc.pageFrame_none] at hframe
          cases hframe
        have hkept := hd.kept _ f hframe
        rw [hnew _ j hj rfl hl] at hkept
        unfold SameFrame
        rw [hframe, hkept]
        exact Or.inr rfl
  · intro ⟨hfree, hcovers⟩
    refine ⟨fun _ => ⟨rfl, fun v h1 h2 => (h.usable v).mpr ?_⟩, fun hc => absurd rfl hc,
      fun v f hf => ?_⟩
    · by_cases hend : v < t.brkEnd
      · exact Or.inl (hheap v h1 hend)
      · exact hcovers v h1 (by omega) h2
    · by_cases hv : ∃ j, j < growth t nb ∧ pageOf v = pageOf (growthPage t j)
      · obtain ⟨j, hj, hpage⟩ := hv
        have hl : ¬ UnderLarge (fs.phys s) t.cr3Phys v := by
          intro hc
          rw [hc.pageFrame_none] at hf
          cases hf
        rw [hnew v j hj hpage hl]
        rw [pageFrame_of_page hpage] at hf
        rcases hfree j hj with hnone | hsame
        · rw [hnone] at hf
          cases hf
        · exact hsame.symm.trans hf
      · rw [h.pageFrame_old (Or.inl fun j hj hpage => hv ⟨j, hj, hpage⟩)]
        exact hf

/-- Memory ran out after some of the pages. -/
theorem brk_part (hs : Space o s t.cr3Phys) (hne : toInt64 t.brkEnd ≠ toInt64 nb)
    {k : Nat} (h : FreshPages o t.cr3Phys (alignUpPage t.brkEnd) k s s') :
    BrkDelivers fs s s' t t nb (toInt64 t.brkEnd)
      ↔ ∀ j, j < k → UnderLarge (fs.phys s) t.cr3Phys (growthPage t j) ∨ SameFrame o s t j := by
  have hnew : ∀ v j, j < k → pageOf v = pageOf (growthPage t j)
    → ¬ UnderLarge (fs.phys s) t.cr3Phys v →
      pageFrame (fs.phys s') t.cr3Phys v = some (frameAfter (o.pmm s) (growthFrames fs s t j)) :=
    fun v j hj hv hl => h.pageFrame_new hs.inv hj hv hl
  constructor
  · intro hd j hj
    by_cases hl : UnderLarge (fs.phys s) t.cr3Phys (growthPage t j)
    · exact Or.inl hl
    · have hsame := (hd.refused hne).2 (growthPage t j)
      rw [hnew _ j hj rfl hl] at hsame
      exact Or.inr hsame.symm
  · intro hlarge
    have hsame : ∀ v, pageFrame (fs.phys s') t.cr3Phys v = pageFrame (fs.phys s) t.cr3Phys v := by
      intro v
      by_cases hl : UnderLarge (fs.phys s) t.cr3Phys v
      · exact h.pageFrame_old (Or.inr hl)
      · by_cases hv : ∃ j, j < k ∧ pageOf v = pageOf (growthPage t j)
        · obtain ⟨j, hj, hpage⟩ := hv
          rw [hnew v j hj hpage hl, pageFrame_of_page hpage]
          exact ((hlarge j hj).resolve_left fun hc => hl (hc.of_page hpage)).symm
        · exact h.pageFrame_old (Or.inl fun j hj hpage => hv ⟨j, hj, hpage⟩)
    exact ⟨fun hc => absurd hc hne, fun _ => ⟨rfl, hsame⟩, fun v f hf => (hsame v).trans hf⟩

/-- Nothing was done, and `brk_end` is returned. -/
theorem brk_same (hr : r = toInt64 nb → t.brkEnd = nb ∧ nb ≤ t.brkStart) :
    BrkDelivers fs s s t t nb r :=
  ⟨fun h => ⟨(hr h).1, fun v h1 h2 => absurd (hr h).2 (by omega)⟩, fun _ => ⟨rfl, fun _ => rfl⟩,
    fun _ _ hf => hf⟩

/-- **When `SYS_BRK` delivers what it reports.** -/
theorem brk_delivers_iff (hm : FlatMemory fs) (hs : Space o s t.cr3Phys) (hend : t.brkEnd < 2 ^ 64) (hnb : nb < 2 ^ 64)
    (hheap : ∀ v, t.brkStart ≤ v → v < t.brkEnd → PageUsable (fs.phys s) t.cr3Phys v)
    (h : sysBrk fs s t nb = .done (s', t', r)) :
    BrkDelivers fs s s' t t' nb r
      ↔ if t.brkStart = 0 ∧ t.brkEnd = 0 then nb ≠ 2 ^ 64 - 12
        else nb = 0 ∨ nb < t.brkStart ∨ BrkFits o s t nb := by
  unfold sysBrk at h
  -- a task with no heap: the error number is what an end could be
  by_cases hnone : t.brkStart = 0 ∧ t.brkEnd = 0
  · rw [if_pos hnone] at h ⊢
    cases h
    have h12 : (-enomem : Int) = toInt64 (2 ^ 64 - 12) := by decide
    by_cases h0 : nb = 0
    · rw [if_pos h0]
      exact ⟨fun _ => by omega, fun _ => brk_same fun _ => by omega⟩
    · rw [if_neg h0, h12]
      constructor
      · intro hd hc
        have := (hd.granted (by rw [hc])).1
        omega
      · intro hne
        exact brk_same fun hc => absurd ((toInt64_inj (by omega) hnb).mp hc).symm hne
  rw [if_neg hnone] at h ⊢
  -- the current end is asked for
  by_cases h0 : nb = 0
  · rw [if_pos h0] at h
    cases h
    refine ⟨fun _ => Or.inl h0, fun _ => brk_same fun hc => ?_⟩
    have := (toInt64_inj hend hnb).mp hc
    omega
  rw [if_neg h0] at h
  -- below the heap: the end stays
  by_cases hlow : nb < t.brkStart
  · rw [if_pos hlow] at h
    cases h
    refine ⟨fun _ => Or.inr (Or.inl hlow), fun _ => brk_same fun hc => ?_⟩
    have := (toInt64_inj hend hnb).mp hc
    omega
  rw [if_neg hlow] at h
  obtain ⟨⟨s₁, all⟩, hmap, h⟩ := Outcome.bind_eq_done h
  -- the first `k` pages of the growth are mapped
  obtain ⟨k, hk, hfresh, hall, hempty⟩ := mapFreshPages_fresh hm _ _ hs hmap
  change k ≤ growth t nb at hk
  have hcount : (o.pmm s).freeFrames = (o.pmm s₁).freeFrames
      + growthFrames fs s t k := hfresh.cost.count
  have hor : ∀ P : Prop, (nb = 0 ∨ nb < t.brkStart ∨ P) ↔ P := fun P =>
    ⟨fun hc => (hc.resolve_left h0).resolve_left hlow, fun hc => Or.inr (Or.inr hc)⟩
  rw [hor]
  dsimp only at h
  cases all with
  | true =>
      rw [if_pos rfl] at h
      cases h
      obtain rfl : k = growth t nb := hall.mp rfl
      rw [brk_all hs hheap hfresh]
      refine ⟨fun hc => ⟨fun _ => hc.1, fun _ => hc.2, fun l hl hfree => ?_⟩,
        fun hc => ⟨hc.unmapped (by omega), hc.covers (by omega)⟩⟩
      have := growthFrames_lt fs s t hl
      omega
  | false =>
      rw [if_neg (by decide)] at h
      cases h
      -- the frames ran out on the way
      have hlt : k < growth t nb := by
        have hkne : k ≠ growth t nb := fun hc => Bool.noConfusion (hall.mpr hc)
        omega
      have hne : toInt64 t.brkEnd ≠ toInt64 nb := by
        intro hc
        have hgrowth : growth t nb = 0 := by
          unfold growth
          rw [(toInt64_inj hend hnb).mp hc, Nat.sub_self]
          rfl
        omega
      rw [hempty rfl, Nat.zero_add] at hcount
      rw [brk_part hs hne hfresh]
      have hmore := growthFrames_lt fs s t hlt
      refine ⟨fun hlarge => ⟨fun henough => ?_, fun henough => ?_, fun l _ hfree => ?_⟩,
        fun hc => hc.atOnce k hlt hcount⟩
      · omega
      · omega
      · obtain rfl : l = k := (growthFrames_lt fs s t).injective (hfree.symm.trans hcount)
        exact hlarge

end Brk

/-- The heap's first page, in a root just made. -/
theorem brk_delivers_iff_page : ∃ s₁ root s' t', RootMade machineFrames_over 0x100000 bootMachine s₁ root
    ∧ sysBrk machineFrames s₁ ⟨root, 0x401000, 0x401000, 0x40000000⟩ 0x401800 = .done (s', t', 0x401800)
    ∧ BrkDelivers machineFrames s₁ s' ⟨root, 0x401000, 0x401000, 0x40000000⟩ t' 0x401800 0x401800 := by
  have hrun : (sysBrk machineFrames (uspaceCreatePml4 machineFrames bootMachine 0x100000).1
      ⟨(uspaceCreatePml4 machineFrames bootMachine 0x100000).2, 0x401000, 0x401000, 0x40000000⟩
      0x401800).get?.map (fun y => y.2.2) = some 0x401800 := by decide +kernel
  obtain ⟨s₁, root, hcreate, hne, hmade⟩ := bootMachine_root
  rw [hcreate] at hrun
  dsimp only at hrun
  obtain ⟨⟨s', t', r⟩, hcall, hr⟩ := Outcome.of_get? hrun
  obtain rfl : r = 0x401800 := hr
  have hs := hmade.space bootMachine_space
  refine ⟨s₁, root, s', t', hmade, hcall, ?_⟩
  have hgrowth : growth ⟨root, 0x401000, 0x401000, 0x40000000⟩ 0x401800 = 1 := by
    unfold growth
    dsimp only
    decide
  have hnot : ¬ ((0x401000 : Nat) = 0 ∧ (0x401000 : Nat) = 0) := by decide
  have hend : (0x401000 : Nat) < 2 ^ 64 := by decide
  refine (brk_delivers_iff (t := ⟨root, 0x401000, 0x401000, 0x40000000⟩) machineFrames_flat hs hend
    (by decide)
    (fun v h1 h2 => ?_) hcall).mpr ?_
  · exact absurd h1 (by dsimp only at h2 ⊢; omega)
  rw [if_neg hnot]
  refine Or.inr (Or.inr ⟨fun _ j _ => Or.inl ?_, fun _ v _ h1 h2 => Or.inr ⟨⟨0, ?_, ?_⟩, ?_⟩,
    fun k hk _ j hj => ?_⟩)
  · unfold pageFrame
    rw [bootMachine_pages hmade]
    rfl
  · rw [hgrowth]
    omega
  · have hup : alignUpPage 0x401000 = 0x401000 := by decide
    dsimp only at h1 ⊢
    rw [hup]
    unfold pageOf
    rw [show pageSize = 4096 from rfl]
    omega
  · refine hmade.not_underLarge fun hc => ?_
    have hidx := congrArg Fin.val hc
    change v / 2 ^ 39 % 512 = 511 at hidx
    dsimp only at h1
    omega
  · rw [hgrowth] at hk
    omega

/-- **The last page.** A new end that rounds up to zero is taken for a heap that shrinks. -/
theorem brk_delivers_all : ¬ ∀ s t nb s' t' r, Space machineFrames_over s t.cr3Phys → t.brkEnd < 2 ^ 64 → nb < 2 ^ 64 →
    (∀ v, t.brkStart ≤ v → v < t.brkEnd → PageUsable (machineFrames.phys s) t.cr3Phys v) →
    sysBrk machineFrames s t nb = .done (s', t', r) → BrkDelivers machineFrames s s' t t' nb r := by
  intro hall
  obtain ⟨s₁, root, _, _, hmade⟩ := bootMachine_root
  have hs := hmade.space bootMachine_space
  have hcall : sysBrk machineFrames s₁ ⟨root, 0x401000, 0x401000, 0x40000000⟩ (2 ^ 64 - 1)
      = .done (s₁, ⟨root, 0x401000, 2 ^ 64 - 1, 0x40000000⟩, toInt64 (2 ^ 64 - 1)) := by
    have hzero : (alignUpPage (2 ^ 64 - 1) - alignUpPage 0x401000) / pageSize = 0 := by decide
    unfold sysBrk
    dsimp only
    rw [if_neg (by decide), if_neg (by decide), if_neg (by decide), hzero]
    rfl
  have hend : (0x401000 : Nat) < 2 ^ 64 := by decide
  have hd := hall s₁ ⟨root, 0x401000, 0x401000, 0x40000000⟩ (2 ^ 64 - 1) s₁ _ _ hs hend (by decide)
    (fun v h1 h2 => absurd h1 (by dsimp only at h2 ⊢; omega)) hcall
  have husable := (hd.granted rfl).2 0x401000 (Nat.le_refl _) (by decide)
  unfold PageUsable at husable
  rw [bootMachine_pages hmade] at husable
  exact absurd husable (by decide)

end VnlKernel
