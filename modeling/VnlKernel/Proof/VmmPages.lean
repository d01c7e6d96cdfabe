import VnlKernel.Proof.VmmGrow

/-!
# What mapping does to pages

Seen from the pages, an address space is a function: for every address the entry of the page
it is on, or nothing. Mapping a page changes the function at that page, or nowhere: below an
entry for a large page there are no tables, and the code writes the entry to address zero.
Tables that were made on the way do not show, as a table's entries are zero at first.
-/

namespace VnlKernel

open ByteMem Bits Radix

/-- The entry of the page at `virt`, zero where there is no table for it. -/
def pageEntry (m : Mem) (root virt : Nat) : Nat := (pteOf m root virt).getD 0

/-- The translation of `virt`'s page: the frame it is on. -/
def pageFrame (m : Mem) (root virt : Nat) : Option Nat :=
  if isPresent (pageEntry m root virt) then some (alignDown (pageEntry m root virt) pageSize) else none

section Entry

variable {m : Mem} {root v w : Nat}

/-- **`vmm_lookup_phys_pml4`** reads the page's entry. -/
theorem vmmLookup_pageEntry (m : Mem) (root virt : Nat) : vmmLookupPhysPml4 m root virt
    = if isPresent (pageEntry m root virt) then alignDown (pageEntry m root virt) pageSize |||
      (virt &&& (pageSize - 1))
      else 0 := by
  rw [vmmLookupPhysPml4_eq]
  unfold pageEntry
  cases pteOf m root virt with
  | none => rfl
  | some pte =>
      unfold pteAddress
      dsimp only
      rw [Option.getD_some]
      cases isPresent pte with
      | false => rfl
      | true => rfl

theorem pageEntry_of_page (h : pageOf v = pageOf w) : pageEntry m root v = pageEntry m root w := by
  obtain ⟨h1, h2⟩ := pageOf_iff.mp h
  unfold pageEntry pteOf
  rw [h1, h2]

theorem pageFrame_of_page (h : pageOf v = pageOf w) : pageFrame m root v = pageFrame m root w := by
  unfold pageFrame
  rw [pageEntry_of_page h]

theorem UnderLarge.of_page (h : pageOf v = pageOf w) (hw : UnderLarge m root w) :
    UnderLarge m root v := by
  unfold UnderLarge at *
  rw [(pageOf_iff.mp h).1]
  exact hw

/-- There is no table for a page below a large one. -/
theorem UnderLarge.tableAt_none (h : UnderLarge m root v) : tableAt m root (route v 3) = none := by
  obtain ⟨q, i, e, ⟨r, hr⟩, he, _, hstop⟩ := h
  rw [← hr]
  refine tableAt_below ?_ r
  rw [tableAt_snoc, he, Option.bind_some, hstop, Bool.or_true]
  rfl

theorem UnderLarge.pageEntry_zero (h : UnderLarge m root v) : pageEntry m root v = 0 := by
  unfold pageEntry pteOf entryOn
  rw [h.tableAt_none]
  rfl

theorem UnderLarge.pageFrame_none (h : UnderLarge m root v) : pageFrame m root v = none := by
  unfold pageFrame
  rw [h.pageEntry_zero]
  rfl

end Entry

variable {σ : Type} {fs : FrameService σ} {o : OverPmm fs}

/-- One address space before and after a change: the same large pages, no frame given up, no table
but the old ones and frames that were nobody's, and nothing else written that was in use. -/
structure Changed (o : OverPmm fs) (root : Nat) (s s' : σ) : Prop where
  space : Space o s' root
  taken : ∀ a, FrameTaken (o.pmm s) a → FrameTaken (o.pmm s') a
  large : ∀ v, UnderLarge (fs.phys s') root v ↔ UnderLarge (fs.phys s) root v
  table : ∀ q a, q.length ≤ 3 → tableAt (fs.phys s') root q = some a →
    tableAt (fs.phys s) root q = some a ∨ ¬ FrameTaken (o.pmm s) a
  kept : ∀ q a, q.length ≤ 3 → tableAt (fs.phys s) root q = some a → tableAt (fs.phys s') root q = some a
  bytes : ∀ a k, FrameTaken (o.pmm s) a → (∀ q, q.length ≤ 3 → tableAt (fs.phys s) root q ≠ some a) →
    k < pageSize → fs.phys s' (a + k) = fs.phys s (a + k)

namespace Changed

variable {root : Nat} {s s₁ s' : σ}

theorem refl (hs : Space o s root) : Changed o root s s :=
  ⟨hs, fun _ h => h, fun _ => Iff.rfl, fun _ _ _ h => Or.inl h, fun _ _ _ h => h,
    fun _ _ _ _ _ => rfl⟩

theorem trans (h : Changed o root s s₁) (h' : Changed o root s₁ s') : Changed o root s s' where
  space := h'.space
  taken := fun a ha => h'.taken a (h.taken a ha)
  large := fun v => (h'.large v).trans (h.large v)
  table := by
    intro q a hq ha
    rcases h'.table q a hq ha with hold | hnew
    · exact h.table q a hq hold
    · exact Or.inr fun hc => hnew (h.taken a hc)
  kept := fun q a hq ha => h'.kept q a hq (h.kept q a hq ha)
  bytes := by
    intro a k ha hnone hk
    rw [h'.bytes a k (h.taken a ha) ?_ hk, h.bytes a k ha hnone hk]
    intro q hq hc
    rcases h.table q a hq hc with hold | hnew
    · exact hnone q hq hold
    · exact hnew ha

/-- A change outside the tables. -/
theorem outside (hs : Space o s root) (hinv : PmmInv (o.pmm s'))
    (htaken : ∀ a, FrameTaken (o.pmm s) a → FrameTaken (o.pmm s') a)
    (hbytes : ∀ a k, FrameTaken (o.pmm s) a → k < pageSize
      → fs.phys s' (a + k) = fs.phys s (a + k)) :
    Changed o root s s' ∧ (∀ v, pageEntry (fs.phys s') root v = pageEntry (fs.phys s) root v)
      ∧ ∀ q, q.length ≤ 3 → tableAt (fs.phys s') root q = tableAt (fs.phys s) root q := by
  obtain ⟨hspace, htables, hentries⟩ := hs.outside hinv htaken
    fun q a k hq ha hk => hbytes a k (hs.taken q a hq ha) hk
  have hlarge : ∀ v, UnderLarge (fs.phys s') root v ↔ UnderLarge (fs.phys s) root v := by
    intro v
    have hlen : ∀ {q : List (Fin 512)} {i : Fin 512}, q ++ [i] <+: route v 3 → q.length ≤ 3 := by
      intro q i hq
      have := hq.length_le
      rw [route_length, List.length_append] at this
      omega
    constructor
    · intro ⟨q, i, e, hq, he, hrest⟩
      exact ⟨q, i, e, hq, (hentries q i (hlen hq)).symm.trans he, hrest⟩
    · intro ⟨q, i, e, hq, he, hrest⟩
      exact ⟨q, i, e, hq, (hentries q i (hlen hq)).trans he, hrest⟩
  refine ⟨⟨hspace, htaken, hlarge, fun q a hq ha => ?_, fun q a hq ha => (htables q hq).trans ha,
    fun a k ha _ hk => hbytes a k ha hk⟩, fun v => ?_, htables⟩
  · rw [htables q hq] at ha
    exact Or.inl ha
  · unfold pageEntry pteOf
    rw [hentries _ _ (by rw [route_length])]

end Changed

section Map

variable {root virt : Nat} {s s' : σ}

theorem route_init_short {q : List (Fin 512)} {i : Fin 512} {v : Nat} (h : q ++ [i] <+: route v 3) :
    q.length < 3 := by
  have := h.length_le
  rw [route_length, List.length_append, List.length_singleton] at this
  omega

/-- A table more. -/
theorem GraftAt.changed {p : List (Fin 512)} {i : Fin 512} {frame : Nat}
    (h : GraftAt o root s s' p i frame)
    (hs : Space o s root) :
    Changed o root s s' ∧ ∀ v, pageEntry (fs.phys s') root v = pageEntry (fs.phys s) root v := by
  have hfresh := h.fresh hs
  refine ⟨⟨h.space hs, hfresh.2.1, fun v => ⟨?_, ?_⟩, fun q a hq ha => ?_, fun q a hq ha => ?_,
    fun a k ha hnone hk => h.byte_eq hs ha hnone hk⟩, fun v => ?_⟩
  · -- the entries that were written are for no large page
    intro ⟨q, j, e, hq, he, hpresent, hstop⟩
    have hlen := route_init_short hq
    rw [h.entryOn_eq hs (by omega)] at he
    by_cases hhere : (q, j) = (p, i)
    · rw [if_pos hhere] at he
      cases he
      rw [(table_value (h.isFrame hs)).2.2.1] at hstop
      exact Bool.noConfusion hstop
    · rw [if_neg hhere] at he
      by_cases hnew : q = p ++ [i]
      · rw [if_pos hnew] at he
        cases he
        exact absurd hpresent (by decide)
      · rw [if_neg hnew] at he
        exact ⟨q, j, e, hq, he, hpresent, hstop⟩
  · intro ⟨q, j, e, hq, he, hpresent, hstop⟩
    have hlen := route_init_short hq
    exact ⟨q, j, e, hq, (h.entry hs (by omega)).1 e he hpresent, hpresent, hstop⟩
  · rw [h.tableAt_eq hs hq] at ha
    split at ha
    · cases ha
      exact Or.inr hfresh.2.2.2
    · exact Or.inl ha
  · rw [h.tableAt_eq hs hq, if_neg]
    · exact ha
    · intro hc
      obtain ⟨t, ht, habsent, _⟩ := h.slot
      rw [hc, tableAt_snoc, entryOn_some ht, Option.bind_some, habsent] at ha
      cases ha
  · unfold pageEntry pteOf
    rcases (h.entry hs (q := route v 3) (j := levelFin 0 v) (by rw [route_length])).2
      (route_length v 3) with
      hsame | ⟨hold, hnew⟩
    · rw [hsame]
    · rw [hold, hnew]
      rfl

theorem Grown.changed (h : Grown o root virt s s') (hs : Space o s root) :
    Changed o root s s' ∧ ∀ v, pageEntry (fs.phys s') root v = pageEntry (fs.phys s) root v := by
  induction h with
  | refl => exact ⟨.refl hs, fun _ => rfl⟩
  | tail _ hstep ih =>
      obtain ⟨p, i, frame, _, hg⟩ := hstep
      obtain ⟨hc, he⟩ := hg.changed ih.1.space
      exact ⟨ih.1.trans hc, fun v => (he v).trans (ih.2 v)⟩

/-- An entry's address is that of a page. -/
theorem alignDown_pageSize (x : Nat) : alignDown x pageSize % pageSize = 0 := by
  change alignDown x pageSize % 4096 = 0
  rw [← and_offset]
  unfold alignDown
  rw [Nat.and_assoc, show (2 ^ 64 - pageSize) &&& (pageSize - 1) = 0 from by decide, Nat.and_zero]

/-- What is written to a page's entry. -/
def pteValue (phys flags : Nat) : Nat := alignDown phys pageSize ||| flags ||| vmmFlagPresent

/-- The flags come off again. -/
theorem pteValue_frame (phys : Nat) {flags : Nat} (hf : flags &&& (2 ^ 64 - pageSize) = 0) :
    isPresent (pteValue phys flags) = true
      ∧ alignDown (pteValue phys flags) pageSize = alignDown phys pageSize := by
  unfold pteValue
  constructor
  · have hbit : (alignDown phys pageSize ||| flags ||| vmmFlagPresent) &&& vmmFlagPresent
        = vmmFlagPresent := by
      rw [Nat.and_or_distrib_right, Nat.and_self]
      exact Nat.eq_of_testBit_eq fun i => by
        rw [Nat.testBit_or, Nat.testBit_and]
        cases vmmFlagPresent.testBit i with
        | false => simp
        | true => simp
    unfold isPresent
    rw [hbit]
    decide
  · unfold alignDown
    rw [Nat.and_or_distrib_right, Nat.and_or_distrib_right, hf, Nat.and_assoc, Nat.and_self,
      show vmmFlagPresent &&& (2 ^ 64 - pageSize) = 0 from by decide, Nat.or_zero, Nat.or_zero]

theorem pteValue_lt (phys : Nat) {flags : Nat} (hf : flags < 2 ^ 64) :
    pteValue phys flags < 2 ^ 64 := by
  refine Nat.or_lt_two_pow (Nat.or_lt_two_pow ?_ hf) (by decide)
  exact Nat.lt_of_le_of_lt Nat.and_le_right (by decide)

/-- **Mapping a page**, seen from the pages. -/
structure MapsPage (o : OverPmm fs) (root virt value : Nat) (s s' : σ) : Prop where
  changed : Changed o root s s'
  here : ∀ v, pageOf v = pageOf virt → ¬ UnderLarge (fs.phys s) root v → pageEntry (fs.phys s') root v = value
  large : ∀ v, UnderLarge (fs.phys s) root v → pageEntry (fs.phys s') root v = pageEntry (fs.phys s) root v
  other : ∀ v, pageOf v ≠ pageOf virt → pageEntry (fs.phys s') root v = pageEntry (fs.phys s) root v

/-- The page's entry is written. -/
theorem Space.pte_changed (hm : FlatMemory fs) (hs : Space o s root) {t v : Nat}
    (ht : tableAt (fs.phys s) root (route virt 3) = some t) (hv : v < 2 ^ 64) :
    MapsPage o root virt v s (setPte fs s (entryAt t (levelFin 0 virt)) v) := by
  obtain ⟨hs', htables, hentries⟩ := hs.pte_set (i := levelFin 0 virt) hm
    (route_length virt 3) ht hv
  have hpmm : o.pmm (setPte fs s (entryAt t (levelFin 0 virt)) v) = o.pmm s := o.setPhys _ _
  have hphys : fs.phys (setPte fs s (entryAt t (levelFin 0 virt)) v)
      = write64 (fs.phys s) (entryAt t (levelFin 0 virt)) v := hm.setPhys _ _
  generalize setPte fs s (entryAt t (levelFin 0 virt)) v = s' at hs' htables hentries hpmm hphys
  -- an entry of the last table is one page's
  have hpte : ∀ w, pteOf (fs.phys s') root w
      = if pageOf w = pageOf virt then some v else pteOf (fs.phys s) root w := by
    intro w
    unfold pteOf
    rw [hentries _ _ (by rw [route_length])]
    by_cases hw : pageOf w = pageOf virt
    · obtain ⟨h1, h2⟩ := pageOf_iff.mp hw
      rw [if_pos hw, h1, h2, if_pos rfl]
    · rw [if_neg hw, if_neg fun hc => hw (pageOf_iff.mpr (Prod.mk.inj hc))]
  -- the entries above it are as they were
  have hlow : ∀ {q : List (Fin 512)} (j : Fin 512), q.length < 3 →
      entryOn (fs.phys s') root q j = entryOn (fs.phys s) root q j := by
    intro q j hq
    rw [hentries q j (by omega), if_neg]
    intro hc
    have := congrArg (fun x : List (Fin 512) × Fin 512 => x.1.length) hc
    dsimp only at this
    rw [route_length] at this
    omega
  refine ⟨⟨hs', fun a ha => hpmm ▸ ha, fun w => ⟨?_, ?_⟩, fun q a hq ha => ?_,
    fun q a hq ha => (htables q hq).trans ha, fun a k ha hnone hk => ?_⟩, fun w hw _ => ?_,
      fun w hw => ?_, fun w hw => ?_⟩
  · intro ⟨q, j, e, hq, he, hrest⟩
    exact ⟨q, j, e, hq, (hlow j (route_init_short hq)).symm.trans he, hrest⟩
  · intro ⟨q, j, e, hq, he, hrest⟩
    exact ⟨q, j, e, hq, (hlow j (route_init_short hq)).trans he, hrest⟩
  · rw [htables q hq] at ha
    exact Or.inl ha
  · -- a frame that holds no table is not the one written to
    have hta : t ≠ a := fun he => hnone _ (by rw [route_length]) (he ▸ ht)
    have h1 := (ha.isFrame hs.inv).1
    have hframe := hs.isFrame (by rw [route_length]) ht
    have h2 := hframe.1
    have hslot := entryAt_eq hframe (levelFin 0 virt).isLt
    have hi := (levelFin 0 virt).isLt
    rw [show pageSize = 4096 from rfl] at *
    rw [hphys, write64_out (by omega)]
  · unfold pageEntry
    rw [hpte w, if_pos hw]
    rfl
  · -- the table is there, so the page is below no large one
    have hne : pageOf w ≠ pageOf virt := by
      intro hc
      have hnone := (hw.of_page hc.symm).tableAt_none
      rw [ht] at hnone
      cases hnone
    unfold pageEntry
    rw [hpte w, if_neg hne]
  · unfold pageEntry
    rw [hpte w, if_neg hw]

theorem vmmMapInPml4_maps (hm : FlatMemory fs) (hs : Space o s root) {phys flags : Nat}
    (hf : flags < 2 ^ 64)
    (h : vmmMapInPml4 fs s root virt phys flags = .done s') :
    MapsPage o root virt (pteValue phys flags) s s' := by
  have hv : pteValue phys flags < 2 ^ 64 := pteValue_lt phys hf
  rcases vmmMapInPml4_cases hm hs h with ⟨s₁, t, hg, ht, rfl⟩ | ⟨rfl, _, hlarge⟩
  · obtain ⟨hchanged, hentries⟩ := hg.changed hs
    have hpte : MapsPage o root virt (pteValue phys flags) s₁
        (setPte fs s₁ (entryAt t (levelFin 0 virt)) (pteValue phys flags)) :=
      hchanged.space.pte_changed hm ht hv
    exact ⟨hchanged.trans hpte.changed, fun v hp hl => hpte.here v hp fun hc =>
      hl ((hchanged.large v).mp hc),
      fun v hl => (hpte.large v ((hchanged.large v).mpr hl)).trans (hentries v),
      fun v hp => (hpte.other v hp).trans (hentries v)⟩
  · have hpmm : o.pmm (setPte fs s 0 (pteValue phys flags)) = o.pmm s := o.setPhys _ _
    obtain ⟨hchanged, hentries, _⟩ := Changed.outside hs
      (show PmmInv (o.pmm (setPte fs s 0 (pteValue phys flags))) from hpmm ▸ hs.inv)
          (fun a ha => hpmm ▸ ha) fun a k ha hk => by
        obtain ⟨hal, hne, _⟩ := ha.isFrame hs.inv
        rw [show pageSize = 4096 from rfl] at hal
        unfold setPte
        rw [hm.setPhys]
        exact write64_out (by omega)
    exact ⟨hchanged, fun v hp hl => absurd (hlarge.of_page hp) hl, fun v _ => hentries v,
      fun v _ => hentries v⟩

end Map

end VnlKernel
