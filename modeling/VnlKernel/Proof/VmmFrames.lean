import VnlKernel.Proof.VmmPages
import Mathlib.Data.Set.Card
import Mathlib.Data.Set.Finite.List

/-!
# What mapping costs

A page takes the tables that are missing on its route, and a table that has been made is
there for the pages after it. So the frames that a range of pages takes are counted once and
for all in the tables as they are before: a frame for every path that some page's route goes
through and that leads nowhere yet. Pages below a large one take no tables.
-/

namespace VnlKernel

open ByteMem Bits Radix

/-- The tables that are missing for `k` pages from `va` on, as paths. -/
def MissingTables (m : Mem) (root va k : Nat) : Set (List (Fin 512)) :=
  {p | tableAt m root p = none ∧ ∃ j, j < k ∧ p <+: route (va + pageSize * j) 3
    ∧ ¬ UnderLarge m root (va + pageSize * j)}

/-- The frames that `k` pages from `va` on take, a frame for each page and one for each missing
table. -/
noncomputable def framesNeeded (m : Mem) (root va k : Nat) : Nat := k + (MissingTables m root va k).ncard

theorem route_init_le {q : List (Fin 512)} {v : Nat} (h : q <+: route v 3) : q.length ≤ 3 := by
  have := h.length_le
  rw [route_length] at this
  exact this

theorem missingTables_finite (m : Mem) (root va k : Nat) : (MissingTables m root va k).Finite := by
  refine (List.finite_length_le (Fin 512) 3).subset ?_
  exact fun p ⟨_, j, _, hp, _⟩ => route_init_le hp

theorem missingTables_zero (m : Mem) (root va : Nat) : MissingTables m root va 0 = ∅ := by
  refine Set.eq_empty_of_forall_notMem ?_
  intro p ⟨_, j, hj, _⟩
  omega

/-- A page more costs a frame more, at least. -/
theorem framesNeeded_lt {m : Mem} {root va k n : Nat} (h : k < n) :
    framesNeeded m root va k < framesNeeded m root va n := by
  have hsub : MissingTables m root va k ⊆ MissingTables m root va n := by
    intro p ⟨hnone, j, hj, hrest⟩
    exact ⟨hnone, j, by omega, hrest⟩
  have := Set.ncard_le_ncard hsub (missingTables_finite m root va n)
  unfold framesNeeded
  omega

/-- Only the pages count, not the addresses. -/
theorem missingTables_of_page {m : Mem} {root va va' k : Nat}
    (h : ∀ j, pageOf (va + pageSize * j) = pageOf (va' + pageSize * j)) :
    MissingTables m root va k = MissingTables m root va' k := by
  refine Set.ext fun p => ⟨?_, ?_⟩
  · intro ⟨hnone, j, hj, hp, hl⟩
    rw [(pageOf_iff.mp (h j)).1] at hp
    exact ⟨hnone, j, hj, hp, fun hc => hl (hc.of_page (h j))⟩
  · intro ⟨hnone, j, hj, hp, hl⟩
    rw [← (pageOf_iff.mp (h j)).1] at hp
    exact ⟨hnone, j, hj, hp, fun hc => hl (hc.of_page (h j).symm)⟩

/-- What `n` allocations leave of the allocator. -/
def allocs (n : Nat) (p : Pmm) : Pmm := (fun p => (pmmAlloc p).1)^[n] p

/-- The frame that an allocation returns after `n` others. -/
def frameAfter (p : Pmm) (n : Nat) : Nat := (pmmAlloc (allocs n p)).2

theorem allocs_add (m n : Nat) (p : Pmm) : allocs (m + n) p = allocs n (allocs m p) := by
  unfold allocs
  rw [Nat.add_comm, Function.iterate_add_apply]

/-- An allocation costs a frame, or there was none. -/
theorem alloc_count {p p' : Pmm} {a : Nat} (hp : PmmInv p) (h : pmmAlloc p = (p', a)) :
    (a = 0 → p.freeFrames = 0 ∧ p' = p) ∧ (a ≠ 0 → p.freeFrames = p'.freeFrames + 1) := by
  rcases pmmAlloc_cases hp with ⟨h0, he⟩ | ⟨f, hpos, hlo, _, _, he⟩
  · cases h.symm.trans he
    exact ⟨fun _ => ⟨h0, rfl⟩, fun hc => absurd rfl hc⟩
  · cases h.symm.trans he
    refine ⟨fun hc => absurd hc (Nat.mul_ne_zero (by omega) (by decide)), fun _ => ?_⟩
    have hle := hp.free_le
    have hmax : maxFrames = 1048576 := rfl
    change p.freeFrames = sub64 p.freeFrames 1 + 1
    rw [sub64_of_le (by omega) (by omega)]
    omega

/-- No frame is taken but the one that is returned. -/
theorem frameTaken_alloc_only {p p' : Pmm} {a b : Nat} (hp : PmmInv p) (h : pmmAlloc p = (p', a))
    (hb : FrameTaken p' b) : FrameTaken p b ∨ b = a := by
  rcases pmmAlloc_cases hp with ⟨_, he⟩ | ⟨f, _, _, _, _, he⟩
  · cases he.symm.trans h
    exact Or.inl hb
  · cases he.symm.trans h
    obtain ⟨g, rfl, hlo, hhi, hset⟩ := hb
    rw [bmTest_markUsed] at hset
    by_cases hfg : f = g
    · exact Or.inr (by rw [hfg])
    · refine Or.inl ⟨g, rfl, hlo, hhi, ?_⟩
      rw [decide_eq_false hfg, Bool.or_false] at hset
      exact hset

theorem allocs_inv {p : Pmm} (hp : PmmInv p) (n : Nat) : PmmInv (allocs n p) := by
  induction n with
  | zero => exact hp
  | succ n ih =>
      rw [allocs_add]
      exact pmmAlloc_inv ih

/-- What an allocation returns is the address of a frame, or zero. -/
theorem frameAfter_aligned {p : Pmm} (hp : PmmInv p) (n : Nat) :
    frameAfter p n % pageSize = 0 ∧ frameAfter p n < 2 ^ 64 := by
  unfold frameAfter
  have hn := allocs_inv hp n
  rcases pmmAlloc_cases hn with ⟨_, he⟩ | ⟨f, _, _, hhi, _, he⟩
  · rw [he]
    exact ⟨rfl, show 0 < 2 ^ 64 by decide⟩
  · have htotal := hn.total
    have hmax : maxFrames = 1048576 := rfl
    rw [he]
    refine ⟨Nat.mul_mod_left _ _, ?_⟩
    change f * 4096 < 2 ^ 64
    omega

variable {σ : Type} {fs : FrameService σ} {o : OverPmm fs} {root virt : Nat} {s s₁ s' : σ}

/-- The paths on the way to `virt` that lead nowhere. -/
def OffRoute (m : Mem) (root virt : Nat) : Set (List (Fin 512)) :=
  {p | p <+: route virt 3 ∧ tableAt m root p = none}

theorem offRoute_finite (m : Mem) (root virt : Nat) : (OffRoute m root virt).Finite := by
  refine (List.finite_length_le (Fin 512) 3).subset ?_
  exact fun p hp => route_init_le hp.1

/-- One table on the way. -/
theorem GraftAt.count {p : List (Fin 512)} {i : Fin 512} {frame : Nat}
    (h : GraftAt o root s s' p i frame)
    (hs : Space o s root) (hon : p ++ [i] <+: route virt 3) :
    (o.pmm s).freeFrames = (o.pmm s').freeFrames + 1
      ∧ OffRoute (fs.phys s) root virt = insert (p ++ [i]) (OffRoute (fs.phys s') root virt)
      ∧ p ++ [i] ∉ OffRoute (fs.phys s') root virt
      ∧ ∀ q, q.length ≤ 3 → (tableAt (fs.phys s') root q = none
          ↔ tableAt (fs.phys s) root q = none ∧ q ≠ p ++ [i]) := by
  have hempty : tableAt (fs.phys s) root (p ++ [i]) = none := by
    obtain ⟨t, ht, habsent, _⟩ := h.slot
    rw [tableAt_snoc, entryOn_some ht, Option.bind_some, habsent]
    rfl
  have htables : ∀ q, q.length ≤ 3 → (tableAt (fs.phys s') root q = none
      ↔ tableAt (fs.phys s) root q = none ∧ q ≠ p ++ [i]) := by
    intro q hq
    rw [h.tableAt_eq hs hq]
    by_cases hnew : q = p ++ [i]
    · simp [hnew]
    · simp [hnew]
  have hshort := h.short
  have hlen : (p ++ [i]).length ≤ 3 := by
    rw [List.length_append, List.length_singleton]
    omega
  refine ⟨((alloc_count hs.inv h.alloc).2 h.found), Set.ext fun q => ?_, fun hc => ?_, htables⟩
  · constructor
    · intro ⟨hq, hnone⟩
      by_cases hnew : q = p ++ [i]
      · exact Or.inl hnew
      · exact Or.inr ⟨hq, (htables q (route_init_le hq)).mpr ⟨hnone, hnew⟩⟩
    · intro hq
      rcases hq with rfl | ⟨hq, hnone⟩
      · exact ⟨hon, hempty⟩
      · exact ⟨hq, ((htables q (route_init_le hq)).mp hnone).1⟩
  · exact ((htables _ hlen).mp hc.2).2 rfl

/-- The tables on the way to a page. -/
theorem Grown.count (h : Grown o root virt s s') (hs : Space o s root) :
    (∃ n, (OffRoute (fs.phys s) root virt).ncard = n + (OffRoute (fs.phys s') root virt).ncard
        ∧ (o.pmm s).freeFrames = (o.pmm s').freeFrames + n ∧ o.pmm s' = allocs n (o.pmm s))
      ∧ ∀ q, q.length ≤ 3 → (tableAt (fs.phys s') root q = none → tableAt (fs.phys s) root q = none)
        ∧ (¬ q <+: route virt 3 → tableAt (fs.phys s) root q = none
          → tableAt (fs.phys s') root q = none) := by
  induction h with
  | refl => exact ⟨⟨0, (Nat.zero_add _).symm, rfl, rfl⟩, fun q _ => ⟨fun hq => hq, fun _ hq => hq⟩⟩
  | tail hg hstep ih =>
      obtain ⟨⟨n, ihcard, ihcount, ihpmm⟩, ihtables⟩ := ih
      obtain ⟨p, i, frame, hon, hgraft⟩ := hstep
      obtain ⟨hone, hset, hnew, htables⟩ := hgraft.count (Grown.space hg hs) hon
      have hcard := Set.ncard_insert_of_notMem hnew (offRoute_finite _ _ _)
      rw [← hset] at hcard
      have hpmm := congrArg Prod.fst hgraft.alloc
      refine ⟨⟨n + 1, by omega, by omega, ?_⟩, fun q hq => ⟨fun hnone => ?_, fun hoff hnone => ?_⟩⟩
      · rw [allocs_add, ← ihpmm]
        exact hpmm.symm
      · exact (ihtables q hq).1 ((htables q hq).mp hnone).1
      · exact (htables q hq).mpr ⟨(ihtables q hq).2 hoff hnone, fun hc => hoff (hc ▸ hon)⟩

/-- All that has been taken since are tables. -/
def OnlyTables (o : OverPmm fs) (root : Nat) (s s' : σ) : Prop :=
  ∀ a, FrameTaken (o.pmm s') a → FrameTaken (o.pmm s) a ∨ ∃ q, q.length ≤ 3 ∧ tableAt (fs.phys s') root q = some a

theorem OnlyTables.still (hpmm : o.pmm s' = o.pmm s) : OnlyTables o root s s' := by
  intro a ha
  rw [hpmm] at ha
  exact Or.inl ha

theorem OnlyTables.trans (h : OnlyTables o root s s₁) (h' : OnlyTables o root s₁ s')
    (hc : Changed o root s₁ s') :
    OnlyTables o root s s' := by
  intro a ha
  rcases h' a ha with hold | hnew
  · rcases h a hold with hold | ⟨q, hq, hqa⟩
    · exact Or.inl hold
    · exact Or.inr ⟨q, hq, hc.kept q a hq hqa⟩
  · exact Or.inr hnew

theorem Grown.onlyTables (h : Grown o root virt s s') (hs : Space o s root) :
    OnlyTables o root s s' := by
  induction h with
  | refl => exact .still rfl
  | tail hg hstep ih =>
      obtain ⟨p, i, frame, _, hgraft⟩ := hstep
      have hspace := Grown.space hg hs
      refine ih.trans (fun a ha => ?_) (hgraft.changed hspace).1
      rcases frameTaken_alloc_only hspace.inv hgraft.alloc ha with hold | rfl
      · exact Or.inl hold
      · have hshort := hgraft.short
        have hlen : (p ++ [i]).length ≤ 3 := by
          rw [List.length_append, List.length_singleton]
          omega
        refine Or.inr ⟨p ++ [i], hlen, ?_⟩
        rw [hgraft.tableAt_eq hspace hlen, if_pos rfl]

/-- **Mapping a page** takes frames for tables only. -/
theorem vmmMapInPml4_onlyTables (hm : FlatMemory fs) (hs : Space o s root) {phys flags : Nat}
    (hf : flags < 2 ^ 64)
    (h : vmmMapInPml4 fs s root virt phys flags = .done s') : OnlyTables o root s s' := by
  rcases vmmMapInPml4_cases hm hs h with ⟨s₁, t, hg, ht, rfl⟩ | ⟨rfl, _, _⟩
  · have hs₁ := hg.space hs
    have hpte := hs₁.pte_changed hm ht (pteValue_lt phys hf)
    exact (hg.onlyTables hs).trans (.still (o.setPhys _ _)) hpte.changed
  · exact .still (o.setPhys _ _)

theorem missingTables_one {m : Mem} (h : ¬ UnderLarge m root virt) :
    MissingTables m root virt 1 = OffRoute m root virt := by
  refine Set.ext fun q => ⟨?_, fun ⟨hq, hnone⟩ => ⟨hnone, 0, by omega, hq, h⟩⟩
  intro ⟨hnone, j, hj, hq, _⟩
  obtain rfl : j = 0 := by omega
  exact ⟨hq, hnone⟩

theorem missingTables_large {m : Mem} (h : UnderLarge m root virt) :
    MissingTables m root virt 1 = ∅ := by
  refine Set.eq_empty_of_forall_notMem ?_
  intro q ⟨_, j, hj, _, hl⟩
  obtain rfl : j = 0 := by omega
  exact hl h

/-- What `pages` frames for pages and the tables that were missing for `k` pages from `va` on have
cost. -/
structure PageCost (o : OverPmm fs) (root va k pages : Nat) (s s' : σ) : Prop where
  count : (o.pmm s).freeFrames
    = (o.pmm s').freeFrames + (pages + (MissingTables (fs.phys s) root va k).ncard)
  pmm : o.pmm s' = allocs (pages + (MissingTables (fs.phys s) root va k).ncard) (o.pmm s)
  tables : ∀ q, q.length ≤ 3 → (tableAt (fs.phys s') root q = none
    ↔ tableAt (fs.phys s) root q = none ∧ q ∉ MissingTables (fs.phys s) root va k)

/-- **A page costs the tables that are missing for it**, and they are there afterwards. -/
theorem vmmMapInPml4_cost (hm : FlatMemory fs) (hs : Space o s root) {phys flags : Nat}
    (hf : flags < 2 ^ 64)
    (h : vmmMapInPml4 fs s root virt phys flags = .done s') : PageCost o root virt 1 0 s s' := by
  rcases vmmMapInPml4_cases hm hs h with ⟨s₁, t, hg, ht, rfl⟩ | ⟨rfl, _, hlarge⟩
  · obtain ⟨hchanged, _⟩ := hg.changed hs
    obtain ⟨⟨n, hcard, hcount, hallocs⟩, htables⟩ := hg.count hs
    have hnot : ¬ UnderLarge (fs.phys s) root virt := by
      intro hl
      have hnone := ((hchanged.large virt).mpr hl).tableAt_none
      rw [ht] at hnone
      cases hnone
    -- a path with the page's table at its end has tables all along
    have hall : OffRoute (fs.phys s₁) root virt = ∅ := by
      refine Set.eq_empty_of_forall_notMem ?_
      intro q ⟨⟨r, hr⟩, hnone⟩
      have hend := tableAt_below hnone r
      rw [hr, ht] at hend
      cases hend
    rw [hall, Set.ncard_empty, Nat.add_zero] at hcard
    obtain ⟨_, hkept, _⟩ := hchanged.space.pte_set (i := levelFin 0 virt) hm
      (route_length virt 3) ht
      (pteValue_lt phys hf)
    have hpmm : o.pmm (setPte fs s₁ (entryAt t (levelFin 0 virt)) (pteValue phys flags))
        = o.pmm s₁ :=
      o.setPhys _ _
    constructor
    · rw [missingTables_one hnot]
      change _ = (o.pmm (setPte fs s₁ (entryAt t (levelFin 0 virt))
        (pteValue phys flags))).freeFrames + _
      rw [hpmm]
      omega
    · rw [missingTables_one hnot]
      change o.pmm (setPte fs s₁ (entryAt t (levelFin 0 virt)) (pteValue phys flags)) = _
      rw [hpmm, hcard, Nat.zero_add]
      exact hallocs
    · intro q hq
      change tableAt (fs.phys (setPte fs s₁ (entryAt t (levelFin 0 virt)) (pteValue phys flags)))
        root q = none ↔ _
      rw [missingTables_one hnot, hkept q hq]
      constructor
      · intro hnone
        refine ⟨(htables q hq).1 hnone, fun hoff => ?_⟩
        have hmem : q ∈ OffRoute (fs.phys s₁) root virt := ⟨hoff.1, hnone⟩
        rw [hall] at hmem
        exact hmem
      · intro ⟨hnone, hnotMem⟩
        exact (htables q hq).2 (fun hon => hnotMem ⟨hon, hnone⟩) hnone
  · obtain ⟨_, hkept, _⟩ := hs.zero_set hm (pteValue phys flags)
    have hpmm : o.pmm (setPte fs s 0 (pteValue phys flags)) = o.pmm s := o.setPhys _ _
    constructor
    · rw [missingTables_large hlarge, Set.ncard_empty]
      change _ = (o.pmm (setPte fs s 0 (pteValue phys flags))).freeFrames + _
      rw [hpmm]
      rfl
    · rw [missingTables_large hlarge, Set.ncard_empty]
      exact hpmm
    · intro q hq
      change tableAt (fs.phys (setPte fs s 0 (pteValue phys flags))) root q = none ↔ _
      rw [missingTables_large hlarge, hkept q hq]
      simp

theorem page_append (va j i : Nat) : va + pageSize * (j + i)
    = va + pageSize * j + pageSize * i := by
  rw [Nat.mul_add, Nat.add_assoc]

/-- What is missing for the later pages was missing before, unless the earlier pages brought it. -/
theorem PageCost.missing {va j m : Nat} (h : PageCost o root va j m s s₁) (hc : Changed o root s s₁)
    (k : Nat) :
    MissingTables (fs.phys s) root va (j + k)
        = MissingTables (fs.phys s) root va j ∪ MissingTables (fs.phys s₁) root
          (va + pageSize * j) k
      ∧ (MissingTables (fs.phys s) root va (j + k)).ncard
        = (MissingTables (fs.phys s) root va j).ncard
        + (MissingTables (fs.phys s₁) root (va + pageSize * j) k).ncard := by
  have hset : MissingTables (fs.phys s) root va (j + k)
      = MissingTables (fs.phys s) root va j ∪ MissingTables (fs.phys s₁) root
          (va + pageSize * j) k := by
    refine Set.ext fun q => ⟨?_, ?_⟩
    · intro ⟨hnone, i, hi, hq, hl⟩
      by_cases hfirst : q ∈ MissingTables (fs.phys s) root va j
      · exact Or.inl hfirst
      · have hij : j ≤ i := by
          by_contra hc
          exact hfirst ⟨hnone, i, by omega, hq, hl⟩
        have he := page_append va j (i - j)
        rw [Nat.add_sub_cancel' hij] at he
        rw [he] at hq hl
        exact Or.inr ⟨(h.tables q (route_init_le hq)).mpr ⟨hnone, hfirst⟩, i - j, by omega, hq,
          fun hc' => hl ((hc.large _).mp hc')⟩
    · intro hq
      rcases hq with ⟨hnone, i, hi, hq, hl⟩ | ⟨hnone, i, hi, hq, hl⟩
      · exact ⟨hnone, i, by omega, hq, hl⟩
      · rw [← page_append] at hq hl
        exact ⟨((h.tables q (route_init_le hq)).mp hnone).1, j + i, by omega, hq,
          fun hc' => hl ((hc.large _).mpr hc')⟩
  have hdisj : Disjoint (MissingTables (fs.phys s) root va j)
      (MissingTables (fs.phys s₁) root (va + pageSize * j) k) := by
    refine Set.disjoint_left.mpr ?_
    intro q hq ⟨hnone, i, _, hon, _⟩
    exact ((h.tables q (route_init_le hon)).mp hnone).2 hq
  refine ⟨hset, ?_⟩
  rw [hset]
  exact Set.ncard_union_eq hdisj (missingTables_finite _ _ _ _) (missingTables_finite _ _ _ _)

/-- First some pages, then the pages after them. -/
theorem PageCost.append {va j k m n : Nat} (h : PageCost o root va j m s s₁)
    (hc : Changed o root s s₁)
    (h' : PageCost o root (va + pageSize * j) k n s₁ s') :
    PageCost o root va (j + k) (m + n) s s' := by
  obtain ⟨hset, hcard⟩ := h.missing hc k
  constructor
  · rw [hcard]
    have h1 := h.count
    have h2 := h'.count
    omega
  · rw [hcard, h'.pmm, h.pmm, ← allocs_add]
    congr 1
    omega
  · intro q hq
    rw [h'.tables q hq, h.tables q hq, hset]
    exact ⟨fun ⟨⟨h1, h2⟩, h3⟩ => ⟨h1, fun hc' => hc'.elim h2 h3⟩,
      fun ⟨h1, h2⟩ => ⟨⟨h1, fun hc' => h2 (Or.inl hc')⟩, fun hc' => h2 (Or.inr hc')⟩⟩

/-- Nothing has happened. -/
theorem PageCost.still (hphys : fs.phys s' = fs.phys s) (hpmm : o.pmm s' = o.pmm s) (va : Nat) :
    PageCost o root va 0 0 s s' := by
  constructor
  · rw [missingTables_zero, Set.ncard_empty, hpmm]
    rfl
  · rw [missingTables_zero, Set.ncard_empty, hpmm]
    rfl
  · intro q _
    rw [missingTables_zero, hphys]
    simp

theorem PageCost.none (va : Nat) : PageCost o root va 0 0 s s := .still rfl rfl va

end VnlKernel
