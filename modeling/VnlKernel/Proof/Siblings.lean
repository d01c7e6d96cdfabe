import VnlKernel.Proof.UserPages

/-!
# Two roots with the kernel between them

A new root has one entry of the root that was current, the one for the kernel's half of the
addresses. What is mapped in the new address space below that entry is mapped in both, and
what is mapped elsewhere is in tables that the older root does not have. So the older
address space can change in the kernel's half only, and there it is what the new one is.
-/

namespace VnlKernel

open ByteMem Bits Radix

/-! ## Frames to come -/

/-- `pmm_alloc` will come to this frame. -/
def FrameFree (p : Pmm) (a : Nat) : Prop := a ≠ 0 ∧ ∃ n, frameAfter p n = a

section Frames

variable {p : Pmm} {a n : Nat}

theorem FrameFree.before (h : FrameFree (allocs n p) a) : FrameFree p a := by
  obtain ⟨hne, k, hk⟩ := h
  refine ⟨hne, n + k, ?_⟩
  unfold frameAfter at *
  rw [allocs_add]
  exact hk

theorem allocs_taken (hp : PmmInv p) (n : Nat) (h : FrameTaken p a) :
    FrameTaken (allocs n p) a := by
  induction n with
  | zero => exact h
  | succ n ih =>
      rw [allocs_add]
      exact (frameTaken_alloc (allocs_inv hp n) (Prod.eta _).symm).2.1 a ih

/-- It does not come to a frame that is taken. -/
theorem FrameTaken.not_free (hp : PmmInv p) (h : FrameTaken p a) : ¬ FrameFree p a := by
  intro ⟨hne, n, hn⟩
  have hfresh := (frameTaken_alloc (allocs_inv hp n) (Prod.eta (pmmAlloc (allocs n p))).symm).2.2
  unfold frameAfter at hn
  rw [hn] at hfresh
  exact (hfresh hne).2 (allocs_taken hp n h)

/-- What is taken afterwards was taken, or free. -/
theorem frameTaken_allocs (hp : PmmInv p) (h : FrameTaken (allocs n p) a) :
    FrameTaken p a ∨ FrameFree p a := by
  induction n with
  | zero => exact Or.inl h
  | succ n ih =>
      rw [allocs_add] at h
      rcases frameTaken_alloc_only (allocs_inv hp n) (Prod.eta _).symm h with hold | hnew
      · exact ih hold
      · exact Or.inr ⟨h.ne_zero, n, hnew.symm⟩

end Frames

/-! ## The two roots -/

/-- A path outside the kernel's half; the root is outside, too. -/
def OwnPath (q : List (Fin 512)) : Prop := q.head? ≠ some 511

/-- A page of the kernel's half, where the old root has one, lies under a large page of the new
root. -/
def SparedAt (m : Mem) (old new v : Nat) : Prop :=
  levelFin 3 v = 511 → tableAt m old [511] ≠ none → UnderLarge m new v

theorem ownPath_init {q : List (Fin 512)} {i : Fin 512} (h : OwnPath (q ++ [i])) : OwnPath q := by
  cases q with
  | nil => exact fun hc => by cases hc
  | cons j q => exact h

theorem ownPath_or (q : List (Fin 512)) : OwnPath q ∨ ∃ r, q = 511 :: r := by
  cases q with
  | nil => exact Or.inl fun hc => by cases hc
  | cons j r =>
      by_cases hj : j = 511
      · exact Or.inr ⟨r, by rw [hj]⟩
      · exact Or.inl fun hc => hj (Option.some.inj hc)

variable {σ : Type} {fs : FrameService σ} {o : OverPmm fs} {old new : Nat} {s s₁ s' : σ}

/-- The tables of the older root are its own, but for those of the kernel's half, which are of both.
-/
structure Siblings (o : OverPmm fs) (s : σ) (old new : Nat) : Prop where
  space : Space o s new
  apart : ∀ q a, q.length ≤ 3 → OwnPath q → tableAt (fs.phys s) old q = some a →
    FrameTaken (o.pmm s) a ∧ ∀ r, r.length ≤ 3 → tableAt (fs.phys s) new r ≠ some a
  shared : ∀ t, tableAt (fs.phys s) old [511] = some t → tableAt (fs.phys s) new [511] = some t

theorem RootMade.siblings (h : RootMade o old s s' new) (hs : Space o s old) :
    Siblings o s' old new := by
  obtain ⟨_, htables, _⟩ := h.current hs
  refine ⟨h.space hs, fun q a hq hown ha => ?_, fun t ht => ?_⟩
  · rw [htables q hq] at ha
    have htaken := hs.taken q a hq ha
    refine ⟨h.mono a htaken, fun r hr hra => ?_⟩
    cases r with
    | nil =>
        cases hra
        exact h.fresh htaken
    | cons i r =>
        by_cases hi : i = 511
        · subst hi
          rw [List.length_cons] at hr
          rw [h.tableAt_shared hs r (by omega)] at hra
          refine hown ?_
          rw [hs.tree q (511 :: r) a hq (by rw [List.length_cons]; omega) ha hra]
          rfl
        · rw [h.tableAt_rest hi] at hra
          cases hra
  · rw [htables _ (by decide)] at ht
    rw [h.tableAt_shared hs [] (by decide)]
    exact ht

namespace Siblings

variable (h : Siblings o s old new)
include h

/-- Below the shared entry they lead to the same tables. -/
theorem tableAt_shared {r : List (Fin 512)} {a : Nat}
    (ha : tableAt (fs.phys s) old (511 :: r) = some a) :
    tableAt (fs.phys s) new (511 :: r) = some a := by
  have hsplit : ∀ root, tableAt (fs.phys s) root (511 :: r)
      = (tableAt (fs.phys s) root [511]).bind fun t => follow (tableChild (fs.phys s)) 1 t r :=
          fun root => by
    unfold tableAt
    rw [← List.singleton_append, follow_append]
    rfl
  rw [hsplit] at ha ⊢
  cases ht : tableAt (fs.phys s) old [511] with
  | none =>
      rw [ht] at ha
      cases ha
  | some t =>
      rw [h.shared t ht, ← ht]
      exact ha

/-- A page of the kernel's half is the same page in both. -/
theorem pageEntry_shared {v : Nat} (hv : levelFin 3 v = 511)
    (htop : tableAt (fs.phys s) old [511] ≠ none) :
    pageEntry (fs.phys s) old v = pageEntry (fs.phys s) new v := by
  obtain ⟨t, ht⟩ := Option.ne_none_iff_exists'.mp htop
  have hsplit : ∀ root, tableAt (fs.phys s) root (route v 3)
      = (tableAt (fs.phys s) root [511]).bind fun t =>
          follow (tableChild (fs.phys s)) 1 t (route v 2) := fun root => by
    rw [show route v 3 = [511] ++ route v 2 by rw [route, hv]; rfl]
    unfold tableAt
    rw [follow_append]
    rfl
  unfold pageEntry pteOf entryOn
  rw [hsplit, hsplit, ht, h.shared t ht]

/-- What is no table of the new root, and none of the older root's own, is no table. -/
theorem no_table {a : Nat} (hnew : ∀ q, q.length ≤ 3 → tableAt (fs.phys s) new q ≠ some a)
    (hown : ∀ q, q.length ≤ 3 → OwnPath q → tableAt (fs.phys s) old q ≠ some a) :
    ∀ q, q.length ≤ 3 → tableAt (fs.phys s) old q ≠ some a := by
  intro q hq ha
  rcases ownPath_or q with hq' | ⟨r, rfl⟩
  · exact hown q hq hq' ha
  · exact hnew _ hq (h.tableAt_shared ha)

end Siblings

/-- A page of the kernel's half where there is no such half. -/
theorem pageEntry_no_half {m : Mem} {v : Nat} (hv : levelFin 3 v = 511)
    (htop : tableAt m old [511] = none) :
    pageEntry m old v = 0 := by
  have hnone : tableAt m old (route v 3) = none := by
    rw [show route v 3 = [511] ++ route v 2 by rw [route, hv]; rfl]
    exact tableAt_below htop _
  unfold pageEntry pteOf entryOn
  rw [hnone]
  rfl

/-! ## The older root stays -/

/-- The older root's own tables are what they were. -/
structure OwnKept (m m' : Mem) (old : Nat) : Prop where
  table : ∀ q, q.length ≤ 3 → OwnPath q → tableAt m' old q = tableAt m old q
  top : tableAt m' old [511] = tableAt m old [511]
  page : ∀ v, levelFin 3 v ≠ 511 → pageEntry m' old v = pageEntry m old v

theorem Siblings.ownKept (h : Siblings o s old new)
    (hbytes : ∀ q a k, q.length ≤ 3 → OwnPath q → tableAt (fs.phys s) old q = some a
      → k < pageSize →
      fs.phys s' (a + k) = fs.phys s (a + k)) : OwnKept (fs.phys s) (fs.phys s') old := by
  have hread : ∀ q (i : Fin 512), q.length ≤ 3 → OwnPath q
    → tableAt (fs.phys s') old q = tableAt (fs.phys s) old q →
      entryOn (fs.phys s') old q i = entryOn (fs.phys s) old q i := by
    intro q i hq hown htable
    unfold entryOn
    rw [htable]
    cases ha : tableAt (fs.phys s) old q with
    | none => rw [Option.map_none, Option.map_none]
    | some a =>
        have hframe := (h.apart q a hq hown ha).1.isFrame h.space.inv
        rw [Option.map_some, Option.map_some,
          entryAt_congr hframe (fun k hk => hbytes q a k hq hown ha hk) i]
  have htables : ∀ q : List (Fin 512), q.length ≤ 3 → OwnPath q
      → tableAt (fs.phys s') old q = tableAt (fs.phys s) old q := by
    intro q
    induction q using List.reverseRecOn with
    | nil =>
        intro _ _
        rw [tableAt_nil, tableAt_nil]
    | append_singleton q i ih =>
        intro hq hown
        rw [List.length_append, List.length_singleton] at hq
        have hown' := ownPath_init hown
        rw [tableAt_snoc, tableAt_snoc, hread q i (by omega) hown' (ih (by omega) hown')]
  refine ⟨htables, ?_, fun v hv => ?_⟩
  · have hroot : OwnPath [] := fun hc => by cases hc
    change tableAt (fs.phys s') old ([] ++ [511]) = tableAt (fs.phys s) old ([] ++ [511])
    rw [tableAt_snoc, tableAt_snoc, hread [] 511 (by decide) hroot (htables [] (by decide) hroot)]
  · have hown : OwnPath (route v 3) := fun hc => hv (Option.some.inj hc)
    unfold pageEntry pteOf
    rw [hread _ _ (by rw [route_length]) hown (htables _ (by rw [route_length]) hown)]

/-- **The two roots stay apart** while the new one changes. -/
theorem Siblings.step (h : Siblings o s old new) (hkept : OwnKept (fs.phys s) (fs.phys s') old)
    (hs' : Space o s' new)
    (htaken : ∀ a, FrameTaken (o.pmm s) a → FrameTaken (o.pmm s') a)
    (htable : ∀ q a, q.length ≤ 3 → tableAt (fs.phys s') new q = some a →
      tableAt (fs.phys s) new q = some a ∨ ¬ FrameTaken (o.pmm s) a)
    (htop : ∀ t, tableAt (fs.phys s) new [511] = some t → tableAt (fs.phys s') new [511] = some t) :
    Siblings o s' old new := by
  refine ⟨hs', fun q a hq hown ha => ?_, fun t ht => ?_⟩
  · rw [hkept.table q hq hown] at ha
    obtain ⟨hin, hnone⟩ := h.apart q a hq hown ha
    refine ⟨htaken a hin, fun r hr hra => ?_⟩
    rcases htable r a hr hra with hold | hnew
    · exact hnone r hr hold
    · exact hnew hin
  · rw [hkept.top] at ht
    exact htop t (h.shared t ht)

/-! ## Pages -/

/-- The new root's pages are on frames that will not be handed out, and on no table of either. -/
def PagesSettled (o : OverPmm fs) (s : σ) (old new : Nat) : Prop :=
  ∀ v, isPresent (pageEntry (fs.phys s) new v) = true →
    ¬ FrameFree (o.pmm s) (alignDown (pageEntry (fs.phys s) new v) pageSize)
      ∧ (∀ q, q.length ≤ 3 → tableAt (fs.phys s) new q ≠ some (alignDown (pageEntry (fs.phys s) new v) pageSize))
      ∧ ∀ q, q.length ≤ 3 → tableAt (fs.phys s) old q ≠ some (alignDown (pageEntry (fs.phys s) new v) pageSize)

/-- So are the pages of the kernel's half, before there is a new root. -/
def KernelSettled (o : OverPmm fs) (s : σ) (cr3 : Nat) : Prop :=
  ∀ v, levelFin 3 v = 511 → isPresent (pageEntry (fs.phys s) cr3 v) = true →
    ¬ FrameFree (o.pmm s) (alignDown (pageEntry (fs.phys s) cr3 v) pageSize)
      ∧ ∀ q, q.length ≤ 3 → tableAt (fs.phys s) cr3 q ≠ some (alignDown (pageEntry (fs.phys s) cr3 v) pageSize)

/-- The pages for which `P` holds have got fresh frames in the new address space, all but those
under large pages; the older one has changed in the kernel's half at most. -/
structure Loaded (o : OverPmm fs) (old new : Nat) (P : Nat → Prop) (s s' : σ) : Prop where
  siblings : Siblings o s' old new
  settled : PagesSettled o s' old new
  pmm : ∃ n, o.pmm s' = allocs n (o.pmm s)
  large : ∀ v, UnderLarge (fs.phys s') new v ↔ UnderLarge (fs.phys s) new v
  hit : ∀ v, P v → ¬ UnderLarge (fs.phys s) new v → isPresent (pageEntry (fs.phys s') new v) = true
    ∧ FrameFree (o.pmm s) (alignDown (pageEntry (fs.phys s') new v) pageSize)
  miss : ∀ v, ¬ P v ∨ UnderLarge (fs.phys s) new v → pageEntry (fs.phys s') new v = pageEntry (fs.phys s) new v
  own : OwnKept (fs.phys s) (fs.phys s') old

namespace Loaded

variable {P Q : Nat → Prop}

theorem congr (h : Loaded o old new P s s') (hpq : ∀ v, Q v ↔ P v) : Loaded o old new Q s s' := by
  have : Q = P := funext fun v => propext (hpq v)
  rw [this]
  exact h

theorem trans (h : Loaded o old new P s s₁) (h' : Loaded o old new Q s₁ s') :
    Loaded o old new (fun v => P v ∨ Q v) s s' := by
  obtain ⟨n, hn⟩ := h.pmm
  obtain ⟨n', hn'⟩ := h'.pmm
  have hfree : ∀ a, FrameFree (o.pmm s₁) a → FrameFree (o.pmm s) a := fun a ha => (hn ▸ ha).before
  refine ⟨h'.siblings, h'.settled, ⟨n + n', by rw [hn', hn, allocs_add]⟩,
    fun v => (h'.large v).trans (h.large v),
    fun v hv hl => ?_, fun v hv => ?_, fun q hq hown => ?_, ?_, fun v hv => ?_⟩
  · have hl₁ : ¬ UnderLarge (fs.phys s₁) new v := fun hc => hl ((h.large v).mp hc)
    by_cases hq : Q v
    · obtain ⟨hpresent, hnew⟩ := h'.hit v hq hl₁
      exact ⟨hpresent, hfree _ hnew⟩
    · rw [h'.miss v (Or.inl hq)]
      exact h.hit v (hv.resolve_right hq) hl
  · rcases hv with hv | hl
    · rw [h'.miss v (Or.inl fun hc => hv (Or.inr hc)), h.miss v (Or.inl fun hc => hv (Or.inl hc))]
    · rw [h'.miss v (Or.inr ((h.large v).mpr hl)), h.miss v (Or.inr hl)]
  · rw [h'.own.table q hq hown, h.own.table q hq hown]
  · rw [h'.own.top, h.own.top]
  · rw [h'.own.page v hv, h.own.page v hv]

/-- **Pages on fresh frames.** -/
theorem fresh {va k : Nat} (hf : FreshPages o new va k s s') (hinv : PmmInv (o.pmm s))
    (h : Siblings o s old new)
    (hp : PagesSettled o s old new) :
    Loaded o old new (fun v => ∃ j, j < k ∧ pageOf v = pageOf (va + pageSize * j)) s s' := by
  have hc := hf.changed
  have hpmm : o.pmm s' = allocs (k + (MissingTables (fs.phys s) new va k).ncard) (o.pmm s) :=
    hf.cost.pmm
  have hkept := h.ownKept fun q a j hq hown ha hj => by
    obtain ⟨htaken, hnone⟩ := h.apart q a hq hown ha
    exact hc.bytes a j htaken hnone hj
  have hsib := h.step hkept hc.space hc.taken hc.table fun t ht => hc.kept [511] t (by decide) ht
  have hfresh : ∀ v, (∃ j, j < k ∧ pageOf v = pageOf (va + pageSize * j))
    → ¬ UnderLarge (fs.phys s) new v →
      isPresent (pageEntry (fs.phys s') new v) = true
        ∧ FrameTaken (o.pmm s') (alignDown (pageEntry (fs.phys s') new v) pageSize)
        ∧ ¬ FrameTaken (o.pmm s) (alignDown (pageEntry (fs.phys s') new v) pageSize)
        ∧ ∀ q, q.length ≤ 3 → tableAt (fs.phys s') new q
            ≠ some (alignDown (pageEntry (fs.phys s') new v) pageSize) :=
    fun v ⟨j, hj, hv⟩ hl => (hf.new v j hj hv hl).value hc.space.inv
  have hmiss : ∀ v, ¬ (∃ j, j < k ∧ pageOf v = pageOf (va + pageSize * j))
    ∨ UnderLarge (fs.phys s) new v →
      pageEntry (fs.phys s') new v = pageEntry (fs.phys s) new v :=
    fun v hv => hf.old v (hv.imp_left fun hn j hj hvj => hn ⟨j, hj, hvj⟩)
  refine ⟨hsib, fun v hpresent => ?_, ⟨_, hpmm⟩, hc.large, fun v hv hl => ?_, hmiss, hkept⟩
  · by_cases hnew : (∃ j, j < k ∧ pageOf v = pageOf (va + pageSize * j))
      ∧ ¬ UnderLarge (fs.phys s) new v
    · obtain ⟨_, htaken, hnot, hnone⟩ := hfresh v hnew.1 hnew.2
      refine ⟨htaken.not_free hc.space.inv, hnone, hsib.no_table hnone fun q hq hown ha => ?_⟩
      rw [hkept.table q hq hown] at ha
      exact hnot (h.apart q _ hq hown ha).1
    · have hsame := hmiss v (by
        by_cases hl : UnderLarge (fs.phys s) new v
        · exact Or.inr hl
        · exact Or.inl fun hc => hnew ⟨hc, hl⟩)
      rw [hsame] at hpresent ⊢
      obtain ⟨hnotFree, hnone, hnone'⟩ := hp v hpresent
      -- a table that is new was handed out, and this frame was not
      have hnone₁ : ∀ q, q.length ≤ 3 →
          tableAt (fs.phys s') new q ≠ some (alignDown (pageEntry (fs.phys s) new v) pageSize) := by
        intro q hq ha
        rcases hc.table q _ hq ha with hold | hnot
        · exact hnone q hq hold
        · have htaken := hc.space.taken q _ hq ha
          rw [hpmm] at htaken
          rcases frameTaken_allocs hinv htaken with hin | hfree
          · exact hnot hin
          · exact hnotFree hfree
      refine ⟨fun hfree => hnotFree (hpmm ▸ hfree).before, hnone₁,
        hsib.no_table hnone₁ fun q hq hown ha => ?_⟩
      rw [hkept.table q hq hown] at ha
      exact hnone' q hq ha
  · obtain ⟨hpresent, htaken, hnot, _⟩ := hfresh v hv hl
    rw [hpmm] at htaken
    exact ⟨hpresent, (frameTaken_allocs hinv htaken).resolve_left hnot⟩

/-- **Bytes on the pages.** -/
theorem bytes (hk : TablesKept o new s s') (ho : OnPages (fs.phys s) (fs.phys s') new)
    (h : Siblings o s old new)
    (hp : PagesSettled o s old new) : Loaded o old new (fun _ => False) s s' := by
  have hkept := h.ownKept fun q a k hq hown ha hk' => by
    by_contra hne
    obtain ⟨v, hpresent, hlo, hhi⟩ := ho (a + k) hne
    have hnone := (hp v hpresent).2.2 q hq
    have h1 := ((h.apart q a hq hown ha).1.isFrame h.space.inv).1
    have h2 := alignDown_pageSize (pageEntry (fs.phys s) new v)
    have hdiff : a ≠ alignDown (pageEntry (fs.phys s) new v) pageSize := fun hc => hnone (hc ▸ ha)
    generalize alignDown (pageEntry (fs.phys s) new v) pageSize = frame at hlo hhi h2 hdiff
    rw [show pageSize = 4096 from rfl] at *
    omega
  have hsib := h.step hkept hk.space (fun a ha => hk.pmm ▸ ha)
    (fun q a hq ha => Or.inl ((hk.table q hq).symm.trans ha))
    fun t ht => (hk.table [511] (by decide)).trans ht
  refine ⟨hsib, fun v hpresent => ?_, ⟨0, hk.pmm⟩, fun v => hk.underLarge_iff v,
    fun _ hf => hf.elim,
    fun v _ => hk.pageEntry_eq v, hkept⟩
  rw [hk.pageEntry_eq] at hpresent ⊢
  obtain ⟨hnotFree, hnone, hnone'⟩ := hp v hpresent
  have hnone₁ : ∀ q, q.length ≤ 3 →
      tableAt (fs.phys s') new q ≠ some (alignDown (pageEntry (fs.phys s) new v) pageSize) := by
    intro q hq
    rw [hk.table q hq]
    exact hnone q hq
  refine ⟨hk.pmm ▸ hnotFree, hnone₁, hsib.no_table hnone₁ fun q hq hown => ?_⟩
  rw [hkept.table q hq hown]
  exact hnone' q hq

/-- **What has become of the older address space**: all its translations are what they were, unless
a page of the kernel's half, which is of both, has got a fresh frame. -/
theorem pageFrames_iff (h : Loaded o old new P s s') (hs : Siblings o s old new)
    (hp : PagesSettled o s old new) :
    (∀ v, pageFrame (fs.phys s') old v = pageFrame (fs.phys s) old v)
      ↔ ∀ v, P v → levelFin 3 v = 511 → tableAt (fs.phys s) old [511] ≠ none
        → UnderLarge (fs.phys s) new v := by
  constructor
  · intro hall v hv hhalf htop
    by_contra hl
    obtain ⟨hpresent, hfree⟩ := h.hit v hv hl
    have hsame := hall v
    unfold pageFrame at hsame
    rw [h.siblings.pageEntry_shared hhalf (by rw [h.own.top]; exact htop),
      hs.pageEntry_shared hhalf htop,
      if_pos hpresent] at hsame
    by_cases hbefore : isPresent (pageEntry (fs.phys s) new v) = true
    · rw [if_pos hbefore] at hsame
      rw [Option.some.inj hsame] at hfree
      exact (hp v hbefore).1 hfree
    · rw [if_neg hbefore] at hsame
      cases hsame
  · intro hcond v
    unfold pageFrame
    by_cases hhalf : levelFin 3 v = 511
    · by_cases htop : tableAt (fs.phys s) old [511] = none
      · rw [pageEntry_no_half hhalf htop, pageEntry_no_half hhalf (h.own.top.trans htop)]
      · rw [h.siblings.pageEntry_shared hhalf (by rw [h.own.top]; exact htop),
          hs.pageEntry_shared hhalf htop, h.miss v]
        by_cases hv : P v
        · exact Or.inr (hcond v hv hhalf htop)
        · exact Or.inl hv
    · rw [h.own.page v hhalf]

end Loaded

/-- A new root has the kernel's pages, and no others. -/
theorem RootMade.settled (h : RootMade o old s s' new) (hs : Space o s old)
    (hk : KernelSettled o s old)
    (hpmm : ∃ n, o.pmm s' = allocs n (o.pmm s)) : PagesSettled o s' old new := by
  obtain ⟨n, hn⟩ := hpmm
  obtain ⟨_, htables, hentries⟩ := h.current hs
  have hsib := h.siblings hs
  intro v hpresent
  have hhalf : levelFin 3 v = 511 := by
    by_contra hne
    have hzero : pageEntry (fs.phys s') new v = 0 := by
      unfold pageEntry pteOf entryOn
      rw [show route v 3 = levelFin 3 v :: route v 2 from rfl, h.tableAt_rest hne]
      rfl
    rw [hzero] at hpresent
    exact absurd hpresent (by decide)
  have hsame : pageEntry (fs.phys s') new v = pageEntry (fs.phys s) old v := by
    have hroute : tableAt (fs.phys s') new (route v 3) = tableAt (fs.phys s) old (route v 3) := by
      rw [show route v 3 = 511 :: route v 2 by rw [route, hhalf]]
      exact h.tableAt_shared hs _ (by rw [route_length])
    have hentry := hentries (route v 3) (levelFin 0 v) (by rw [route_length])
    have htable := htables (route v 3) (by rw [route_length])
    unfold pageEntry pteOf
    rw [← hentry]
    unfold entryOn
    rw [hroute, htable]
  rw [hsame] at hpresent ⊢
  obtain ⟨hnotFree, hnone⟩ := hk v hhalf hpresent
  have hnone' : ∀ q, q.length ≤ 3 →
      tableAt (fs.phys s') old q ≠ some (alignDown (pageEntry (fs.phys s) old v) pageSize) := by
    intro q hq
    rw [htables q hq]
    exact hnone q hq
  refine ⟨fun hfree => hnotFree (hn ▸ hfree).before, fun q hq ha => ?_, hnone'⟩
  cases q with
  | nil =>
      -- the root was handed out
      have hroot : new = alignDown (pageEntry (fs.phys s) old v) pageSize := Option.some.inj ha
      have htaken := h.taken
      rw [hn] at htaken
      exact hnotFree (hroot ▸ (frameTaken_allocs hs.inv htaken).resolve_left h.fresh)
  | cons i r =>
      by_cases hi : i = 511
      · subst hi
        rw [List.length_cons] at hq
        rw [h.tableAt_shared hs r (by omega)] at ha
        exact hnone (511 :: r) (by rw [List.length_cons]; omega) ha
      · rw [h.tableAt_rest hi] at ha
        cases ha

end VnlKernel
