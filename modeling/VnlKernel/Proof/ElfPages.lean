import VnlKernel.Proof.ElfReads
import VnlKernel.Proof.Siblings

/-!
# The pages that a file asks for

Which pages the loader maps is written in the file, segment after segment, up to a header
that it refuses. It maps them in that order until memory runs out, and what the first of
them cost, with their tables, can be counted before any is mapped.
-/

namespace VnlKernel

open ByteMem Bits Radix

/-! ## What a list of pages costs -/

/-- The tables that are missing for these pages, as paths. -/
def MissingFor (m : Mem) (root : Nat) (vas : List Nat) : Set (List (Fin 512)) :=
  {p | tableAt m root p = none ∧ ∃ va ∈ vas, p <+: route va 3 ∧ ¬ UnderLarge m root va}

/-- The frames that these pages take, with their tables. -/
noncomputable def framesFor (m : Mem) (root : Nat) (vas : List Nat) : Nat := vas.length + (MissingFor m root vas).ncard

/-- `k` pages from `va` on. -/
def pageRange (va k : Nat) : List Nat := (List.range k).map fun j => va + pageSize * j

section Cost

variable {m : Mem} {root va k : Nat} {vas vas' : List Nat}

theorem mem_pageRange {x : Nat} : x ∈ pageRange va k ↔ ∃ j, j < k ∧ x = va + pageSize * j := by
  unfold pageRange
  rw [List.mem_map]
  constructor
  · intro ⟨j, hj, hx⟩
    exact ⟨j, List.mem_range.mp hj, hx.symm⟩
  · intro ⟨j, hj, hx⟩
    exact ⟨j, List.mem_range.mpr hj, hx.symm⟩

theorem pageRange_mono {n : Nat} (h : k ≤ n) : pageRange va k <+: pageRange va n := by
  obtain ⟨d, rfl⟩ := Nat.exists_eq_add_of_le h
  unfold pageRange
  rw [List.range_add, List.map_append]
  exact List.prefix_append _ _

theorem missingFor_range : MissingFor m root (pageRange va k) = MissingTables m root va k := by
  refine Set.ext fun p => ⟨?_, ?_⟩
  · intro ⟨hnone, x, hx, hp, hl⟩
    obtain ⟨j, hj, rfl⟩ := mem_pageRange.mp hx
    exact ⟨hnone, j, hj, hp, hl⟩
  · intro ⟨hnone, j, hj, hp, hl⟩
    exact ⟨hnone, _, mem_pageRange.mpr ⟨j, hj, rfl⟩, hp, hl⟩

theorem missingFor_nil : MissingFor m root [] = ∅ := by
  refine Set.eq_empty_of_forall_notMem ?_
  intro p ⟨_, va, hva, _⟩
  cases hva

theorem framesFor_nil : framesFor m root [] = 0 := by
  unfold framesFor
  rw [missingFor_nil, Set.ncard_empty]
  rfl

theorem missingFor_finite (m : Mem) (root : Nat)
    (vas : List Nat) : (MissingFor m root vas).Finite := by
  refine (List.finite_length_le (Fin 512) 3).subset ?_
  exact fun p ⟨_, va, _, hp, _⟩ => route_init_le hp

/-- More pages cost more. -/
theorem framesFor_le (m : Mem) (root : Nat) (h : vas <+: vas') :
    vas'.length + framesFor m root vas ≤ vas.length + framesFor m root vas' := by
  have hsub : MissingFor m root vas ⊆ MissingFor m root vas' := by
    intro p ⟨hnone, va, hva, hrest⟩
    exact ⟨hnone, va, h.subset hva, hrest⟩
  have := Set.ncard_le_ncard hsub (missingFor_finite m root vas')
  unfold framesFor
  omega

/-- **Which pages are among the first that memory sufficed for.** -/
theorem lt_length_iff {free free' : Nat} (hpre : vas <+: vas')
    (hcount : free = free' + framesFor m root vas)
    (hend : vas = vas' ∨ free' = 0) (hk : k < vas'.length) :
    k < vas.length ↔ framesFor m root (vas'.take k) < free := by
  have hlen := hpre.length_le
  constructor
  · intro hlt
    have htake : vas'.take k <+: vas := by
      refine List.prefix_of_prefix_length_le (List.take_prefix k vas') hpre ?_
      rw [List.length_take]
      omega
    have hle := framesFor_le m root htake
    rw [List.length_take] at hle
    omega
  · intro hlt
    by_contra hge
    have hfree : free' = 0 := by
      rcases hend with rfl | h0
      · exact absurd hk hge
      · exact h0
    have htake : vas <+: vas'.take k := by
      refine List.prefix_of_prefix_length_le hpre (List.take_prefix k vas') ?_
      rw [List.length_take]
      omega
    have hle := framesFor_le m root htake
    rw [List.length_take] at hle
    omega

end Cost

variable {σ : Type} {fs : FrameService σ} {o : OverPmm fs} {old new : Nat} {s s₁ s' : σ}

/-- These pages have been mapped to fresh frames in the new address space, and this is what has been
spent on it. -/
structure LoadedPages (o : OverPmm fs) (old new : Nat) (vas : List Nat) (s s' : σ) : Prop where
  loaded : Loaded o old new (fun v => ∃ va ∈ vas, pageOf v = pageOf va) s s'
  count : (o.pmm s).freeFrames = (o.pmm s').freeFrames + framesFor (fs.phys s) new vas
  tables : ∀ q, q.length ≤ 3 → (tableAt (fs.phys s') new q = none
    ↔ tableAt (fs.phys s) new q = none ∧ q ∉ MissingFor (fs.phys s) new vas)

namespace LoadedPages

variable {vas vas' : List Nat}

theorem bytes (hk : TablesKept o new s s') (ho : OnPages (fs.phys s) (fs.phys s') new)
    (h : Siblings o s old new)
    (hp : PagesSettled o s old new) : LoadedPages o old new [] s s' := by
  refine ⟨(Loaded.bytes hk ho h hp).congr fun v => ?_, ?_, fun q hq => ?_⟩
  · simp
  · rw [framesFor_nil, hk.pmm]
    rfl
  · rw [missingFor_nil, hk.table q hq]
    simp

theorem nil (h : Siblings o s old new) (hp : PagesSettled o s old new) :
    LoadedPages o old new [] s s :=
  .bytes (.refl h.space) (fun _ hx => absurd rfl hx) h hp

theorem fresh {va k : Nat} (hf : FreshPages o new va k s s') (h : Siblings o s old new)
    (hp : PagesSettled o s old new) : LoadedPages o old new (pageRange va k) s s' := by
  refine ⟨(Loaded.fresh hf h.space.inv h hp).congr fun v => ?_, ?_, ?_⟩
  · constructor
    · intro ⟨x, hx, hv⟩
      obtain ⟨j, hj, rfl⟩ := mem_pageRange.mp hx
      exact ⟨j, hj, hv⟩
    · intro ⟨j, hj, hv⟩
      exact ⟨_, mem_pageRange.mpr ⟨j, hj, rfl⟩, hv⟩
  · unfold framesFor pageRange
    rw [List.length_map, List.length_range]
    have hcount := hf.cost.count
    rw [← missingFor_range] at hcount
    exact hcount
  · rw [missingFor_range]
    exact hf.cost.tables

/-- First some pages, then others. -/
theorem append (h : LoadedPages o old new vas s s₁) (h' : LoadedPages o old new vas' s₁ s') :
    LoadedPages o old new (vas ++ vas') s s' := by
  have hset : MissingFor (fs.phys s) new (vas ++ vas')
      = MissingFor (fs.phys s) new vas ∪ MissingFor (fs.phys s₁) new vas' := by
    refine Set.ext fun q => ⟨?_, ?_⟩
    · intro ⟨hnone, va, hva, hq, hl⟩
      by_cases hfirst : q ∈ MissingFor (fs.phys s) new vas
      · exact Or.inl hfirst
      · rcases List.mem_append.mp hva with hin | hin
        · exact absurd ⟨hnone, va, hin, hq, hl⟩ hfirst
        · exact Or.inr ⟨(h.tables q (route_init_le hq)).mpr ⟨hnone, hfirst⟩, va, hin, hq,
            fun hc => hl ((h.loaded.large _).mp hc)⟩
    · intro hq
      rcases hq with ⟨hnone, va, hva, hq, hl⟩ | ⟨hnone, va, hva, hq, hl⟩
      · exact ⟨hnone, va, List.mem_append_left _ hva, hq, hl⟩
      · exact ⟨((h.tables q (route_init_le hq)).mp hnone).1, va, List.mem_append_right _ hva, hq,
          fun hc => hl ((h.loaded.large _).mpr hc)⟩
  have hdisj : Disjoint (MissingFor (fs.phys s) new vas) (MissingFor (fs.phys s₁) new vas') := by
    refine Set.disjoint_left.mpr ?_
    intro q hq ⟨hnone, va, _, hon, _⟩
    exact ((h.tables q (route_init_le hon)).mp hnone).2 hq
  have hcard := Set.ncard_union_eq hdisj (missingFor_finite _ _ _) (missingFor_finite _ _ _)
  rw [← hset] at hcard
  refine ⟨(h.loaded.trans h'.loaded).congr fun v => ?_, ?_, fun q hq => ?_⟩
  · constructor
    · intro ⟨va, hva, hv⟩
      rcases List.mem_append.mp hva with hin | hin
      · exact Or.inl ⟨va, hin, hv⟩
      · exact Or.inr ⟨va, hin, hv⟩
    · intro hor
      rcases hor with ⟨va, hin, hv⟩ | ⟨va, hin, hv⟩
      · exact ⟨va, List.mem_append_left _ hin, hv⟩
      · exact ⟨va, List.mem_append_right _ hin, hv⟩
  · have h1 := h.count
    have h2 := h'.count
    unfold framesFor at *
    rw [List.length_append, hcard]
    omega
  · rw [h'.tables q hq, h.tables q hq, hset]
    exact ⟨fun ⟨⟨h1, h2⟩, h3⟩ => ⟨h1, fun hc => hc.elim h2 h3⟩,
      fun ⟨h1, h2⟩ => ⟨⟨h1, fun hc => h2 (Or.inl hc)⟩, fun hc => h2 (Or.inr hc)⟩⟩

end LoadedPages

/-! ## The loader -/

/-- The loader goes on after this segment, if there are frames for it. -/
def SegmentGood (elfLen : Nat) (ph : Elf64Phdr) : Prop :=
  alignDown ph.pVaddr pageSize ≤ alignUpPage (u64 (ph.pVaddr + ph.pMemsz)) ∧ u64 (ph.pOffset + ph.pFilesz) ≤ elfLen

instance (elfLen : Nat) (ph : Elf64Phdr) : Decidable (SegmentGood elfLen ph) := inferInstanceAs (Decidable (_ ∧ _))

/-- The pages that the headers from `i` on ask for, with `n` left. -/
def elfPages (elf : Mem) (elfLen : Nat) (eh : Elf64Ehdr) : Nat → Nat → List Nat
  | 0, _ => []
  | n + 1, i =>
      let ph := elf64Phdr elf (phdrAt eh i)
      if ph.pType ≠ ptLoad then elfPages elf elfLen eh n (i + 1)
      else
        pageRange (alignDown ph.pVaddr pageSize) (segmentPages ph)
          ++ if SegmentGood elfLen ph then elfPages elf elfLen eh n (i + 1) else []

/-- The pages that a file asks for. -/
def elfFilePages (elf : Mem) (elfLen : Nat) : List Nat :=
  if elfLen < elf64EhdrSize ∨ !ehdrValid (elf64Ehdr elf) elfLen then []
  else elfPages elf elfLen (elf64Ehdr elf) (elf64Ehdr elf).ePhnum 0

section Loader

variable {elfLen : Nat}

/-- A segment gets all its pages, or those that there are frames for. -/
theorem elfLoadSegment_loaded (elf : Mem) {ph : Elf64Phdr} (hm : FlatMemory fs)
    (h : Siblings o s old new)
    (hp : PagesSettled o s old new) {r : Int}
    (hrun : (elfLoadSegment fs new elf elfLen ph s).out = .done (s', r)) :
    ∃ vas, LoadedPages o old new vas s s'
      ∧ (vas <+: pageRange (alignDown ph.pVaddr pageSize) (segmentPages ph) ∧ r ≠ 0
        ∧ (o.pmm s').freeFrames = 0
        ∨ vas = pageRange (alignDown ph.pVaddr pageSize) (segmentPages ph)
          ∧ (r = 0 ↔ SegmentGood elfLen ph)) := by
  unfold elfLoadSegment at hrun
  dsimp only at hrun
  by_cases hv : alignUpPage (u64 (ph.pVaddr + ph.pMemsz)) < alignDown ph.pVaddr pageSize
  · rw [if_pos hv] at hrun
    cases hrun
    -- the end wraps around and no page is asked for
    have hzero : segmentPages ph = 0 := by
      unfold segmentPages
      rw [Nat.sub_eq_zero_of_le (Nat.le_of_lt hv)]
      rfl
    refine ⟨[], .nil h hp, Or.inr ⟨by rw [hzero]; rfl, ?_⟩⟩
    unfold SegmentGood
    constructor
    · intro hc
      exact absurd hc (by decide)
    · intro hc
      omega
  rw [if_neg hv, Logged.bind_out] at hrun
  obtain ⟨⟨s₁, all⟩, hmap, hrun⟩ := Outcome.bind_eq_done hrun
  obtain ⟨k, hk, hfresh, hall, hempty⟩ := mapFreshPages_fresh hm _ _ h.space hmap
  have hpages := LoadedPages.fresh hfresh h hp
  dsimp only at hrun
  cases all with
  | false =>
      rw [if_pos (by decide)] at hrun
      cases hrun
      -- the frames ran out: the first pages stay mapped
      exact ⟨_, hpages, Or.inl ⟨pageRange_mono hk, by decide, hempty rfl⟩⟩
  | true =>
      rw [if_neg (by decide)] at hrun
      have hk' : k = segmentPages ph := hall.mp rfl
      rw [hk'] at hpages
      -- the pages are there, whether the contents are in the file or not
      by_cases hsum : elfLen < u64 (ph.pOffset + ph.pFilesz)
      · rw [if_pos hsum] at hrun
        cases hrun
        refine ⟨_, hpages, Or.inr ⟨rfl, ?_⟩⟩
        unfold SegmentGood
        constructor
        · intro hc
          exact absurd hc (by decide)
        · intro hc
          omega
      · rw [if_neg hsum, Logged.bind_out] at hrun
        have hoff : PagesOff (fs.phys s₁) new new :=
          fun v hpresent => (hpages.loaded.settled v hpresent).2.1
        obtain ⟨s₂, hcopy, hkept, hon⟩ := vnlCopyToUserVa_kept hm ph.pVaddr
          (fun i => do
            Logged.note (Access.span (u64 (ph.pOffset + i) + 1) elfLen)
            return elf (u64 (ph.pOffset + i)))
              (fun i => ⟨_, rfl⟩) ph.pFilesz 0 hpages.loaded.siblings.space hoff
        rw [hcopy] at hrun
        cases hrun
        have hboth := hpages.append (.bytes hkept hon hpages.loaded.siblings hpages.loaded.settled)
        rw [List.append_nil] at hboth
        refine ⟨_, hboth, Or.inr ⟨rfl, fun _ => ?_, fun _ => rfl⟩⟩
        exact ⟨by omega, by omega⟩

/-- **The loop** maps the pages in the order of the file. -/
theorem elfLoadLoop_loaded (elf : Mem) {eh : Elf64Ehdr} (hm : FlatMemory fs) :
    ∀ (n i maxEnd : Nat) {s s' : σ}
    {r : Except Int Nat}, Siblings o s old new → PagesSettled o s old new →
    (elfLoadLoop fs new elf elfLen eh n i maxEnd s).out = .done (s', r) →
    ∃ vas, vas <+: elfPages elf elfLen eh n i ∧ LoadedPages o old new vas s s'
      ∧ (vas = elfPages elf elfLen eh n i ∨ (o.pmm s').freeFrames = 0) := by
  intro n
  induction n with
  | zero =>
      intro i maxEnd s s' r h hp hrun
      cases hrun
      exact ⟨[], List.prefix_rfl, .nil h hp, Or.inl rfl⟩
  | succ n ih =>
      intro i maxEnd s s' r h hp hrun
      rw [elfLoadLoop, Logged.bind_out, Logged.note_out, Outcome.bind_done] at hrun
      dsimp only at hrun
      rw [elfPages]
      by_cases hload : (elf64Phdr elf (phdrAt eh i)).pType = ptLoad
      · rw [if_neg (fun hc => hc hload), Logged.bind_out] at hrun
        rw [if_neg (fun hc => hc hload)]
        obtain ⟨⟨s₁, r₁⟩, hsegment, hrun⟩ := Outcome.bind_eq_done hrun
        obtain ⟨vas, hpages, hor⟩ := elfLoadSegment_loaded elf hm h hp hsegment
        dsimp only at hrun
        by_cases hr : r₁ = 0
        · rw [if_neg (fun hc => hc hr)] at hrun
          rcases hor with ⟨_, hne, _⟩ | ⟨rfl, hgood⟩
          · exact absurd hr hne
          · rw [if_pos (hgood.mp hr)]
            obtain ⟨vas', hpre, hrest, hend⟩ :=
              ih (i + 1) _ hpages.loaded.siblings hpages.loaded.settled hrun
            refine ⟨_, (List.prefix_append_right_inj _).mpr hpre, hpages.append hrest, ?_⟩
            rcases hend with rfl | h0
            · exact Or.inl rfl
            · exact Or.inr h0
        · rw [if_pos hr] at hrun
          cases hrun
          rcases hor with ⟨hpre, _, h0⟩ | ⟨rfl, hgood⟩
          · exact ⟨vas, hpre.trans (List.prefix_append _ _), hpages, Or.inr h0⟩
          · rw [if_neg (fun hc => hr (hgood.mpr hc)), List.append_nil]
            exact ⟨_, List.prefix_rfl, hpages, Or.inl rfl⟩
      · rw [if_pos hload] at hrun ⊢
        exact ih (i + 1) maxEnd h hp hrun

/-- **The loader** maps the pages that the file asks for, all of them or as many as there are frames
for. -/
theorem elfLoadExec_loaded (elf : Mem) (hm : FlatMemory fs) (h : Siblings o s old new)
    (hp : PagesSettled o s old new)
    {r : Except Int (Nat × Nat)} (hrun : (elfLoadExec fs new elf elfLen s).out = .done (s', r)) :
    ∃ vas, vas <+: elfFilePages elf elfLen ∧ LoadedPages o old new vas s s'
      ∧ (vas = elfFilePages elf elfLen ∨ (o.pmm s').freeFrames = 0) := by
  unfold elfLoadExec at hrun
  unfold elfFilePages
  dsimp only at hrun
  by_cases hsize : elfLen < elf64EhdrSize
  · rw [if_pos hsize] at hrun
    cases hrun
    rw [if_pos (Or.inl hsize)]
    exact ⟨[], List.prefix_rfl, .nil h hp, Or.inl rfl⟩
  · rw [if_neg hsize, Logged.bind_out, Logged.note_out, Outcome.bind_done] at hrun
    by_cases hvalid : (!ehdrValid (elf64Ehdr elf) elfLen) = true
    · rw [if_pos hvalid] at hrun
      cases hrun
      rw [if_pos (Or.inr hvalid)]
      exact ⟨[], List.prefix_rfl, .nil h hp, Or.inl rfl⟩
    · rw [if_neg hvalid, Logged.bind_out] at hrun
      obtain ⟨⟨s₁, r₁⟩, hloop, hrun⟩ := Outcome.bind_eq_done hrun
      cases hrun
      rw [if_neg (not_or.mpr ⟨hsize, hvalid⟩)]
      exact elfLoadLoop_loaded elf hm _ 0 0 h hp hloop

end Loader

end VnlKernel
