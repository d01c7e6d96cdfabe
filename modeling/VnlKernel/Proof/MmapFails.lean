import VnlKernel.Kernel.MemCalls
import VnlKernel.Proof.UserPages

/-!
# What a failed `mmap` leaves behind

Where the memory comes from is decided before any of it is mapped: there is none, fresh
frames, or the pages of a device. But the cursor has moved on by then, unless the program
said where the memory is to be; and the loops stop at a page that there is not without
taking back the pages before it. So a call that fails changes nothing only if the program
said where, and the pages until then were mapped like that before.
-/

namespace VnlKernel

open ByteMem Bits Radix

/-- Where the memory comes from. -/
inductive MapSource where
  /-- Nowhere; this is the error. -/
  | refused (e : Int)
  | fresh
  /-- `n` pages of a device. -/
  | device (n : Nat) (page : Nat → Option Nat)

variable {σ : Type} {fs : FrameService σ} {o : OverPmm fs}

/-- A call that returns `r` has failed. -/
def IsErrno (r : Int) : Prop := -4096 < r ∧ r < 0

/-- What the flags, the descriptor and the offset ask for. -/
def mapSource (fb : Option FbRegion) (v : Vfs σ) (len flags : Nat) (fd off : Int) : MapSource :=
  if hasFlag flags vnlMapAnonymous then
    if off ≠ 0 then .refused (-einval) else .fresh
  else if fd < 0 then .refused (-ebadf)
  else
    match vfsNodeFromFd v fd with
    | none => .refused (-enodev)
    | some slot =>
        if (v.nodes slot).type ≠ .chr then .refused (-enodev)
        else if (v.nodes slot).devMajor = devFbMajor then
          match fb with
          | none => .refused (-enodev)
          | some r =>
              if off ≠ 0 then .refused (-einval)
              else .device (alignUpPage (if len > r.byteLen then r.byteLen else len) / pageSize) (fbPage r)
        else if (v.nodes slot).devMajor = devShmMajor then
          .device (alignUpPage len / pageSize) (shmPage v.shm (v.nodes slot).devMinor off)
        else .refused (-enodev)

namespace MapSource

/-- The pages that are mapped without being asked for from the allocator. -/
def page : MapSource → Nat → Option Nat
  | .device _ page => page
  | _ => fun _ => none

/-- Mapping from a source: the address, or an error. -/
def map (fs : FrameService σ) (root va len : Nat) (s : σ) : MapSource → Outcome (σ × Int)
  | .refused e => .done (s, e)
  | .fresh => do
      let (s, all) ← mapFreshPages fs root (alignUpPage len / pageSize) va s
      return (s, if all then toInt64 va else -enomem)
  | .device n page => do
      let (s, all) ← mapDevicePages fs root va page n 0 s
      return (s, if all then toInt64 va else -einval)

/-- An error is an error number, and there are not too many pages. -/
def Sound : MapSource → Prop
  | .refused e => IsErrno e
  | .fresh => True
  | .device n _ => n ≤ 2 ^ 14

/-- It fails when `k` pages have been mapped. -/
def FailsAt (o : OverPmm fs) (s : σ) (root va len k : Nat) : MapSource → Prop
  | .refused _ => k = 0
  | .fresh => k < alignUpPage len / pageSize ∧ (o.pmm s).freeFrames = framesNeeded (fs.phys s) root va k
  | .device n page => k < n ∧ (∀ j, j < k → page j ≠ none) ∧ page k = none

end MapSource

/-- Where the mapping begins. -/
def mmapAt (t : TaskMem) (addr flags : Nat) : Nat :=
  if hasFlag flags vnlMapFixed then alignDown addr pageSize else t.mmapNext

/-- The task afterwards. -/
def mmapTask (t : TaskMem) (len flags : Nat) : TaskMem :=
  if hasFlag flags vnlMapFixed then t else { t with mmapNext := u64 (t.mmapNext + alignUpPage len) }

section Source

variable {fb : Option FbRegion} {v v' : Vfs σ} {t t' : TaskMem} {addr len flags : Nat} {fd off r : Int}

/-- There is no end to the pages of the screen. -/
theorem mapDevicePages_fb {root va : Nat} (reg : FbRegion) : ∀ (n i : Nat) {s s' : σ} {all : Bool},
    mapDevicePages fs root va (fbPage reg) n i s = .done (s', all) → all = true := by
  intro n
  induction n with
  | zero =>
      intro i s s' all h
      cases h
      rfl
  | succ n ih =>
      intro i s s' all h
      obtain ⟨s₁, _, h⟩ := Outcome.bind_eq_done h
      exact ih (i + 1) h

/-- **`SYS_MMAP`** finds a source and maps from it, and the cursor moves in any case. -/
theorem sysMmap_source (hlen : ¬ (len = 0 ∨ len > 64 * 1024 * 1024))
    (h : sysMmap fs fb v t addr len flags fd off = .done (v', t', r)) :
    ∃ s', (mapSource fb v len flags fd off).map fs t.cr3Phys (mmapAt t addr flags) len v.heap.pages
      = .done (s', r)
      ∧ v' = v.setFrames s' ∧ t' = mmapTask t len flags := by
  -- the cursor moves, the table does not
  have htask : (if hasFlag flags vnlMapFixed then t
    else { t with mmapNext := u64 (t.mmapNext + alignUpPage len) }).cr3Phys
      = t.cr3Phys := by
    split
    · rfl
    · rfl
  unfold sysMmap at h
  rw [if_neg hlen] at h
  dsimp only at h
  rw [htask] at h
  change (if hasFlag flags vnlMapAnonymous = true then _ else _) = _ at h
  unfold mapSource
  -- memory of its own
  by_cases hanon : hasFlag flags vnlMapAnonymous = true
  · rw [if_pos hanon] at h ⊢
    by_cases hoff : off ≠ 0
    · rw [if_pos hoff] at h ⊢
      cases h
      exact ⟨_, rfl, rfl, rfl⟩
    · rw [if_neg hoff] at h ⊢
      obtain ⟨⟨s', all⟩, hmap, h⟩ := Outcome.bind_eq_done h
      cases h
      refine ⟨s', ?_, rfl, rfl⟩
      change Outcome.bind _ _ = _
      rw [show mapFreshPages fs t.cr3Phys (alignUpPage len / pageSize)
        (mmapAt t addr flags) v.heap.pages = _ from hmap]
      rfl
  rw [if_neg hanon] at h ⊢
  -- a file: only a device has pages to map
  by_cases hfd : fd < 0
  · rw [if_pos hfd] at h ⊢
    cases h
    exact ⟨_, rfl, rfl, rfl⟩
  rw [if_neg hfd] at h ⊢
  cases hnode : vfsNodeFromFd v fd with
  | none =>
      rw [hnode] at h
      cases h
      exact ⟨_, rfl, rfl, rfl⟩
  | some slot =>
      rw [hnode] at h
      dsimp only at h ⊢
      by_cases hchr : (v.nodes slot).type ≠ .chr
      · rw [if_pos hchr] at h ⊢
        cases h
        exact ⟨_, rfl, rfl, rfl⟩
      rw [if_neg hchr] at h ⊢
      -- the frame buffer
      by_cases hfb : (v.nodes slot).devMajor = devFbMajor
      · rw [if_pos hfb] at h ⊢
        cases fb with
        | none =>
            cases h
            exact ⟨_, rfl, rfl, rfl⟩
        | some reg =>
            dsimp only at h ⊢
            by_cases hoff : off ≠ 0
            · rw [if_pos hoff] at h ⊢
              cases h
              exact ⟨_, rfl, rfl, rfl⟩
            · rw [if_neg hoff] at h ⊢
              obtain ⟨⟨s', all⟩, hmap, h⟩ := Outcome.bind_eq_done h
              obtain rfl := mapDevicePages_fb reg _ _ hmap
              cases h
              refine ⟨s', ?_, rfl, rfl⟩
              change Outcome.bind (mapDevicePages fs t.cr3Phys (mmapAt t addr flags) _ _ _ _) _ = _
              rw [show mapDevicePages fs t.cr3Phys (mmapAt t addr flags)
                (fbPage reg) _ 0 v.heap.pages = _ from hmap]
              rfl
      · rw [if_neg hfb] at h ⊢
        -- a shared object
        by_cases hshm : (v.nodes slot).devMajor = devShmMajor
        · rw [if_pos hshm] at h ⊢
          obtain ⟨⟨s', all⟩, hmap, h⟩ := Outcome.bind_eq_done h
          cases h
          refine ⟨s', ?_, rfl, rfl⟩
          change Outcome.bind (mapDevicePages fs t.cr3Phys (mmapAt t addr flags) _ _ _ _) _ = _
          rw [show mapDevicePages fs t.cr3Phys (mmapAt t addr flags)
            (shmPage v.shm (v.nodes slot).devMinor off) _ 0 v.heap.pages = _ from hmap]
          rfl
        · rw [if_neg hshm] at h ⊢
          cases h
          exact ⟨_, rfl, rfl, rfl⟩

/-- **Every source is sound.** -/
theorem mapSource_sound (fb : Option FbRegion) (v : Vfs σ) {len : Nat} (flags : Nat) (fd off : Int)
    (hlen : len ≤ 64 * 1024 * 1024) : (mapSource fb v len flags fd off).Sound := by
  have hcases : ∀ {a b : MapSource} {c : Prop} [Decidable c], a.Sound → b.Sound
      → (if c then a else b).Sound := by
    intro a b c _ ha hb
    split
    · exact ha
    · exact hb
  have herror : ∀ {e : Int}, -4096 < e ∧ e < 0 → (MapSource.refused e).Sound := fun he => he
  have hpages : ∀ {n : Nat} (page : Nat → Option Nat),
      n ≤ len → (MapSource.device (alignUpPage n / pageSize) page).Sound := by
    intro n page hn
    obtain ⟨_, hup, hdvd⟩ := alignUpPage_spec (v := n) (by omega)
    change alignUpPage n / pageSize ≤ 2 ^ 14
    rw [show pageSize = 4096 from rfl]
    omega
  unfold mapSource
  refine hcases (hcases (herror (by decide)) trivial) (hcases (herror (by decide)) ?_)
  cases vfsNodeFromFd v fd with
  | none => exact herror (by decide)
  | some slot =>
      refine hcases (herror (by decide))
        (hcases ?_ (hcases (hpages _ (Nat.le_refl len)) (herror (by decide))))
      cases fb with
      | none => exact herror (by decide)
      | some reg =>
          refine hcases (herror (by decide)) (hpages _ ?_)
          split
          · omega
          · exact Nat.le_refl len

end Source

/-! ## Pages of a device -/

section Device

variable {root va i j k : Nat} {page : Nat → Option Nat} {s s₁ s' : σ}

/-- The pages from `i` on, `k` of them, have been mapped to those of a device. -/
structure DevicePages (o : OverPmm fs) (root va : Nat) (page : Nat → Option Nat) (i k : Nat) (s s' : σ) : Prop where
  changed : Changed o root s s'
  only : OnlyTables o root s s'
  found : ∀ j, i ≤ j → j < i + k → page j ≠ none
  /-- The page that comes last where several are one. -/
  new : ∀ v j, i ≤ j → j < i + k → pageOf v = pageOf (va + pageSize * j) →
    (∀ l, i ≤ l → l < i + k → pageOf v = pageOf (va + pageSize * l) → l ≤ j) → ¬ UnderLarge (fs.phys s) root v →
    ∀ phys, page j = some phys → pageEntry (fs.phys s') root v = pteValue phys userPageFlags
  old : ∀ v, (∀ j, i ≤ j → j < i + k → pageOf v ≠ pageOf (va + pageSize * j)) ∨ UnderLarge (fs.phys s) root v →
    pageEntry (fs.phys s') root v = pageEntry (fs.phys s) root v

theorem DevicePages.none (hs : Space o s root) (va : Nat) (page : Nat → Option Nat) (i : Nat) :
    DevicePages o root va page i 0 s s :=
  ⟨.refl hs, .still rfl, fun _ _ hj => absurd hj (by omega), fun _ _ _ hj => absurd hj (by omega),
    fun _ _ => rfl⟩

/-- First a page, then the pages after it. -/
theorem DevicePages.cons (hm : FlatMemory fs) (hs : Space o s root) {phys : Nat}
    (hpage : page i = some phys)
    (h : vmmMapInPml4 fs s root (u64 (va + i * pageSize)) phys userPageFlags = .done s₁)
    (h' : DevicePages o root va page (i + 1) k s₁ s') :
    DevicePages o root va page i (k + 1) s s' := by
  have hmaps := vmmMapInPml4_maps hm hs (show userPageFlags < 2 ^ 64 by decide) h
  have honly := vmmMapInPml4_onlyTables hm hs (show userPageFlags < 2 ^ 64 by decide) h
  have hat : pageOf (u64 (va + i * pageSize)) = pageOf (va + pageSize * i) := by
    rw [pageOf_u64, Nat.mul_comm]
  refine ⟨hmaps.changed.trans h'.changed, honly.trans h'.only h'.changed, fun j h1 h2 => ?_,
    fun v j h1 h2 hv hlast hl phys' hphys => ?_, fun v hv => ?_⟩
  · by_cases hij : j = i
    · rw [hij, hpage]
      exact Option.some_ne_none _
    · exact h'.found j (by omega) (by omega)
  · have hl₁ : ¬ UnderLarge (fs.phys s₁) root v := fun hc => hl ((hmaps.changed.large v).mp hc)
    by_cases hij : j = i
    · subst hij
      rw [hpage] at hphys
      cases hphys
      rw [h'.old v (Or.inl fun l hl1 hl2 hvl => ?_), hmaps.here v (hv.trans hat.symm) hl]
      have := hlast l (by omega) (by omega) hvl
      omega
    · exact h'.new v j (by omega) (by omega) hv
        (fun l hl1 hl2 => hlast l (by omega) (by omega)) hl₁ phys' hphys
  · rcases hv with hne | hl
    · rw [h'.old v (Or.inl fun l hl1 hl2 => hne l (by omega) (by omega)), hmaps.other v fun hc =>
        hne i (Nat.le_refl i) (by omega) (hc.trans hat)]
    · rw [h'.old v (Or.inr ((hmaps.changed.large v).mpr hl)), hmaps.large v hl]

/-- **The loops over the pages of a device**: all of them, or those before one that there is not. -/
theorem mapDevicePages_pages (hm : FlatMemory fs) (root va : Nat) (page : Nat → Option Nat) :
    ∀ (n i : Nat) {s s' : σ} {all : Bool}, Space o s root →
    mapDevicePages fs root va page n i s = .done (s', all) →
    ∃ k, DevicePages o root va page i k s s' ∧ (all = true → k = n)
      ∧ (all = false → k < n ∧ page (i + k) = Option.none) := by
  intro n
  induction n with
  | zero =>
      intro i s s' all hs h
      cases h
      exact ⟨0, .none hs va page i, fun _ => rfl, fun hc => Bool.noConfusion hc⟩
  | succ n ih =>
      intro i s s' all hs h
      rw [mapDevicePages] at h
      cases hpage : page i with
      | none =>
          rw [hpage] at h
          cases h
          exact ⟨0, .none hs va page i, fun hc => Bool.noConfusion hc,
            fun _ => ⟨Nat.succ_pos n, hpage⟩⟩
      | some phys =>
          rw [hpage] at h
          obtain ⟨s₁, hmap, h⟩ := Outcome.bind_eq_done h
          have hs₁ := (vmmMapInPml4_maps hm hs
            (show userPageFlags < 2 ^ 64 by decide) hmap).changed.space
          obtain ⟨k, hrest, hall, hstop⟩ := ih (i + 1) hs₁ h
          refine ⟨k + 1, .cons hm hs hpage hmap hrest, fun ht => ?_, fun hf => ?_⟩
          · rw [hall ht]
          · obtain ⟨hk, hnone⟩ := hstop hf
            rw [show i + 1 + k = i + (k + 1) by omega] at hnone
            exact ⟨by omega, hnone⟩

end Device

/-! ## What a failed call has done -/

section Fails

variable {root va len : Nat} {s s' : σ} {src : MapSource} {r : Int}

/-- Every translation is what it was, and frames were taken for tables only. -/
def MemoryUndone (o : OverPmm fs) (root : Nat) (s s' : σ) : Prop :=
  (∀ v, pageFrame (fs.phys s') root v = pageFrame (fs.phys s) root v)
    ∧ (∀ a, FrameTaken (o.pmm s) a → FrameTaken (o.pmm s') a) ∧ OnlyTables o root s s'

/-- Page `j` is mapped as the source wants it already, or cannot be mapped. -/
def MapSource.Same (src : MapSource) (m : Mem) (root va j : Nat) : Prop :=
  ∃ phys, src.page j = some phys ∧ (UnderLarge m root (va + pageSize * j)
    ∨ pageFrame m root (va + pageSize * j) = some (alignDown phys pageSize))

theorem pageFrame_user {m : Mem} {v phys : Nat}
    (h : pageEntry m root v = pteValue phys userPageFlags) :
    pageFrame m root v = some (alignDown phys pageSize) := by
  obtain ⟨hpresent, hframe⟩ := pteValue_frame phys
    (show userPageFlags &&& (2 ^ 64 - pageSize) = 0 by decide)
  unfold pageFrame
  rw [h, if_pos hpresent, hframe]

/-- Fresh frames that were mapped are no longer there for others. -/
theorem FreshPages.undone_iff {k : Nat} (h : FreshPages o root va k s s') : MemoryUndone o root s s'
    ↔ k = 0 := by
  constructor
  · intro ⟨_, _, honly⟩
    by_contra hk
    obtain ⟨a, htaken, hfresh, hnone⟩ := h.spent (Nat.pos_of_ne_zero hk)
    rcases honly a htaken with hold | ⟨q, hq, hqa⟩
    · exact hfresh hold
    · exact hnone q hq hqa
  · intro hk
    subst hk
    refine ⟨fun v => h.pageFrame_old (Or.inl fun j hj => absurd hj (by omega)), h.changed.taken,
      .still ?_⟩
    rw [h.cost.pmm, missingTables_zero, Set.ncard_empty]
    rfl

theorem DevicePages.undone_iff {n k : Nat} {page : Nat → Option Nat}
    (h : DevicePages o root va page 0 k s s')
    (hk : k < 2 ^ 36) :
    MemoryUndone o root s s' ↔ ∀ j, j < k
      → (MapSource.device n page).Same (fs.phys s) root va j := by
  have hnew : ∀ v j phys, j < k → pageOf v = pageOf (va + pageSize * j)
    → ¬ UnderLarge (fs.phys s) root v →
      page j = some phys → pageFrame (fs.phys s') root v = some (alignDown phys pageSize) := by
    intro v j phys hj hv hl hphys
    refine pageFrame_user (h.new v j (Nat.zero_le j)
      (by omega) hv (fun l _ hlk hvl => ?_) hl phys hphys)
    have := page_inj (by omega) (by omega) (hv.symm.trans hvl)
    omega
  constructor
  · intro ⟨hsame, _, _⟩ j hj
    cases hphys : page j with
    | none => exact absurd hphys (h.found j (Nat.zero_le j) (by omega))
    | some phys =>
        refine ⟨phys, hphys, ?_⟩
        by_cases hl : UnderLarge (fs.phys s) root (va + pageSize * j)
        · exact Or.inl hl
        · exact Or.inr ((hsame _).symm.trans (hnew _ j phys hj rfl hl hphys))
  · intro hthere
    refine ⟨fun v => ?_, h.changed.taken, h.only⟩
    by_cases hv : (∃ j, j < k ∧ pageOf v = pageOf (va + pageSize * j))
      ∧ ¬ UnderLarge (fs.phys s) root v
    · obtain ⟨⟨j, hj, hv⟩, hl⟩ := hv
      obtain ⟨phys, hphys, hor⟩ := hthere j hj
      rw [hnew v j phys hj hv hl hphys, pageFrame_of_page hv]
      exact (hor.resolve_left fun hc => hl (hc.of_page hv)).symm
    · have hold : pageEntry (fs.phys s') root v = pageEntry (fs.phys s) root v := by
        refine h.old v ?_
        by_cases hl : UnderLarge (fs.phys s) root v
        · exact Or.inr hl
        · exact Or.inl fun j _ hj hvj => hv ⟨⟨j, by omega, hvj⟩, hl⟩
      unfold pageFrame
      rw [hold]

/-- **Mapping from a source**: it works out, or it fails when some pages have been mapped, and then
nothing has changed if those pages were mapped like that before. -/
theorem MapSource.map_cases (hm : FlatMemory fs) (hs : Space o s root) (hsound : src.Sound)
    (h : src.map fs root va len s = .done (s', r)) :
    (r = toInt64 va ∧ ∀ k, ¬ src.FailsAt o s root va len k)
      ∨ IsErrno r ∧ ∃ k, src.FailsAt o s root va len k
        ∧ (∀ l, src.FailsAt o s root va len l → l = k)
          ∧ (MemoryUndone o root s s' ↔ ∀ j, j < k → src.Same (fs.phys s) root va j) := by
  cases src with
  | refused e =>
      cases h
      refine Or.inr ⟨hsound, 0, rfl, fun l hl => hl, fun _ j hj => absurd hj (by omega),
        fun _ => ?_⟩
      exact ⟨fun _ => rfl, fun _ ha => ha, .still rfl⟩
  | fresh =>
      obtain ⟨⟨s₁, all⟩, hmap, h⟩ := Outcome.bind_eq_done h
      obtain ⟨k, hk, hfresh, hall, hempty⟩ := mapFreshPages_fresh hm _ _ hs hmap
      have hcount : (o.pmm s).freeFrames
          = (o.pmm s₁).freeFrames + framesNeeded (fs.phys s) root va k :=
        hfresh.cost.count
      cases all with
      | true =>
          cases h
          refine Or.inl ⟨rfl, fun l ⟨hl, hfree⟩ => ?_⟩
          -- there were frames for every page, so for every first part of them
          have : framesNeeded (fs.phys s) root va l < framesNeeded (fs.phys s) root va k :=
            framesNeeded_lt (hall.mp rfl ▸ hl)
          omega
      | false =>
          cases h
          have hne : k ≠ alignUpPage len / pageSize := fun hc => Bool.noConfusion (hall.mpr hc)
          rw [hempty rfl, Nat.zero_add] at hcount
          refine Or.inr ⟨show -4096 < -enomem ∧ -enomem < 0 by decide, k, ⟨by omega, hcount⟩, fun l ⟨_, hl⟩ => ?_, hfresh.undone_iff.trans ⟨?_, ?_⟩⟩
          · -- each page takes a frame, so the frames run out at one place only
            have hmono : StrictMono (framesNeeded (fs.phys s) root va) := fun _ _ => framesNeeded_lt
            exact hmono.injective (hl.symm.trans hcount)
          · intro hzero j hj
            omega
          · intro hthere
            by_contra hpos
            -- a page that was mapped before could not be a fresh one
            obtain ⟨phys, hphys, _⟩ := hthere 0 (Nat.pos_of_ne_zero hpos)
            cases hphys
  | device n page =>
      obtain ⟨⟨s₁, all⟩, hmap, h⟩ := Outcome.bind_eq_done h
      obtain ⟨k, hpages, hall, hstop⟩ := mapDevicePages_pages hm root va page _ _ hs hmap
      cases all with
      | true =>
          cases h
          refine Or.inl ⟨rfl, fun l ⟨hl, _, hnone⟩ => ?_⟩
          exact hpages.found l (Nat.zero_le l) (by rw [hall rfl]; omega) hnone
      | false =>
          cases h
          obtain ⟨hk, hnone⟩ := hstop rfl
          rw [Nat.zero_add] at hnone
          have hfew : n ≤ 2 ^ 14 := hsound
          refine Or.inr ⟨show -4096 < -einval ∧ -einval < 0 by decide, k,
            ⟨hk, fun j hj => hpages.found j (Nat.zero_le j) (by omega), hnone⟩,
            fun l ⟨_, hbefore, hl⟩ => ?_, hpages.undone_iff (by omega)⟩
          -- the first page that the device lacks is the first one
          rcases Nat.lt_trichotomy l k with hlt | heq | hgt
          · exact absurd hl (hpages.found l (Nat.zero_le l) (by omega))
          · exact heq
          · exact absurd hnone (hbefore k hgt)

end Fails

section Mmap

variable {fb : Option FbRegion} {v v' : Vfs σ} {t t' : TaskMem} {addr len flags : Nat} {fd off r : Int}

/-- What a call that fails is to have left as it was. -/
structure MmapUndone (o : OverPmm fs) (v v' : Vfs σ) (t t' : TaskMem) : Prop where
  cursor : t'.mmapNext = t.mmapNext
  memory : MemoryUndone o t.cr3Phys v.heap.pages v'.heap.pages

/-- An address of a page is no error number. -/
theorem page_notErrno (addr : Nat) : ¬ IsErrno (toInt64 (alignDown addr pageSize)) := by
  have hlt : alignDown addr pageSize < 2 ^ 64 := Nat.lt_of_le_of_lt Nat.and_le_right (by decide)
  have hmod : alignDown addr pageSize % 4096 = 0 := alignDown_pageSize addr
  unfold IsErrno toInt64
  rw [Nat.mod_eq_of_lt hlt]
  split
  · omega
  · omega

/-- The cursor of a call without `MAP_FIXED` has moved. -/
theorem cursor_moved (t : TaskMem) (h0 : len ≠ 0) (h : len ≤ 64 * 1024 * 1024) :
    u64 (t.mmapNext + alignUpPage len) ≠ t.mmapNext := by
  obtain ⟨h1, h2, _⟩ := alignUpPage_spec (v := len) (by omega)
  unfold u64
  omega

/-- A bad descriptor. -/
theorem sysMmap_badf (hlen : ¬ (len = 0 ∨ len > 64 * 1024 * 1024))
    (hanon : ¬ hasFlag flags vnlMapAnonymous = true)
    (hfd : fd < 0) : sysMmap fs fb v t addr len flags fd off
      = .done (v, mmapTask t len flags, -ebadf) := by
  unfold sysMmap
  rw [if_neg hlen]
  dsimp only
  rw [if_neg hanon, if_pos hfd]
  rfl

/-- **When a failed `SYS_MMAP` has changed nothing.** -/
theorem mmap_fails_iff (hm : FlatMemory fs) (hs : Space o v.heap.pages t.cr3Phys)
    (h : sysMmap fs fb v t addr len flags fd off = .done (v', t', r)) :
    (IsErrno r → MmapUndone o v v' t t') ↔ len = 0 ∨ len > 64 * 1024 * 1024
      ∨ if hasFlag flags vnlMapFixed then
          ∀ k, (mapSource fb v len flags fd off).FailsAt o v.heap.pages t.cr3Phys (alignDown addr pageSize) len k →
            ∀ j, j < k → (mapSource fb v len flags fd off).Same (fs.phys v.heap.pages) t.cr3Phys
              (alignDown addr pageSize) j
        else ¬ IsErrno (toInt64 t.mmapNext)
          ∧ ∀ k, ¬ (mapSource fb v len flags fd off).FailsAt o v.heap.pages t.cr3Phys t.mmapNext len k := by
  by_cases hlen : len = 0 ∨ len > 64 * 1024 * 1024
  · unfold sysMmap at h
    rw [if_pos hlen] at h
    cases h
    refine ⟨fun _ => hlen.elim Or.inl fun hc => Or.inr (Or.inl hc),
      fun _ _ => ⟨rfl, fun _ => rfl, fun _ ha => ha, ?_⟩⟩
    exact .still rfl
  have hor : ∀ P : Prop, (len = 0 ∨ len > 64 * 1024 * 1024 ∨ P) ↔ P := fun P =>
    ⟨fun hc => (hc.resolve_left fun h0 => hlen (Or.inl h0)).resolve_left fun h1 => hlen (Or.inr h1),
      fun hc => Or.inr (Or.inr hc)⟩
  rw [hor]
  obtain ⟨s', hmap, rfl, rfl⟩ := sysMmap_source hlen h
  have hsound := mapSource_sound fb v flags fd off (show len ≤ 64 * 1024 * 1024 by omega)
  have hcases := MapSource.map_cases hm hs hsound hmap
  unfold mmapAt at hcases
  unfold mmapTask
  generalize mapSource fb v len flags fd off = src at hcases
  by_cases hfixed : hasFlag flags vnlMapFixed = true
  · rw [if_pos hfixed] at hcases ⊢
    rw [if_pos hfixed]
    rcases hcases with ⟨rfl, hnone⟩ | ⟨herror, k, hfails, hone, hundone⟩
    · exact ⟨fun _ k hk => absurd hk (hnone k), fun _ hc => absurd hc (page_notErrno addr)⟩
    · constructor
      · intro hall l hl
        rw [hone l hl]
        exact hundone.mp (hall herror).memory
      · intro hall _
        exact ⟨rfl, hundone.mpr (hall k hfails)⟩
  · rw [if_neg hfixed] at hcases ⊢
    rw [if_neg hfixed]
    have hmoved : ¬ MmapUndone o v (v.setFrames s')
        t { t with mmapNext := u64 (t.mmapNext + alignUpPage len) } :=
      fun hc => cursor_moved t (show len ≠ 0 by omega) (by omega) hc.cursor
    rcases hcases with ⟨rfl, hnone⟩ | ⟨herror, k, hfails, _, _⟩
    · exact ⟨fun hall => ⟨fun hc => hmoved (hall hc), hnone⟩, fun hall hc => absurd hc hall.1⟩
    · exact ⟨fun hall => absurd (hall herror) hmoved, fun hall => absurd hfails (hall.2 k)⟩

end Mmap

/-- `MAP_FIXED` and a bad descriptor. -/
theorem mmap_fails_iff_fixed : ∃ s₁ root v' t', RootMade machineFrames_over 0x100000 bootMachine s₁ root
    ∧ sysMmap machineFrames none (vfsOver s₁) ⟨root, 0x401000, 0x401000, 0x40000000⟩ 0x500000 4096 vnlMapFixed (-1) 0
        = .done (v', t', -ebadf)
    ∧ (IsErrno (-ebadf) →
        MmapUndone machineFrames_over (vfsOver s₁) v' ⟨root, 0x401000, 0x401000, 0x40000000⟩ t') := by
  obtain ⟨s₁, root, _, _, hmade⟩ := bootMachine_root
  have hs : Space machineFrames_over (vfsOver s₁).heap.pages root :=
    vfsOver_pages s₁ ▸ hmade.space bootMachine_space
  have hcall : sysMmap machineFrames none (vfsOver s₁)
    ⟨root, 0x401000, 0x401000, 0x40000000⟩ 0x500000 4096 vnlMapFixed
      (-1) 0 = .done (vfsOver s₁, mmapTask ⟨root, 0x401000, 0x401000, 0x40000000⟩ 4096 vnlMapFixed,
          -ebadf) :=
    sysMmap_badf (by decide) (by decide) (by decide)
  refine ⟨s₁, root, _, _, hmade, hcall, (mmap_fails_iff machineFrames_flat hs hcall).mpr
    (Or.inr (Or.inr ?_))⟩
  rw [if_pos (by decide)]
  intro k hk j hj
  obtain rfl : k = 0 := hk
  omega

/-- **The cursor has moved.** A bad descriptor is noticed after the addresses have been given away.
-/
theorem mmap_fails_all : ¬ ∀ v t addr len flags fd off v' t' r, Space machineFrames_over v.heap.pages t.cr3Phys →
    sysMmap machineFrames none v t addr len flags fd off = .done (v', t', r) → IsErrno r →
    MmapUndone machineFrames_over v v' t t' := by
  intro hall
  obtain ⟨s₁, root, _, _, hmade⟩ := bootMachine_root
  have hs : Space machineFrames_over (vfsOver s₁).heap.pages root :=
    vfsOver_pages s₁ ▸ hmade.space bootMachine_space
  have hcall : sysMmap machineFrames none (vfsOver s₁)
    ⟨root, 0x401000, 0x401000, 0x40000000⟩ 0 4096 0 (-1) 0
      = .done (vfsOver s₁, mmapTask ⟨root, 0x401000, 0x401000, 0x40000000⟩ 4096 0, -ebadf) :=
    sysMmap_badf (by decide) (by decide) (by decide)
  have herror : IsErrno (-ebadf) := show -4096 < -ebadf ∧ -ebadf < 0 by decide
  have hundone := hall _ _ _ _ _ _ _ _ _ _ hs hcall herror
  have hcursor : u64 (0x40000000 + alignUpPage 4096) = 0x40000000 := hundone.cursor
  exact absurd hcursor (by decide +kernel)

end VnlKernel
