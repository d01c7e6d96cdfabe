import VnlKernel.Proof.VmmGrow

/-!
# What ring 3 can reach

The processor lets ring 3 at a page if every entry on the way says so, the four of them. The
code sets the bits it is asked for in the last one. The tables above it come from the walk,
and the walk makes entries that are present and writable, and nothing more; the one entry
that a new root begins with is the kernel's. So no root entry has the `USER` bit, whatever is
mapped in whatever order.
-/

namespace VnlKernel

open ByteMem Bits Radix

/-- The rule of the processor: the flag counts if all entries of the walk have it. -/
def pageAccess (phys : Mem) (flag virt : Nat) : Nat → Nat → Bool
  | 0, table =>
      let pte := read64 phys (entryAt table (ptIdx virt))
      isPresent pte && pte &&& flag ≠ 0
  | level + 1, table =>
      let entry := read64 phys (entryAt table (levelIdx (level + 1) virt))
      isPresent entry && entry &&& flag ≠ 0 &&
        (stopsAt (level + 1) entry || pageAccess phys flag virt level (alignDown entry pageSize))

/-- Is an entry missing on the way to `virt`, so that the walk makes tables? -/
def makesTables (phys : Mem) (virt : Nat) : Nat → Nat → Bool
  | 0, _ => false
  | level + 1, table =>
      let entry := read64 phys (entryAt table (levelIdx (level + 1) virt))
      if !isPresent entry then true
      else if stopsAt (level + 1) entry then false
      else makesTables phys virt level (alignDown entry pageSize)

/-- A call of `vmm_map_in_pml4`, and whether its walk made tables. -/
structure Mapping where
  virt : Nat
  phys : Nat
  flags : Nat
  made : Bool

/-- Is a flag among those that the call asked for? -/
def Mapping.asks (m : Mapping) (flag : Nat) : Bool := m.flags &&& flag ≠ 0

variable {σ : Type} {fs : FrameService σ}

/-- Calls of `vmm_map_in_pml4` in one root, the last one first. -/
inductive MapRun (fs : FrameService σ) (root : Nat) (s : σ) : List Mapping → σ → Prop
  | none : MapRun fs root s [] s
  | call {calls : List Mapping} {s₁ s₂ : σ} (m : Mapping) : MapRun fs root s calls s₁ → m.flags < 2 ^ 64 →
      m.made = makesTables (fs.phys s₁) m.virt 3 root →
      vmmMapInPml4 fs s₁ root m.virt m.phys m.flags = .done s₂ → MapRun fs root s (m :: calls) s₂

/-- The call is the last one for its page. -/
def InForce (calls : List Mapping) (m : Mapping) : Prop :=
  ∃ later earlier, calls = later ++ m :: earlier ∧ ∀ n ∈ later, pageOf n.virt ≠ pageOf m.virt

/-- Ring 3 can do what the call asked for, and not more. -/
def AccessRight (phys : Mem) (root : Nat) (m : Mapping) : Prop :=
  (m.asks vmmFlagUser = true → m.made = true → pageAccess phys vmmFlagUser m.virt 3 root = true
      ∧ (m.asks vmmFlagWrite = true → pageAccess phys vmmFlagWrite m.virt 3 root = true))
    ∧ (m.asks vmmFlagUser = false → pageAccess phys vmmFlagUser m.virt 3 root = false)

/-- No entry of the root lets ring 3 through. -/
def KernelOnly (phys : Mem) (root : Nat) : Prop :=
  ∀ i : Fin 512, read64 phys (entryAt root i) &&& vmmFlagUser = 0

theorem KernelOnly.unreachable {phys : Mem} {root : Nat} (h : KernelOnly phys root) (virt : Nat) :
    pageAccess phys vmmFlagUser virt 3 root = false := by
  rw [pageAccess, levelIdx_eq (Nat.succ_pos 2) (Nat.le_refl 3), h (levelFin 3 virt)]
  simp

/-- The entry for a table that was made does not have the bit. -/
theorem table_user {a : Nat} (ha : IsFrame a) :
    (a ||| vmmFlagPresent ||| vmmFlagWrite) &&& vmmFlagUser = 0 := by
  obtain ⟨hal, _, _⟩ := ha
  rw [show pageSize = 4096 from rfl] at hal
  have hflags : a ||| vmmFlagPresent ||| vmmFlagWrite = a + 3 := by
    rw [Nat.or_assoc, show vmmFlagPresent ||| vmmFlagWrite = 3 from rfl,
      show a = a / 4096 * 2 ^ 12 by omega, or_low (by decide)]
  rw [hflags, show vmmFlagUser = 2 ^ 2 from rfl, Nat.and_two_pow, Nat.testBit_eq_decide_div_mod_eq]
  have : (a + 3) / 2 ^ 2 % 2 = 0 := by omega
  rw [this]
  rfl

section Root

variable {o : OverPmm fs} {s s' : σ} {root : Nat}

/-- The root's own entries are those at the end of the empty path. -/
theorem KernelOnly.congr (h : KernelOnly (fs.phys s) root)
    (he : ∀ j, entryOn (fs.phys s') root [] j = entryOn (fs.phys s) root [] j) :
    KernelOnly (fs.phys s') root := by
  intro j
  have hread : some (read64 (fs.phys s') (entryAt root j))
    = some (read64 (fs.phys s) (entryAt root j)) := he j
  rw [Option.some.inj hread]
  exact h j

theorem KernelOnly.graft (h : KernelOnly (fs.phys s) root) (hs : Space o s root)
    {p : List (Fin 512)}
    {i : Fin 512} {frame : Nat} (hg : GraftAt o root s s' p i frame) :
    KernelOnly (fs.phys s') root := by
  intro j
  have hread : some (read64 (fs.phys s') (entryAt root j))
      = if (([] : List (Fin 512)), j) = (p, i) then some (frame ||| vmmFlagPresent ||| vmmFlagWrite)
        else if [] = p ++ [i] then some 0 else some (read64 (fs.phys s) (entryAt root j)) :=
    hg.entryOn_eq hs (q := []) (j := j) (Nat.zero_le 3)
  by_cases hhere : (([] : List (Fin 512)), j) = (p, i)
  · rw [if_pos hhere] at hread
    rw [Option.some.inj hread]
    exact table_user (hg.isFrame hs)
  · rw [if_neg hhere, if_neg (by simp)] at hread
    rw [Option.some.inj hread]
    exact h j

theorem KernelOnly.grown (h : KernelOnly (fs.phys s) root) (hs : Space o s root) {virt : Nat}
    (hg : Grown o root virt s s') : KernelOnly (fs.phys s') root := by
  induction hg with
  | refl => exact h
  | tail hg hstep ih =>
      obtain ⟨p, i, frame, _, hgraft⟩ := hstep
      exact ih.graft (Grown.space hg hs) hgraft

/-- **Mapping a page** keeps the root in shape, and closed to ring 3. -/
theorem vmmMapInPml4_kernelOnly (hm : FlatMemory fs) (hs : Space o s root)
    (hk : KernelOnly (fs.phys s) root)
    {virt phys flags : Nat} (hflags : flags < 2 ^ 64)
    (h : vmmMapInPml4 fs s root virt phys flags = .done s') :
    Space o s' root ∧ KernelOnly (fs.phys s') root := by
  have hvalue : (alignDown phys pageSize ||| flags ||| vmmFlagPresent) < 2 ^ 64 := by
    refine Nat.or_lt_two_pow (Nat.or_lt_two_pow ?_ hflags) (by decide)
    exact Nat.lt_of_le_of_lt Nat.and_le_right (by decide)
  rcases vmmMapInPml4_cases hm hs h with ⟨s₁, t, hg, ht, rfl⟩ | ⟨rfl, _⟩
  · have hs₁ := hg.space hs
    obtain ⟨hs', _, hentry⟩ := hs₁.pte_set (i := levelFin 0 virt) hm (route_length virt 3) ht hvalue
    refine ⟨hs', (hk.grown hs hg).congr fun j => ?_⟩
    rw [hentry [] j (Nat.zero_le 3)]
    exact if_neg fun hc => by cases hc
  · obtain ⟨hs', _, hentry⟩ := hs.zero_set hm (alignDown phys pageSize ||| flags ||| vmmFlagPresent)
    exact ⟨hs', hk.congr fun j => hentry [] j (Nat.zero_le 3)⟩

theorem MapRun.kernelOnly (hm : FlatMemory fs) (hs : Space o s root)
    (hk : KernelOnly (fs.phys s) root)
    {calls : List Mapping} (h : MapRun fs root s calls s') :
    Space o s' root ∧ KernelOnly (fs.phys s') root := by
  induction h with
  | none => exact ⟨hs, hk⟩
  | call m _ hflags _ hcall ih => exact vmmMapInPml4_kernelOnly hm ih.1 ih.2 hflags hcall

/-- **Which user pages can be reached.** In a root that `uspace_create_pml4` has made from one whose
top entry is closed to ring 3, whatever is mapped: the calls in force have what they asked for if
and only if none of them asked for a user page in a walk that made tables. -/
theorem user_pages_iff (hm : FlatMemory fs) {s₀ s₁ s₂ : σ} {cr3 : Nat} (hcr3 : Space o s₀ cr3)
    (htop : read64 (fs.phys s₀) (entryAt cr3 511) &&& vmmFlagUser = 0)
    (hcreate : uspaceCreatePml4 fs s₀ cr3 = (s₁, root)) (hroot : root ≠ 0) {calls : List Mapping}
    (hrun : MapRun fs root s₁ calls s₂) :
    (∀ m, InForce calls m → AccessRight (fs.phys s₂) root m)
      ↔ ∀ m, InForce calls m → ¬ (m.asks vmmFlagUser = true ∧ m.made = true) := by
  have hmade := uspaceCreatePml4_made (o := o) hm hcr3 hcreate hroot
  have hclosed : KernelOnly (fs.phys s₁) root := by
    intro i
    rw [hmade.entry i]
    split
    · exact htop
    · rfl
  obtain ⟨_, hend⟩ := hrun.kernelOnly hm (hmade.space hcr3) hclosed
  constructor
  · intro hright m hforce ⟨huser, htables⟩
    have haccess := ((hright m hforce).1 huser htables).1
    rw [hend.unreachable] at haccess
    exact Bool.noConfusion haccess
  · intro hnone m hforce
    exact ⟨fun huser htables => absurd ⟨huser, htables⟩ (hnone m hforce),
      fun _ => hend.unreachable m.virt⟩

end Root

/-! ## A machine after boot -/

/-- The tables that the boot code fills: a root at one megabyte, and for each half one table of
large pages. -/
def bootTables : Mem :=
  let low := write64 (write64 (fun _ => 0) 0x101000 0x83) 0x101008 0x40000083
  let low := write64 (write64 low 0x101010 0x80000083) 0x101018 0xC0000083
  write64 (write64 (write64 low 0x102FF0 0x83) 0x100000 0x101003) 0x100FF8 0x102003

/-- A machine of two megabytes, with the kernel's first three frames in use. -/
def bootMachine : Pmm × Mem × Nat := (pmmReserve (pmmInit 2048) 0x100000 0x3000, bootTables, 64)

/-- Words written at multiples of eight do not overlap. -/
theorem read64_write64_aligned {m : Mem} {a b v : Nat} (ha : a % 8 = 0) (hb : b % 8 = 0)
    (hv : v < 2 ^ 64) : read64 (write64 m b v) a = if a = b then v else read64 m a := by
  split
  · next h => rw [h, read64_write64_same hv]
  · next h => exact read64_write64_disj (by omega)

/-- The words of the three tables. -/
theorem bootTables_read {a : Nat} (ha : a % 8 = 0) : read64 bootTables a
    = if a = 0x100FF8 then 0x102003 else if a = 0x100000 then 0x101003
      else if a = 0x102FF0 then 0x83 else if a = 0x101018 then 0xC0000083
      else if a = 0x101010 then 0x80000083 else if a = 0x101008 then 0x40000083
      else if a = 0x101000 then 0x83 else 0 := by
  unfold bootTables
  dsimp only
  rw [read64_write64_aligned ha (by decide) (by decide),
    read64_write64_aligned ha (by decide) (by decide),
    read64_write64_aligned ha (by decide) (by decide),
    read64_write64_aligned ha (by decide) (by decide),
    read64_write64_aligned ha (by decide) (by decide),
    read64_write64_aligned ha (by decide) (by decide),
    read64_write64_aligned ha (by decide) (by decide), read64, readLE_zeros]

/-- The entries of a table that is below four gigabytes. -/
theorem bootTables_entry {t : Nat} (ht : t < 2 ^ 32) (h8 : t % 8 = 0) (i : Fin 512) :
    read64 bootTables (entryAt t i) = if t + 8 * i.val = 0x100FF8 then 0x102003
      else if t + 8 * i.val = 0x100000 then 0x101003 else if t + 8 * i.val = 0x102FF0 then 0x83
      else if t + 8 * i.val = 0x101018 then 0xC0000083
      else if t + 8 * i.val = 0x101010 then 0x80000083
      else if t + 8 * i.val = 0x101008 then 0x40000083
      else if t + 8 * i.val = 0x101000 then 0x83 else 0 := by
  have hi := i.isLt
  unfold entryAt
  rw [Bits.u64_of_lt (by omega)]
  exact bootTables_read (by omega)

theorem bootTables_child :
    (∀ i : Fin 512, tableChild bootTables 0 0x100000 i
        = if i = 0 then some 0x101000 else if i = 511 then some 0x102000 else none)
      ∧ (∀ i : Fin 512, tableChild bootTables 1 0x101000 i = none)
      ∧ ∀ i : Fin 512, tableChild bootTables 1 0x102000 i = none := by
  refine ⟨fun i => ?_, fun i => ?_, fun i => ?_⟩
  · have he := bootTables_entry (t := 0x100000) (by decide) (by decide) i
    have hi := i.isLt
    by_cases h0 : i.val = 0
    · rw [show i = 0 from Fin.ext h0] at he ⊢
      unfold tableChild
      rw [he]
      decide
    · by_cases h511 : i.val = 511
      · rw [show i = 511 from Fin.ext h511] at he ⊢
        unfold tableChild
        rw [he]
        decide
      · rw [if_neg (show i ≠ 0 from fun h => h0 (congrArg Fin.val h)),
          if_neg (show i ≠ 511 from fun h => h511 (congrArg Fin.val h))]
        refine tableChild_absent ?_
        rw [he, if_neg (by omega), if_neg (by omega), if_neg (by omega), if_neg (by omega),
          if_neg (by omega), if_neg (by omega), if_neg (by omega), isPresent_zero]
  -- the pages of the lower half
  · have he := bootTables_entry (t := 0x101000) (by decide) (by decide) i
    have hi := i.isLt
    by_cases h4 : i.val < 4
    · rcases (by omega : i.val = 0 ∨ i.val = 1 ∨ i.val = 2 ∨ i.val = 3) with h | h | h | h
      · rw [show i = 0 from Fin.ext h] at he ⊢
        unfold tableChild
        rw [he]
        decide
      · rw [show i = 1 from Fin.ext h] at he ⊢
        unfold tableChild
        rw [he]
        decide
      · rw [show i = 2 from Fin.ext h] at he ⊢
        unfold tableChild
        rw [he]
        decide
      · rw [show i = 3 from Fin.ext h] at he ⊢
        unfold tableChild
        rw [he]
        decide
    · refine tableChild_absent ?_
      rw [he, if_neg (by omega), if_neg (by omega), if_neg (by omega), if_neg (by omega),
        if_neg (by omega), if_neg (by omega), if_neg (by omega), isPresent_zero]
  · have he := bootTables_entry (t := 0x102000) (by decide) (by decide) i
    have hi := i.isLt
    by_cases h510 : i.val = 510
    · rw [show i = 510 from Fin.ext h510] at he ⊢
      unfold tableChild
      rw [he]
      decide
    · refine tableChild_absent ?_
      rw [he, if_neg (by omega), if_neg (by omega), if_neg (by omega), if_neg (by omega),
        if_neg (by omega), if_neg (by omega), if_neg (by omega), isPresent_zero]

/-- Three tables, and nothing below the lower two. -/
theorem bootMachine_paths (p : List (Fin 512)) (a : Nat)
    (h : tableAt (machineFrames.phys bootMachine) 0x100000 p = some a) :
    p = [] ∧ a = 0x100000 ∨ p = [0] ∧ a = 0x101000 ∨ p = [511] ∧ a = 0x102000 := by
  obtain ⟨hroot, hlow, hhigh⟩ := bootTables_child
  have hphys : machineFrames.phys bootMachine = bootTables := rfl
  rw [hphys] at h
  unfold tableAt at h
  cases p with
  | nil =>
      cases h
      exact Or.inl ⟨rfl, rfl⟩
  | cons i q =>
      rw [follow, hroot i] at h
      by_cases h0 : i = 0
      · rw [if_pos h0, Option.bind_some] at h
        cases q with
        | nil =>
            cases h
            exact Or.inr (Or.inl ⟨by rw [h0], rfl⟩)
        | cons j q =>
            rw [follow, hlow j] at h
            cases h
      · rw [if_neg h0] at h
        by_cases h1 : i = 511
        · rw [if_pos h1, Option.bind_some] at h
          cases q with
          | nil =>
              cases h
              exact Or.inr (Or.inr ⟨by rw [h1], rfl⟩)
          | cons j q =>
              rw [follow, hhigh j] at h
              cases h
        · rw [if_neg h1] at h
          cases h

theorem bootMachine_space : Space machineFrames_over bootMachine 0x100000 := by
  have hpmm : machineFrames_over.pmm bootMachine = pmmReserve (pmmInit 2048) 0x100000 0x3000 := by
    unfold bootMachine
    rw [machineFrames_over_pmm]
  have hused : (∀ f, 256 ≤ f → f < 259 →
        (pmmReserve (pmmInit 2048) 0x100000 0x3000).bmTest f = true)
      ∧ (pmmReserve (pmmInit 2048) 0x100000 0x3000).totalFrames = 512 := by
    have hbits : ∀ k, k < 3 → (pmmReserve (pmmInit 2048) 0x100000 0x3000).bmTest (256 + k)
        = true := by
      decide +kernel
    refine ⟨fun f h1 h2 => ?_, by decide +kernel⟩
    obtain ⟨k, rfl⟩ := Nat.exists_eq_add_of_le h1
    exact hbits k (by omega)
  have hinv : PmmInv (pmmReserve (pmmInit 2048) 0x100000 0x3000) :=
    (pmmReserve_spec (pmmInit_inv 2048) (by decide)).1
  generalize pmmReserve (pmmInit 2048) 0x100000 0x3000 = p at hpmm hused hinv
  refine ⟨hpmm ▸ hinv, fun q r a _ _ hq hr => ?_, fun q a _ hq => ?_⟩
  · rcases bootMachine_paths q a hq with ⟨rfl, rfl⟩ | ⟨rfl, rfl⟩ | ⟨rfl, rfl⟩ <;>
      rcases bootMachine_paths r _ hr with ⟨rfl, h⟩ | ⟨rfl, h⟩ | ⟨rfl, h⟩ <;> first | rfl | cases h
  · have htaken : ∀ f, 256 ≤ f → f < 259 → FrameTaken p (f * pageSize) := fun f h1 h2 =>
      ⟨f, rfl, h1, by omega, hused.1 f h1 h2⟩
    rw [hpmm]
    rcases bootMachine_paths q a hq with ⟨_, rfl⟩ | ⟨_, rfl⟩ | ⟨_, rfl⟩
    · exact htaken 256 (by decide) (by decide)
    · exact htaken 257 (by decide) (by decide)
    · exact htaken 258 (by decide) (by decide)

theorem bootMachine_top : read64 (machineFrames.phys bootMachine)
    (entryAt 0x100000 511) &&& vmmFlagUser = 0 := by
  decide +kernel

/-- A new root, and the first page of a program in it. -/
def firstPage (flags : Nat) : Outcome ((Pmm × Mem × Nat) × Nat × (Pmm × Mem × Nat)) := do
  let (s₁, root) := uspaceCreatePml4 machineFrames bootMachine 0x100000
  let s₂ ← vmmMapInPml4 machineFrames s₁ root 0x400000 0x180000 flags
  return (s₁, root, s₂)

theorem firstPage_run {flags : Nat} (hflags : flags < 2 ^ 64) {s₁ s₂ : Pmm × Mem × Nat} {root : Nat}
    (h : firstPage flags = .done (s₁, root, s₂))
    (hmade : makesTables (machineFrames.phys s₁) 0x400000 3 root = true) :
    uspaceCreatePml4 machineFrames bootMachine 0x100000 = (s₁, root)
      ∧ vmmMapInPml4 machineFrames s₁ root 0x400000 0x180000 flags = .done s₂
      ∧ MapRun machineFrames root s₁ [⟨0x400000, 0x180000, flags, true⟩] s₂
      ∧ InForce [⟨0x400000, 0x180000, flags, true⟩] ⟨0x400000, 0x180000, flags, true⟩ := by
  unfold firstPage at h
  obtain ⟨⟨s, r⟩, hcreate⟩ : ∃ x, uspaceCreatePml4 machineFrames bootMachine 0x100000 = x :=
    ⟨_, rfl⟩
  rw [hcreate] at h
  obtain ⟨s', hcall, h⟩ := Outcome.bind_eq_done h
  cases h
  refine ⟨hcreate, hcall, .call _ .none hflags hmade.symm hcall, [], [], rfl, ?_⟩
  intro n hn
  cases hn

/-- A page that is not for users. -/
theorem user_pages_iff_boot : ∃ s₁ root s₂, firstPage (vmmFlagPresent ||| vmmFlagWrite) = .done (s₁, root, s₂)
    ∧ AccessRight (machineFrames.phys s₂) root
        ⟨0x400000, 0x180000, vmmFlagPresent ||| vmmFlagWrite, true⟩ := by
  obtain ⟨⟨s₁, root, s₂⟩, h, hf⟩ := Outcome.of_get?
    (x := firstPage (vmmFlagPresent ||| vmmFlagWrite))
    (f := fun r => (makesTables (machineFrames.phys r.1) 0x400000 3 r.2.1, r.2.1))
      (b := (true, 0x103000))
    (by decide +kernel)
  obtain ⟨hmade, hroot⟩ := Prod.mk.inj hf
  obtain ⟨hcreate, _, hrun, hforce⟩ := firstPage_run (by decide) h hmade
  refine ⟨s₁, root, s₂, h, ?_⟩
  refine (user_pages_iff machineFrames_flat bootMachine_space bootMachine_top hcreate ?_
    hrun).mpr ?_ _ hforce
  · dsimp only at hroot
    omega
  · intro m hm hc
    obtain ⟨later, earlier, hcalls, _⟩ := hm
    have hmem : m ∈ [(⟨0x400000, 0x180000, vmmFlagPresent ||| vmmFlagWrite, true⟩ : Mapping)] := by
      rw [hcalls]
      simp
    rw [List.mem_singleton.mp hmem] at hc
    exact absurd hc.1 (by decide)

/-- **The walk forgets the bit.** The first page of a program is mapped for users, and is out of
their reach. -/
theorem user_pages_all : ¬ ∀ s₁ root calls s₂,
    uspaceCreatePml4 machineFrames bootMachine 0x100000 = (s₁, root) → root ≠ 0 →
    MapRun machineFrames root s₁ calls s₂ →
    ∀ m, InForce calls m → AccessRight (machineFrames.phys s₂) root m := by
  intro hall
  obtain ⟨⟨s₁, root, s₂⟩, h, hf⟩ := Outcome.of_get?
    (x := firstPage (vmmFlagPresent ||| vmmFlagWrite ||| vmmFlagUser))
    (f := fun r => (makesTables (machineFrames.phys r.1) 0x400000 3 r.2.1, r.2.1,
      pageAccess (machineFrames.phys r.2.2) vmmFlagUser 0x400000 3 r.2.1))
        (b := (true, 0x103000, false))
    (by decide +kernel)
  obtain ⟨hmade, hf⟩ := Prod.mk.inj hf
  obtain ⟨hroot, haccess⟩ := Prod.mk.inj hf
  obtain ⟨hcreate, _, hrun, hforce⟩ := firstPage_run (by decide) h hmade
  have hright := hall s₁ root _ s₂ hcreate (by dsimp only at hroot; omega) hrun _ hforce
  have htrue := (hright.1 (by decide) rfl).1
  dsimp only at htrue haccess
  rw [haccess] at htrue
  exact Bool.noConfusion htrue

end VnlKernel
