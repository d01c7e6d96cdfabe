import VnlKernel.Lib.Radix
import VnlKernel.Mm.Vmm
import VnlKernel.Proof.ShmFlat

/-!
# Page tables as a tree

Below a root lie tables, and the entries of the tables on the way say which. That is a
radix tree of depth three in physical memory, whose nodes are frames; the entries of its
deepest tables are the pages. A walk follows the path that the bits of an address spell
out.
-/

namespace VnlKernel

open ByteMem Bits Radix

variable {σ : Type}

/-! ## Entries -/

/-- An address that `pmm_alloc` may return. -/
def IsFrame (a : Nat) : Prop := a % pageSize = 0 ∧ a ≠ 0 ∧ a < 2 ^ 64

section Entries

variable {a b i j x : Nat}

theorem entryAt_eq (ha : IsFrame a) (hi : i < 512) : entryAt a i = a + 8 * i := by
  obtain ⟨hal, _, hlt⟩ := ha
  rw [show pageSize = 4096 from rfl] at hal
  exact u64_of_lt (by omega)

/-- Two entries are two places. -/
theorem entryAt_apart (ha : IsFrame a) (hb : IsFrame b) (hi : i < 512) (hj : j < 512)
    (hne : ¬ (a = b ∧ i = j)) : entryAt a i + 8 ≤ entryAt b j ∨ entryAt b j + 8 ≤ entryAt a i := by
  rw [entryAt_eq ha hi, entryAt_eq hb hj]
  have h1 := ha.1
  have h2 := hb.1
  rw [show pageSize = 4096 from rfl] at h1 h2
  omega

/-- Another frame is cleared. -/
theorem entryAt_memset {m : Mem} (ha : IsFrame a) (hb : IsFrame b) (hj : j < 512) (hne : a ≠ b) :
    read64 (memset m a 0 pageSize) (entryAt b j) = read64 m (entryAt b j) := by
  rw [entryAt_eq hb hj]
  have h1 := ha.1
  have h2 := hb.1
  rw [show pageSize = 4096 from rfl] at h1 h2
  refine read64_congr fun y hy1 hy2 => memset_out ?_
  rw [show pageSize = 4096 from rfl]
  omega

/-- An entry is in its table. -/
theorem entryAt_congr {m m' : Mem} (ha : IsFrame a)
    (hbytes : ∀ k, k < pageSize → m' (a + k) = m (a + k)) (i : Fin 512) :
    read64 m' (entryAt a i) = read64 m (entryAt a i) := by
  have hi := i.isLt
  have hpage : pageSize = 4096 := rfl
  rw [entryAt_eq ha hi]
  refine read64_congr fun x h1 h2 => ?_
  obtain ⟨k, rfl⟩ := Nat.exists_eq_add_of_le (show a ≤ x by omega)
  exact hbytes k (by omega)

theorem entryAt_cleared {m : Mem} (ha : IsFrame a) (hi : i < 512) :
    read64 (memset m a 0 pageSize) (entryAt a i) = 0 := by
  rw [entryAt_eq ha hi]
  exact readLE_memset_zero 8 _ (by omega) (by rw [show pageSize = 4096 from rfl]; omega)

theorem alignDown_page (hx : x < 2 ^ 64) : alignDown x pageSize = x / 4096 * 4096 :=
  alignDown_pow (k := 12) hx (by decide)

theorem or_div_page (x y : Nat) : (x ||| y) / 4096 = x / 4096 ||| y / 4096 := by
  rw [show (4096 : Nat) = 2 ^ 12 from rfl, ← Nat.shiftRight_eq_div_pow, ← Nat.shiftRight_eq_div_pow,
    ← Nat.shiftRight_eq_div_pow, Nat.shiftRight_or_distrib]

/-- An address and flags, and the `PRESENT` bit: it is present, and the flags come off again. -/
theorem pte_value {phys flags : Nat} (hp : phys < 2 ^ 64) (hf : flags < 4096) :
    (alignDown phys pageSize ||| flags ||| vmmFlagPresent) < 2 ^ 64
      ∧ isPresent (alignDown phys pageSize ||| flags ||| vmmFlagPresent) = true
      ∧ alignDown (alignDown phys pageSize ||| flags ||| vmmFlagPresent) pageSize
        = phys / 4096 * 4096 := by
  have hlt : (alignDown phys pageSize ||| flags ||| vmmFlagPresent) < 2 ^ 64 := by
    refine Nat.or_lt_two_pow (Nat.or_lt_two_pow ?_ (by omega)) (by decide)
    exact Nat.lt_of_le_of_lt Nat.and_le_left hp
  refine ⟨hlt, ?_, ?_⟩
  · have hbit : (alignDown phys pageSize ||| flags ||| vmmFlagPresent) &&& vmmFlagPresent
        = vmmFlagPresent := by
      rw [Nat.and_or_distrib_right, Nat.and_self]
      exact Nat.eq_of_testBit_eq fun i => by
        rw [Nat.testBit_or, Nat.testBit_and]
        cases vmmFlagPresent.testBit i with
        | false => simp
        | true => simp
    unfold isPresent
    rw [hbit]
    decide
  · rw [alignDown_page hlt, or_div_page, or_div_page, alignDown_page hp,
      Nat.mul_div_cancel _ (by decide),
      Nat.div_eq_of_lt hf, show vmmFlagPresent / 4096 = 0 from rfl, Nat.or_zero, Nat.or_zero]

/-- The entry for a table that was made. -/
theorem table_value (ha : IsFrame a) :
    (a ||| vmmFlagPresent ||| vmmFlagWrite) < 2 ^ 64
      ∧ isPresent (a ||| vmmFlagPresent ||| vmmFlagWrite) = true
      ∧ (∀ level, stopsAt level (a ||| vmmFlagPresent ||| vmmFlagWrite) = false)
      ∧ alignDown (a ||| vmmFlagPresent ||| vmmFlagWrite) pageSize = a := by
  obtain ⟨hal, _, hlt⟩ := ha
  rw [show pageSize = 4096 from rfl] at hal
  have hflags : a ||| vmmFlagPresent ||| vmmFlagWrite = a + 3 := by
    rw [Nat.or_assoc, show vmmFlagPresent ||| vmmFlagWrite = 3 from rfl,
      show a = a / 4096 * 2 ^ 12 by omega, or_low (by decide)]
  rw [hflags]
  have hlow : ∀ k, k ≤ 12 → (a + 3) &&& (2 ^ k - 1) = (a + 3) % 2 ^ k := fun k _ => and_low _ _
  refine ⟨by omega, ?_, fun level => ?_, ?_⟩
  · have h1 := hlow 1 (by decide)
    unfold isPresent
    rw [show vmmFlagPresent = 2 ^ 1 - 1 from rfl, h1]
    have : (a + 3) % 2 ^ 1 = 1 := by omega
    rw [this]
    decide
  · have h8 : (a + 3) &&& vmmFlagHuge = 0 := by
      rw [show vmmFlagHuge = 2 ^ 7 from rfl, Nat.and_two_pow, Nat.testBit_eq_decide_div_mod_eq]
      have : (a + 3) / 2 ^ 7 % 2 = 0 := by omega
      rw [this]
      rfl
    unfold stopsAt
    rw [h8]
    simp
  · rw [alignDown_page (by omega)]
    omega

end Entries

/-! ## Routes -/

/-- `virt`'s index at a level. -/
def levelFin (level virt : Nat) : Fin 512 := ⟨virt / 2 ^ (12 + 9 * level) % 512, Nat.mod_lt _ (by decide)⟩

/-- The indices that a walk takes from a level on. -/
def route (virt : Nat) : Nat → List (Fin 512)
  | 0 => []
  | level + 1 => levelFin (level + 1) virt :: route virt level

/-- The page that an address is on: bits 12 to 47. -/
def pageOf (virt : Nat) : Nat := virt / pageSize % 2 ^ 36

section Routes

variable {v w : Nat}

theorem levelIdx_eq {level : Nat} (hpos : 0 < level) (hle : level ≤ 3) (v : Nat) :
    levelIdx level v = levelFin level v := by
  have hidx : ∀ k, (v >>> k) &&& 0x1FF = v / 2 ^ k % 512 := fun k => by
    rw [Nat.shiftRight_eq_div_pow]
    exact and_low _ 9
  unfold levelFin
  match level, hpos, hle with
  | 1, _, _ => exact hidx 21
  | 2, _, _ => exact hidx 30
  | 3, _, _ => exact hidx 39

theorem ptIdx_eq (v : Nat) : ptIdx v = levelFin 0 v := by
  unfold ptIdx levelFin
  rw [Nat.shiftRight_eq_div_pow]
  exact and_low _ 9

theorem route_length (v level : Nat) : (route v level).length = level := by
  induction level with
  | zero => rfl
  | succ level ih => rw [route, List.length_cons, ih]

/-- **A page is a route and an index.** -/
theorem pageOf_iff : pageOf v = pageOf w ↔ route v 3 = route w 3 ∧ levelFin 0 v = levelFin 0 w := by
  have hroute : route v 3 = route w 3 ↔ levelFin 3 v = levelFin 3 w ∧ levelFin 2 v = levelFin 2 w
      ∧ levelFin 1 v = levelFin 1 w := by
    simp [route]
  rw [hroute]
  simp only [levelFin, Fin.mk.injEq, pageOf]
  rw [show pageSize = 4096 from rfl]
  norm_num
  omega

/-- The low bits. -/
theorem and_offset (v : Nat) : v &&& (pageSize - 1) = v % 4096 := and_low v 12

end Routes

/-! ## Tables -/

/-- The table that an entry of a table at depth `d` leads to. -/
def tableChild (m : Mem) (d table : Nat) (i : Fin 512) : Option Nat :=
  let entry := read64 m (entryAt table i)
  if !isPresent entry || stopsAt (3 - d) entry then none else some (alignDown entry pageSize)

/-- Nothing is below an entry that is not present. -/
theorem tableChild_absent {m : Mem} {d table : Nat} {i : Fin 512}
    (h : isPresent (read64 m (entryAt table i)) = false) : tableChild m d table i = none := by
  unfold tableChild
  dsimp only
  rw [h]
  exact if_pos rfl

theorem isPresent_zero : isPresent 0 = false := by decide

/-- Where a path leads from the root. -/
def tableAt (m : Mem) (root : Nat) (p : List (Fin 512)) : Option Nat := follow (tableChild m) 0 root p

/-- The entry under an index of the table at the end of a path. -/
def entryOn (m : Mem) (root : Nat) (p : List (Fin 512)) (i : Fin 512) : Option Nat :=
  (tableAt m root p).map fun table => read64 m (entryAt table i)

/-- The entry for a page. -/
def pteOf (m : Mem) (root virt : Nat) : Option Nat := entryOn m root (route virt 3) (levelFin 0 virt)

/-- What an entry says of an address on its page. -/
def pteAddress (virt : Nat) : Option Nat → Nat
  | none => 0
  | some pte => if !isPresent pte then 0 else alignDown pte pageSize ||| (virt &&& (pageSize - 1))

section Walks

variable {m : Mem} {root : Nat}

/-- One turn of a walk. -/
theorem follow_level (m : Mem) (virt table level : Nat) (hle : level < 3) :
    follow (tableChild m) (3 - (level + 1)) table (route virt (level + 1))
      = if !isPresent (read64 m (entryAt table (levelIdx (level + 1) virt)))
          || stopsAt (level + 1) (read64 m (entryAt table (levelIdx (level + 1) virt))) then none
        else follow (tableChild m) (3 - level)
          (alignDown (read64 m (entryAt table (levelIdx (level + 1) virt))) pageSize)
              (route virt level) := by
  rw [levelIdx_eq (Nat.succ_pos _) (by omega), route, follow, tableChild]
  rw [show 3 - (3 - (level + 1)) = level
    + 1 by omega, show 3 - (level + 1) + 1 = 3 - level by omega]
  split
  · rfl
  · rfl

theorem vmmLookup_follow (m : Mem) (virt : Nat) : ∀ (level table : Nat), level ≤ 3 →
    vmmLookup m virt level table = pteAddress virt ((follow (tableChild m) (3 - level) table
      (route virt level)).map fun table => read64 m (entryAt table (ptIdx virt))) := by
  intro level
  induction level with
  | zero => exact fun table _ => rfl
  | succ level ih =>
      intro table hle
      rw [follow_level m virt table level (by omega), vmmLookup]
      cases hp : isPresent (read64 m (entryAt table (levelIdx (level + 1) virt))) with
      | false => rfl
      | true =>
          cases hs : stopsAt (level + 1) (read64 m (entryAt table (levelIdx (level + 1) virt))) with
          | true => rfl
          | false => exact ih _ (by omega)

/-- **`vmm_lookup_phys_pml4`** looks the page's entry up. -/
theorem vmmLookupPhysPml4_eq (m : Mem) (root virt : Nat) :
    vmmLookupPhysPml4 m root virt = pteAddress virt (pteOf m root virt) := by
  unfold pteOf entryOn tableAt vmmLookupPhysPml4
  rw [vmmLookup_follow m virt 3 root (Nat.le_refl 3), ptIdx_eq]

end Walks

end VnlKernel
