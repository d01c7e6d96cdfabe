import VnlKernel.Kernel.Uaccess

/-!
# What `copy_user_cstring` returns

Three things can end the copy: the terminator, an address that leads nowhere the kernel can
read, and the end of the array. Which of them it is depends on the bytes one after the
other, so the loop is described by the place where it ends: everything before that place
could be read and was not the terminator.
-/

namespace VnlKernel

open ByteMem Bits

section Exact

variable (phys : Mem) (cr3 uva : Nat)

/-- The physical address of the string's byte `i`. -/
def userPhys (i : Nat) : Nat := vmmLookupPhysPml4 phys cr3 (u64 (uva + i))

/-- The string's byte `i`. -/
def userByte (i : Nat) : UInt8 := phys (userPhys phys cr3 uva i)

/-- The kernel can read byte `i`. -/
def UserReadable (i : Nat) : Prop := userPhys phys cr3 uva i ≠ 0 ∧ userPhys phys cr3 uva i < identityEnd

/-- Byte `i` can be read, and does not end the string. -/
def UserCharacter (i : Nat) : Prop := UserReadable phys cr3 uva i ∧ userByte phys cr3 uva i ≠ 0

/-- How the loop ends that begins at `i`. -/
inductive CopyEnds (outCap i : Nat) (out : Mem) : Int → Mem → Prop
  /-- At the terminator. -/
  | terminated {out' : Mem} (k : Nat) : i ≤ k → k < outCap - 1 →
      (∀ j, i ≤ j → j < k → UserCharacter phys cr3 uva j) → UserReadable phys cr3 uva k →
      userByte phys cr3 uva k = 0 →
      (∀ j, out' j = if i ≤ j ∧ j ≤ k then userByte phys cr3 uva j else out j) →
      CopyEnds outCap i out 0 out'
  /-- At a byte that cannot be read. -/
  | faulted {out' : Mem} (k : Nat) : i ≤ k → k < outCap - 1 →
      (∀ j, i ≤ j → j < k → UserCharacter phys cr3 uva j) → ¬ UserReadable phys cr3 uva k →
      (∀ j, out' j = if i ≤ j ∧ j < k then userByte phys cr3 uva j else out j) →
      CopyEnds outCap i out (-efault) out'
  /-- At the end of the array. -/
  | full {out' : Mem} : (∀ j, i ≤ j → j < outCap - 1 → UserCharacter phys cr3 uva j) →
      (∀ j, out' j = if j = outCap - 1 then 0
        else if i ≤ j ∧ j < outCap - 1 then userByte phys cr3 uva j else out j) →
      CopyEnds outCap i out (-e2big) out'

variable {phys cr3 uva} {outCap : Nat}

/-- One character more in front. -/
theorem CopyEnds.step {i : Nat} {out out' : Mem} {r : Int} (hi : i < outCap - 1)
    (hc : UserCharacter phys cr3 uva i)
    (h : CopyEnds phys cr3 uva outCap (i + 1) (setByte out i (userByte phys cr3 uva i)) r out') :
    CopyEnds phys cr3 uva outCap i out r out' := by
  have hbefore : ∀ {k : Nat}, (∀ j, i + 1 ≤ j → j < k → UserCharacter phys cr3 uva j) →
      ∀ j, i ≤ j → j < k → UserCharacter phys cr3 uva j := by
    intro k hall j h1 h2
    by_cases hj : j = i
    · rw [hj]; exact hc
    · exact hall j (by omega) h2
  -- the byte at `i` is one of those copied now
  have hout : ∀ j (p q : Prop) [Decidable p] [Decidable q], (p ↔ j = i ∨ q) → ¬ (j = i ∧ q) →
      (if q then userByte phys cr3 uva j else setByte out i (userByte phys cr3 uva i) j)
        = if p then userByte phys cr3 uva j else out j := by
    intro j p q _ _ hpq hne
    by_cases hj : j = i
    · rw [if_pos (hpq.mpr (Or.inl hj)), if_neg fun hq => hne ⟨hj, hq⟩, hj]
      exact setByte_self _ _ _
    · rw [setByte_ne hj]
      exact if_congr ⟨fun hq => hpq.mpr (Or.inr hq), fun hp => (hpq.mp hp).resolve_left hj⟩ rfl rfl
  cases h with
  | terminated k h1 h2 h3 h4 h5 h6 =>
      exact .terminated k (by omega) h2 (hbefore h3) h4 h5
        fun j => (h6 j).trans (hout j _ _ (by omega) (by omega))
  | faulted k h1 h2 h3 h4 h5 =>
      exact .faulted k (by omega) h2 (hbefore h3) h4
        fun j => (h5 j).trans (hout j _ _ (by omega) (by omega))
  | full h1 h2 =>
      refine .full (hbefore h1) fun j => (h2 j).trans ?_
      rw [hout j (i ≤ j ∧ j < outCap - 1) (i + 1 ≤ j ∧ j < outCap - 1) (by omega) (by omega)]

theorem copyUserLoop_ends : ∀ (n i : Nat) (out : Mem), i + n = outCap - 1 →
    CopyEnds phys cr3 uva outCap i out (copyUserLoop phys cr3 uva outCap n i out).1
      (copyUserLoop phys cr3 uva outCap n i out).2 := by
  intro n
  induction n with
  | zero =>
      intro i out hi
      -- the room is used up: the last byte is the NUL
      refine .full (fun j h1 h2 => absurd h2 (by omega)) fun j => ?_
      rw [copyUserLoop]
      by_cases hj : j = outCap - 1
      · rw [if_pos hj, hj]
        exact setByte_self _ _ _
      · rw [if_neg hj, if_neg (by omega)]
        exact setByte_ne hj
  | succ n ih =>
      intro i out hi
      rw [copyUserLoop]
      dsimp only
      change CopyEnds phys cr3 uva outCap i out
        (if userPhys phys cr3 uva i = 0 then _ else _ : Int × Mem).1
        (if userPhys phys cr3 uva i = 0 then _ else _ : Int × Mem).2
      -- nothing was copied on this turn yet
      have hnone : ∀ j, i ≤ j → j < i → UserCharacter phys cr3 uva j :=
        fun j h1 h2 => absurd h1 (by omega)
      have hsame : ∀ j, out j = if i ≤ j ∧ j < i then userByte phys cr3 uva j else out j :=
        fun j => (if_neg (by omega)).symm
      by_cases h0 : userPhys phys cr3 uva i = 0
      · rw [if_pos h0]
        exact .faulted i (Nat.le_refl i) (by omega) hnone (fun h => h.1 h0) hsame
      · rw [if_neg h0]
        change CopyEnds phys cr3 uva outCap i out
          (if identityEnd ≤ userPhys phys cr3 uva i then _ else _ : Int × Mem).1
          (if identityEnd ≤ userPhys phys cr3 uva i then _ else _ : Int × Mem).2
        -- a frame that is not mapped as it is cannot be read either
        by_cases hbig : identityEnd ≤ userPhys phys cr3 uva i
        · rw [if_pos hbig]
          exact .faulted i (Nat.le_refl i) (by omega) hnone (fun h => absurd h.2 (by omega)) hsame
        · rw [if_neg hbig]
          have hread : UserReadable phys cr3 uva i := ⟨h0, by omega⟩
          change CopyEnds phys cr3 uva outCap i out
            (if userByte phys cr3 uva i = 0 then _ else _ : Int × Mem).1
            (if userByte phys cr3 uva i = 0 then _ else _ : Int × Mem).2
          by_cases hz : userByte phys cr3 uva i = 0
          · rw [if_pos hz]
            refine .terminated i (Nat.le_refl i) (by omega) hnone hread hz fun j => ?_
            by_cases hj : j = i
            · rw [if_pos (by omega), hj]
              exact setByte_self _ _ _
            · rw [if_neg (by omega)]
              exact setByte_ne hj
          · rw [if_neg hz]
            -- a character: go on with the next
            exact (ih (i + 1) _ (by omega)).step (by omega) ⟨hread, hz⟩

/-- **`copy_user_cstring` is exact.** It returns 0 if a terminator comes within the room there is,
with every byte up to it readable, and then it has copied the string; it returns `-EFAULT` if a byte
that it cannot read comes first; otherwise `-E2BIG`, with a terminator at the end. It writes nowhere
else. -/
theorem copyUserCstring_exact {userPtr : Nat} {out out' : Mem} {r : Int} (hcap : 2 ≤ outCap)
    (h : copyUserCstring phys cr3 userPtr out outCap = (r, out')) :
    (r = 0 ↔ ∃ k, k < outCap - 1 ∧ userByte phys cr3 userPtr k = 0
        ∧ (∀ i, i < k → userByte phys cr3 userPtr i ≠ 0) ∧ ∀ i, i ≤ k → UserReadable phys cr3 userPtr i)
      ∧ (∀ k, k < outCap - 1 → userByte phys cr3 userPtr k = 0 →
          (∀ i, i < k → userByte phys cr3 userPtr i ≠ 0) → (∀ i, i ≤ k → UserReadable phys cr3 userPtr i) →
          ∀ i, i ≤ k → out' i = userByte phys cr3 userPtr i)
      ∧ (r = -efault ↔ ∃ k, k < outCap - 1 ∧ ¬ UserReadable phys cr3 userPtr k
          ∧ ∀ i, i < k → UserReadable phys cr3 userPtr i ∧ userByte phys cr3 userPtr i ≠ 0)
      ∧ (r ≠ 0 → r ≠ -efault → r = -e2big ∧ out' (outCap - 1) = 0)
      ∧ ∀ x, outCap ≤ x → out' x = out x := by
  have hends : CopyEnds phys cr3 userPtr outCap 0 out r out' := by
    have hloop : CopyEnds phys cr3 userPtr outCap 0 out
        (copyUserLoop phys cr3 userPtr outCap (outCap - 1) 0 out).1
        (copyUserLoop phys cr3 userPtr outCap (outCap - 1) 0 out).2 :=
      copyUserLoop_ends (outCap - 1) 0 out (by omega)
    unfold copyUserCstring at h
    rw [if_neg (by omega)] at h
    rw [h] at hloop
    exact hloop
  cases hends with
  | terminated k _ hk hbefore hread hzero hout =>
      have hchars : ∀ i, i < k → UserCharacter phys cr3 userPtr i :=
        fun i hi => hbefore i (Nat.zero_le i) hi
      have hreads : ∀ i, i ≤ k → UserReadable phys cr3 userPtr i := by
        intro i hi
        by_cases hik : i = k
        · rw [hik]; exact hread
        · exact (hchars i (by omega)).1
      refine ⟨⟨fun _ => ⟨k, hk, hzero, fun i hi => (hchars i hi).2, hreads⟩, fun _ => rfl⟩, ?_, ?_,
        fun h0 => absurd rfl h0, fun x hx => ?_⟩
      · intro l _ hlzero hlbefore _ i hi
        -- there is only one first terminator
        have hlk : l = k := by
          rcases Nat.lt_trichotomy l k with hlt | heq | hgt
          · exact absurd hlzero (hchars l hlt).2
          · exact heq
          · exact absurd hzero (hlbefore k hgt)
        rw [hout i, if_pos (by omega)]
      · refine ⟨fun h0 => absurd h0 (by decide), ?_⟩
        intro ⟨l, _, hbad, hlbefore⟩
        rcases Nat.lt_or_ge k l with hlt | hge
        · exact absurd hzero (hlbefore k hlt).2
        · exact absurd (hreads l hge) hbad
      · rw [hout x, if_neg (by omega)]
  | faulted k _ hk hbefore hbad hout =>
      have hchars : ∀ i, i < k → UserCharacter phys cr3 userPtr i :=
        fun i hi => hbefore i (Nat.zero_le i) hi
      have hnone : ∀ l, userByte phys cr3 userPtr l = 0 → ¬ ∀ i,
          i ≤ l → UserReadable phys cr3 userPtr i := by
        intro l hlzero hlread
        rcases Nat.lt_or_ge l k with hlt | hge
        · exact (hchars l hlt).2 hlzero
        · exact hbad (hlread k hge)
      refine ⟨⟨fun h0 => absurd h0 (by decide),
        fun ⟨l, _, hlzero, _, hlread⟩ => absurd hlread (hnone l hlzero)⟩,
        fun l _ hlzero _ hlread => absurd hlread (hnone l hlzero),
        ⟨fun _ => ⟨k, hk, hbad, hchars⟩, fun _ => rfl⟩, fun _ h0 => absurd rfl h0, fun x hx => ?_⟩
      rw [hout x, if_neg (by omega)]
  | full hall hout =>
      have hchars : ∀ i, i < outCap - 1 → UserCharacter phys cr3 userPtr i :=
        fun i hi => hall i (Nat.zero_le i) hi
      refine ⟨⟨fun h0 => absurd h0 (by decide),
        fun ⟨l, hl, hlzero, _⟩ => absurd hlzero (hchars l hl).2⟩,
        fun l hl hlzero _ _ => absurd hlzero (hchars l hl).2,
        ⟨fun h0 => absurd h0 (by decide), fun ⟨l, hl, hbad, _⟩ => absurd (hchars l hl).1 hbad⟩,
        fun _ _ => ⟨rfl, ?_⟩, fun x hx => ?_⟩
      · rw [hout _, if_pos rfl]
      · rw [hout x, if_neg (by omega), if_neg (by omega)]

end Exact

/-- Tables from the root at `0x1000` down, with one page: `0x1000` to `0x1fff`, in the frame at
`0x5000`. -/
def onePage : Mem :=
  write64 (write64 (write64 (write64 (fun _ => 0) 0x1000 0x2007) 0x2000 0x3007) 0x3000 0x4007) 0x4008 0x5007

/-- The last three bytes of the page are a string. -/
def stringAtEnd : Mem := setByte (setByte onePage 0x5ffd 0x2f) 0x5ffe 0x61

/-- A string that ends with the page is copied; one byte more could not be read. -/
theorem copyUserCstring_exact_page : ∃ out,
    copyUserCstring stringAtEnd 0x1000 0x1ffd (fun _ => 1) 256 = (0, out) ∧ out 1 = 0x61 := by
  obtain ⟨⟨r, out⟩, h⟩ : ∃ x, copyUserCstring stringAtEnd 0x1000 0x1ffd (fun _ => 1) 256 = x :=
    ⟨_, rfl⟩
  obtain ⟨hzero, hout, _⟩ := copyUserCstring_exact (by decide) h
  have hbytes : ∀ i, i < 2 → userByte stringAtEnd 0x1000 0x1ffd i ≠ 0 := by decide +kernel
  have hreads : ∀ i, i < 3 → userPhys stringAtEnd 0x1000 0x1ffd i ≠ 0
      ∧ userPhys stringAtEnd 0x1000 0x1ffd i < identityEnd := by decide +kernel
  have hlast : userByte stringAtEnd 0x1000 0x1ffd 2 = 0 := by decide +kernel
  have hupto : ∀ i, i ≤ 2 → UserReadable stringAtEnd 0x1000 0x1ffd i :=
    fun i hi => hreads i (by omega)
  have hr : r = 0 := hzero.mpr ⟨2, by decide, hlast, hbytes, hupto⟩
  rw [hr] at h
  refine ⟨out, h, ?_⟩
  rw [hout 2 (by decide) hlast hbytes hupto 1 (by decide)]
  decide +kernel

end VnlKernel
