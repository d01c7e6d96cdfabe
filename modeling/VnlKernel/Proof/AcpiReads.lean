import VnlKernel.Drivers.Acpi
import VnlKernel.Proof.FormatText

/-!
# How far the ACPI tables are read

The search for the name stops eight bytes before the end, and what is read behind the name may
be one byte more than that: with both opcodes and a prefix in front of the value. And where a
length is too small to take the eight bytes off, or the header, what is left is taken for a
length of almost 4 GiB.
-/

namespace VnlKernel

open ByteMem Bits Logged

/-! ## `parse_s5` -/

/-- `entries` and `bytes` say how many there are behind the header of a table. -/
def AcpiEvent.Within (entries bytes : Nat → Nat) : AcpiEvent → Prop
  | .entry rsdt i => i < entries rsdt
  | .position dsdt i => i < bytes dsdt
  | .body dsdt k => k < bytes dsdt

/-- **`parse_s5` reads `dsdt[0..len)` only**, and goes through `len` positions at most. -/
def ParsesWithin (m : Mem) (dsdt len slpTypa : Nat) : Prop :=
  Fine (AcpiEvent.Within (fun _ => 0) fun _ => len) (parseS5 m dsdt len slpTypa)

/-- The name is at `i`. -/
def NameAt (m : Mem) (dsdt i : Nat) : Prop := acpiSig m (dsdt + i) (cstr "_S5_") = true

instance (m : Mem) (dsdt i : Nat) : Decidable (NameAt m dsdt i) := inferInstanceAs (Decidable (_ = _))

/-- The name is at `i`, and nowhere before. -/
def FirstName (m : Mem) (dsdt i : Nat) : Prop := NameAt m dsdt i ∧ ∀ j, j < i → ¬ NameAt m dsdt j

/-- Both opcodes and the prefix follow the name at `i`. -/
def LongForm (m : Mem) (dsdt i : Nat) : Prop :=
  m (dsdt + (i + 4)) = 0x08 ∧ m (dsdt + (i + 5)) = 0x12 ∧ m (dsdt + (i + 8)) = 0x0A

/-- None of them does. -/
def ShortForm (m : Mem) (dsdt i : Nat) : Prop :=
  m (dsdt + (i + 4)) ≠ 0x08 ∧ m (dsdt + (i + 4)) ≠ 0x12 ∧ m (dsdt + (i + 6)) ≠ 0x0A

/-- The byte code is long enough, and what is in its last nine bytes does not need ten. -/
def S5Fits (m : Mem) (dsdt len : Nat) : Prop :=
  8 ≤ len ∧ (∀ i, i + 9 = len → FirstName m dsdt i → ¬ LongForm m dsdt i)
    ∨ len = 7 ∧ NameAt m dsdt 0 ∧ ShortForm m dsdt 0

/-- The last byte that is read behind the name at `i`. -/
def s5End (m : Mem) (dsdt i : Nat) : Nat :=
  let p := i + 4
  let p := if m (dsdt + p) = 0x08 then p + 1 else p
  let p := if m (dsdt + p) = 0x12 then p + 1 else p
  let p := p + 2
  if m (dsdt + p) = 0x0A then p + 1 else p

section Body

variable {m : Mem} {dsdt len slpTypa : Nat} {entries bytes : Nat → Nat}

theorem fine_loadBody {P : AcpiEvent → Prop} {α : Type} {k : Nat} {f : UInt8 → Logged AcpiEvent α} :
    Fine P (loadBody m dsdt k >>= f) ↔ P (.body dsdt k) ∧ Fine P (f (m (dsdt + k))) := by
  rw [loadBody, Logged.bind_assoc, fine_bind, fine_note]
  exact and_congr_right fun _ => ⟨fun h => h () rfl, fun h _ _ => h⟩

/-- The name is compared as far as it agrees. -/
theorem matchName_out : ∀ {name : CStr} {i : Nat},
    (matchName m dsdt i name).out = .done (acpiSig m (dsdt + i) name)
  | [], _ => rfl
  | c :: name, i => by
      rw [matchName, acpiSig, loadBody, Logged.bind_assoc, bind_of_done (a := ()) rfl,
        bind_of_done (a := m (dsdt + i)) rfl]
      change (if m (dsdt + i) = c then matchName m dsdt (i + 1) name else pure false).out = _
      split
      · rw [matchName_out, Nat.add_assoc]
      · rfl

theorem matchName_fine : ∀ {name : CStr} {i : Nat}, i + name.length ≤ bytes dsdt →
    Fine (AcpiEvent.Within entries bytes) (matchName m dsdt i name)
  | [], _, _ => fine_pure _
  | c :: name, i, h => by
      rw [List.length_cons] at h
      rw [matchName, fine_loadBody]
      refine ⟨show i < bytes dsdt by omega, ?_⟩
      split
      · exact matchName_fine (by omega)
      · exact fine_pure _

/-- **What follows the name** is read in bounds if the last byte of it is. -/
theorem s5Value_fine {i : Nat} : Fine (AcpiEvent.Within entries bytes) (s5Value m dsdt i)
    ↔ s5End m dsdt i < bytes dsdt := by
  unfold s5Value s5End
  dsimp only
  rw [fine_loadBody, fine_loadBody, fine_loadBody]
  obtain ⟨p, hp⟩ : ∃ p, (if m (dsdt + (i + 4)) = 0x08 then i + 4 + 1 else i + 4) = p := ⟨_, rfl⟩
  rw [hp]
  obtain ⟨q, hq⟩ : ∃ q, (if m (dsdt + p) = 0x12 then p + 1 else p) = q := ⟨_, rfl⟩
  rw [hq]
  have hple : i + 4 ≤ p := by
    rw [← hp]
    split
    · exact Nat.le_succ _
    · exact Nat.le_refl _
  have hqle : p ≤ q := by
    rw [← hq]
    split
    · exact Nat.le_succ _
    · exact Nat.le_refl _
  simp only [AcpiEvent.Within]
  split
  · rw [fine_loadBody]
    simp only [AcpiEvent.Within]
    exact ⟨fun h => h.2.2.2.1, fun h => ⟨by omega, by omega, by omega, h, fine_pure _⟩⟩
  · exact ⟨fun h => h.2.2.1, fun h => ⟨by omega, by omega, h, fine_pure _⟩⟩

theorem s5End_bounds (m : Mem) (dsdt i : Nat) : i + 6 ≤ s5End m dsdt i ∧ s5End m dsdt i ≤ i + 9
    ∧ (s5End m dsdt i = i + 9 ↔ LongForm m dsdt i)
      ∧ (s5End m dsdt i = i + 6 ↔ ShortForm m dsdt i) := by
  unfold s5End LongForm ShortForm
  by_cases h8 : m (dsdt + (i + 4)) = 0x08
  · by_cases h12 : m (dsdt + (i + 5)) = 0x12
    · simp only [h8, if_true, h12, Nat.add_assoc, Nat.reduceAdd, true_and]
      split
      · simp [*]
      · simp [*]
    · simp only [h8, if_true, h12, if_false, Nat.add_assoc, Nat.reduceAdd]
      split
      · simp
      · simp
  · by_cases h12 : m (dsdt + (i + 4)) = 0x12
    · simp only [if_neg h8, if_pos h12, Nat.add_assoc, Nat.reduceAdd]
      split
      · simp [h12]
      · simp [h12]
    · simp only [h8, h12, if_false, Nat.add_assoc, Nat.reduceAdd]
      split
      · simp [*]
      · simp [*]

theorem matchName_start {i : Nat} : AcpiEvent.body dsdt i ∈
    (matchName m dsdt i (cstr "_S5_")).log := by
  change AcpiEvent.body dsdt i ∈ (matchName m dsdt i (0x5F :: cstr "S5_")).log
  rw [matchName, loadBody, Logged.bind_assoc]
  exact mem_bind.mpr (.inl (by simp))

/-- **The search**: it comes to a position if the name is not before it, and goes on with what
follows the name. -/
theorem s5Loop_fine : ∀ {n i : Nat}, Fine (AcpiEvent.Within entries bytes)
    (s5Loop m dsdt slpTypa n i)
    ↔ ∀ j, i ≤ j → j < i + n → (∀ k, i ≤ k → k < j → ¬ NameAt m dsdt k) →
      Fine (AcpiEvent.Within entries bytes) (matchName m dsdt j (cstr "_S5_"))
        ∧ (NameAt m dsdt j → s5End m dsdt j < bytes dsdt)
  | 0, i => ⟨fun _ j h1 h2 => absurd h2 (by omega), fun _ => fine_pure _⟩
  | n + 1, i => by
      have hpos : ∀ x : Logged AcpiEvent Nat,
          Fine (AcpiEvent.Within entries bytes) (.note (.position dsdt i) >>= fun _ =>
          matchName m dsdt i (cstr "_S5_") >>= fun found =>
            if found = true then s5Value m dsdt i else x)
          ↔ Fine (AcpiEvent.Within entries bytes) (matchName m dsdt i (cstr "_S5_"))
            ∧ (if NameAt m dsdt i then s5End m dsdt i < bytes dsdt else Fine
                (AcpiEvent.Within entries bytes) x) := by
        intro x
        have hif : Fine (AcpiEvent.Within entries bytes)
          (if acpiSig m (dsdt + i) (cstr "_S5_") = true then s5Value m dsdt i else x)
            ↔ (if NameAt m dsdt i then s5End m dsdt i < bytes dsdt else Fine
                (AcpiEvent.Within entries bytes) x) := by
          by_cases hat : acpiSig m (dsdt + i) (cstr "_S5_") = true
          · rw [if_pos hat, if_pos (show NameAt m dsdt i from hat), s5Value_fine]
          · rw [if_neg hat, if_neg (show ¬ NameAt m dsdt i from hat)]
        rw [fine_bind_done (a := ()) rfl, fine_bind_done matchName_out, hif]
        constructor
        · intro ⟨_, hname, hrest⟩
          exact ⟨⟨hname, _, matchName_out⟩, hrest⟩
        · intro ⟨hname, hrest⟩
          refine ⟨fun e he => ?_, hname.1, hrest⟩
          rw [note_log, List.mem_singleton] at he
          rw [he]
          exact hname.1 (.body dsdt i) matchName_start
      rw [s5Loop, hpos]
      by_cases hat : NameAt m dsdt i
      · -- the search ends here
        rw [if_pos hat, Scan.upToFirst_here hat]
      · rw [if_neg hat, s5Loop_fine, Scan.upToFirst_later hat]

/-- **`parse_s5` stays inside the byte code exactly if** it has eight bytes and its last nine do not
need ten, or it has seven and begins with the name and nothing optional. -/
theorem parseS5_fine (hlen : len < 2 ^ 32) (hbytes : bytes dsdt = len) :
    Fine (AcpiEvent.Within entries bytes) (parseS5 m dsdt len slpTypa) ↔ S5Fits m dsdt len := by
  rw [parseS5, s5Loop_fine, hbytes]
  have hname : (cstr "_S5_").length = 4 := by decide
  by_cases h8 : 8 ≤ len
  · have hlim : u32 (len + (2 ^ 32 - 8)) = len - 8 := by
      unfold u32
      omega
    rw [hlim]
    constructor
    · intro h
      refine .inl ⟨h8, fun i hi hfirst hlong => ?_⟩
      obtain ⟨_, hend⟩ := h i (Nat.zero_le i) (by omega) fun k _ hk => hfirst.2 k hk
      -- an object that needs ten bytes ends behind the last of nine
      have hlast := (s5End_bounds m dsdt i).2.2.1.mpr hlong
      have := hend hfirst.1
      omega
    · intro h j _ hj hno
      refine ⟨matchName_fine (by omega), fun hat => ?_⟩
      obtain ⟨_, hhigh, hlong, _⟩ := s5End_bounds m dsdt j
      by_cases hj9 : j + 9 = len
      · rcases h with ⟨_, h⟩ | ⟨h7, _⟩
        · have hne : s5End m dsdt j ≠ j + 9 :=
            fun he => h j hj9 ⟨hat, fun k hk => hno k (Nat.zero_le k) hk⟩ (hlong.mp he)
          omega
        · omega
      · omega
  · -- nothing can be taken off the length, and the search goes on behind the end
    have hlim : len < u32 (len + (2 ^ 32 - 8)) := by
      unfold u32
      omega
    constructor
    · intro h
      -- so the name must be found inside, at its start
      have hfound : ∃ j, j < len ∧ FirstName m dsdt j := by
        by_contra hno
        have hnone : ∀ k, k < len → ¬ NameAt m dsdt k := by
          intro k
          induction k using Nat.strong_induction_on with
          | _ k ih =>
              intro hk hat
              exact hno ⟨k, hk, hat, fun j hj => ih j hj (by omega)⟩
        have hread : len < bytes dsdt :=
          (h len (Nat.zero_le _) (by omega) fun k _ hk => hnone k hk).1.1 _ matchName_start
        rw [hbytes] at hread
        exact absurd hread (Nat.lt_irrefl len)
      obtain ⟨j, hj, hat, hfirst⟩ := hfound
      have hend := (h j (Nat.zero_le j) (by omega) fun k _ hk => hfirst k hk).2 hat
      obtain ⟨hlow, _, _, hshort⟩ := s5End_bounds m dsdt j
      obtain rfl : j = 0 := by omega
      exact .inr ⟨by omega, hat, hshort.mp (by omega)⟩
    · intro h j _ hj hno
      rcases h with ⟨h8', _⟩ | ⟨h7, hat, hshort⟩
      · exact absurd h8' h8
      · have hj0 : j = 0 := by
          by_contra hne
          exact hno 0 (Nat.le_refl 0) (by omega) hat
        rw [hj0]
        refine ⟨matchName_fine (by omega), fun _ => ?_⟩
        have := (s5End_bounds m dsdt 0).2.2.2.mpr hshort
        omega

end Body

/-! ## `acpi_init` -/

/-- How many entries fit in the table's length field. -/
def entriesFitting (m : Mem) (rsdt : Nat) : Nat := (acpiLength m rsdt - acpiHeaderSize) / 4

/-- How many bytes there are from `body` on, behind a header. -/
def bodyLength (m : Mem) (body : Nat) : Nat := acpiLength m (body - acpiHeaderSize) - acpiHeaderSize

/-- **`acpi_init` reads as many entries as fit**, and returns; nor does it leave the byte code. -/
def InitWithin (m : Mem) (st : AcpiState) : Prop :=
  Fine (AcpiEvent.Within (entriesFitting m) (bodyLength m)) (acpiInit m st)

/-- The entry `i` leads to the FADT. -/
def IsFadt (m : Mem) (rsdt i : Nat) : Prop :=
  acpiSig m (readLE m (rsdt + acpiHeaderSize + 4 * i) 4) (cstr "FACP") = true

instance (m : Mem) (rsdt i : Nat) : Decidable (IsFadt m rsdt i) := inferInstanceAs (Decidable (_ = _))

/-- The DSDT that the table at `fadt` names has a header, and its byte code fits. -/
def DsdtFits (m : Mem) (fadt : Nat) : Prop :=
  acpiSig m (readLE m (fadt + 40) 4) (cstr "DSDT") = true → acpiHeaderSize ≤ acpiLength m (readLE m (fadt + 40) 4)
    ∧ S5Fits m (readLE m (fadt + 40) 4 + acpiHeaderSize) (acpiLength m (readLE m (fadt + 40) 4) - acpiHeaderSize)

/-- If there is an RSDT it has a header, and the DSDT behind the first FADT it leads to fits. -/
def TablesFit (m : Mem) : Prop :=
  ∀ rsdp, findRsdp m = some rsdp → acpiSig m (readLE m (rsdp + 16) 4) (cstr "RSDT") = true →
    acpiHeaderSize ≤ acpiLength m (readLE m (rsdp + 16) 4)
      ∧ ∀ i, i < entriesFitting m (readLE m (rsdp + 16) 4) → IsFadt m (readLE m (rsdp + 16) 4) i →
        (∀ j, j < i → ¬ IsFadt m (readLE m (rsdp + 16) 4) j) →
        DsdtFits m (readLE m (readLE m (rsdp + 16) 4 + acpiHeaderSize + 4 * i) 4)

section Init

variable {m : Mem} {st : AcpiState} {rsdt fadt : Nat}

theorem acpiLength_lt (m : Mem) (hdr : Nat) : acpiLength m hdr < 2 ^ 32 := readLE_lt m 4 _

/-- A length that the header can be taken off. -/
theorem sub_header {len : Nat} (hlen : len < 2 ^ 32) (h : acpiHeaderSize ≤ len) :
    sub64 len acpiHeaderSize = len - acpiHeaderSize := sub64_of_le h (by omega)

/-- And one that it cannot. -/
theorem sub_header_wraps {len : Nat} (h : ¬ acpiHeaderSize ≤ len) :
    sub64 len acpiHeaderSize = 2 ^ 64 + len - acpiHeaderSize := by
  have hsize : acpiHeaderSize = 36 := rfl
  unfold sub64 u64
  omega

theorem acpiFadt_fine {entries : Nat → Nat} :
    Fine (AcpiEvent.Within entries (bodyLength m)) (acpiFadt m st fadt) ↔ DsdtFits m fadt := by
  have hsize : acpiHeaderSize = 36 := rfl
  obtain ⟨dsdt, hd⟩ : ∃ dsdt, readLE m (fadt + 40) 4 = dsdt := ⟨_, rfl⟩
  have hlen := acpiLength_lt m dsdt
  have hout : ∀ st' : AcpiState, Fine (AcpiEvent.Within entries (bodyLength m)) (do
      let out ← Logged.lift (kprintf (cstr "       ACPI: PM1a=0x%x SLP_TYPa=%d\n") (acpiArgs st'))
      return (st', out)) := by
    intro st'
    rw [kprintf_done (by decide) (by decide) (ending_noString _ (by decide))]
    exact ⟨fun e he => absurd he List.not_mem_nil, _, rfl⟩
  unfold acpiFadt DsdtFits
  dsimp only
  rw [hd, fine_bind]
  by_cases hsig : acpiSig m dsdt (cstr "DSDT") = true
  · rw [if_pos hsig, forall_prop_of_true hsig, and_iff_left fun typa _ => hout _]
    by_cases hhdr : acpiHeaderSize ≤ acpiLength m dsdt
    · have hbytes : bodyLength m (dsdt + acpiHeaderSize) = acpiLength m dsdt - acpiHeaderSize := by
        rw [bodyLength, Nat.add_sub_cancel]
      have hblen : u32 (sub64 (acpiLength m dsdt) acpiHeaderSize)
          = acpiLength m dsdt - acpiHeaderSize := by
        rw [sub_header hlen hhdr, u32, Nat.mod_eq_of_lt (by omega)]
      rw [hblen, parseS5_fine (by omega) hbytes, and_iff_right hhdr]
    · -- the first read is behind the table
      refine iff_of_false (fun h => ?_) (fun h => hhdr h.1)
      have hlim : 0 < u32 (u32 (sub64 (acpiLength m dsdt) acpiHeaderSize) + (2 ^ 32 - 8)) := by
        rw [sub_header_wraps hhdr]
        unfold u32
        omega
      rw [parseS5, s5Loop_fine] at h
      have hread : 0 < bodyLength m (dsdt + acpiHeaderSize) :=
        (h 0 (Nat.le_refl 0) (by omega) fun k _ hk =>
          absurd hk (Nat.not_lt_zero k)).1.1 _ matchName_start
      rw [bodyLength, Nat.add_sub_cancel] at hread
      omega
  · rw [if_neg hsig]
    exact iff_of_true ⟨fine_pure _, fun typa _ => hout _⟩ fun h => absurd h hsig

/-- **The loop over the entries.** -/
theorem rsdtLoop_fine : ∀ {n i : Nat},
    Fine (AcpiEvent.Within (entriesFitting m) (bodyLength m)) (rsdtLoop m st rsdt n i)
      ↔ ∀ j, i ≤ j → j < i + n → (∀ k, i ≤ k → k < j → ¬ IsFadt m rsdt k)
        → j < entriesFitting m rsdt
        ∧ (IsFadt m rsdt j → DsdtFits m (readLE m (rsdt + acpiHeaderSize + 4 * j) 4))
  | 0, i => by
      rw [rsdtLoop, kprintf_done (by decide) (by decide) (ending_noString _ (by decide))]
      exact iff_of_true ⟨fun e he => absurd he List.not_mem_nil, _, rfl⟩ fun j h1 h2 =>
        absurd h2 (by omega)
  | n + 1, i => by
      rw [rsdtLoop, fine_bind_done (a := ()) rfl]
      have hnote : (∀ e ∈ (note (AcpiEvent.entry rsdt i)).log,
        e.Within (entriesFitting m) (bodyLength m))
          ↔ i < entriesFitting m rsdt :=
        ⟨fun h => h _ (List.mem_singleton_self _), fun h e he => by
          rw [note_log, List.mem_singleton] at he
          rw [he]
          exact h⟩
      rw [hnote]
      by_cases hat : IsFadt m rsdt i
      · -- the loop ends here
        rw [if_pos (show acpiSig m _ _ = true from hat), acpiFadt_fine, Scan.upToFirst_here hat]
      · rw [if_neg (show ¬ acpiSig m _ _ = true from hat), rsdtLoop_fine, Scan.upToFirst_later hat]

theorem initWithin_iff : InitWithin m st ↔ TablesFit m := by
  have hsize : acpiHeaderSize = 36 := rfl
  unfold InitWithin acpiInit TablesFit
  cases hrsdp : findRsdp m with
  | none =>
      dsimp only
      rw [kprintf_done (by decide) (by decide) (ending_noString _ (by decide))]
      exact iff_of_true ⟨fun e he => absurd he List.not_mem_nil, _, rfl⟩ fun rsdp h =>
        absurd h (by simp)
  | some rsdp =>
      dsimp only
      obtain ⟨rsdt, hr⟩ : ∃ rsdt, readLE m (rsdp + 16) 4 = rsdt := ⟨_, rfl⟩
      have hone : ∀ P : Nat → Prop, (∀ rsdp', some rsdp = some rsdp' → P rsdp') ↔ P rsdp :=
        fun P => ⟨fun h => h rsdp rfl, fun h rsdp' he => Option.some.inj he ▸ h⟩
      rw [hone fun rsdp => acpiSig m (readLE m (rsdp + 16) 4) (cstr "RSDT") = true → _, hr]
      have hlen := acpiLength_lt m rsdt
      by_cases hsig : acpiSig m rsdt (cstr "RSDT") = true
      · rw [hsig, Bool.not_true, if_neg Bool.false_ne_true, forall_prop_of_true rfl, rsdtLoop_fine]
        by_cases hhdr : acpiHeaderSize ≤ acpiLength m rsdt
        · have hentries : rsdtEntries m rsdt = entriesFitting m rsdt := by
            rw [rsdtEntries, sub_header hlen hhdr, entriesFitting, u32, Nat.mod_eq_of_lt (by omega)]
          rw [and_iff_right hhdr, hentries]
          constructor
          · intro h i hi hat hno
            exact (h i (Nat.zero_le i) (by omega) fun k _ hk => hno k hk).2 hat
          · intro h j _ hj hno
            rw [Nat.zero_add] at hj
            exact ⟨hj, fun hat => h j hj hat fun k hk => hno k (Nat.zero_le k) hk⟩
        · -- none fits, and the first one is read
          refine iff_of_false (fun h => ?_) (fun h => hhdr h.1)
          have hentries : 0 < rsdtEntries m rsdt := by
            rw [rsdtEntries, sub_header_wraps hhdr]
            unfold u32
            omega
          have hread := (h 0 (Nat.le_refl 0) (by omega) fun k _ hk =>
            absurd hk (Nat.not_lt_zero k)).1
          rw [entriesFitting] at hread
          omega
      · rw [Bool.not_eq_true] at hsig
        rw [hsig, Bool.not_false, if_pos rfl]
        exact iff_of_true (fine_pure _) fun h => Bool.noConfusion h

end Init

/-- **The tables are read within their lengths exactly if** they have a header each, and the byte
code does not end in the middle of what follows the name. -/
theorem acpi_within_iff (m : Mem) :
    (∀ dsdt len slpTypa : Nat, len < 2 ^ 32 → (ParsesWithin m dsdt len slpTypa ↔ S5Fits m dsdt len))
    ∧ ∀ st : AcpiState, InitWithin m st ↔ TablesFit m :=
  ⟨fun _ _ _ hlen => parseS5_fine hlen rfl, fun _ => initWithin_iff⟩

/-- Byte code that begins with the name and a package. -/
def s5Code : Mem := CString.ofStr (cstr "_S5_" ++ [0x12, 0x06, 0x04, 0x0A, 0x05, 0x00])

/-- Write a text. -/
def writeText (m : Mem) (a : Nat) (s : CStr) : Mem := fun x => if a ≤ x ∧ x < a + s.length then s.getD (x - a) 0 else m x

/-- An RSDP in the EBDA, an RSDT of the given length with one entry, and what that leads to. -/
def acpiTables (rsdtLength : Nat) : Mem :=
  writeText (writeLE (writeText (writeLE (writeText (writeLE (writeLE (writeText (writeLE (writeText (writeLE (fun _ => 0)
    0x40E 2 0x9FC0) 0x9FC00 (cstr "RSD PTR ")) 0x9FC10 4 0x1000) 0x1000 (cstr "RSDT")) 0x1004 4 rsdtLength)
    0x1024 4 0x2000) 0x2000 (cstr "FACP")) 0x2028 4 0x3000) 0x3000 (cstr "DSDT")) 0x3004 4 46)
    0x3024 (cstr "_S5_" ++ [0x12, 0x06, 0x04, 0x0A, 0x05, 0x00])

/-- Tables with one entry each. -/
theorem acpi_within_tables : ParsesWithin s5Code 0 10 5 ∧ InitWithin (acpiTables 40) ⟨0, 5⟩ := by
  refine ⟨((acpi_within_iff s5Code).1 0 10 5 (by decide)).mpr
    (.inl ⟨by decide, fun i hi hfirst => ?_⟩),
    ((acpi_within_iff (acpiTables 40)).2 ⟨0, 5⟩).mpr fun rsdp hrsdp _ => ?_⟩
  · obtain rfl : i = 1 := by omega
    exact absurd hfirst.1 (by decide)
  · have hfound : findRsdp (acpiTables 40) = some 0x9FC00 := by decide +kernel
    obtain rfl := Option.some.inj (hfound.symm.trans hrsdp)
    refine ⟨by decide +kernel, fun i hi _ _ _ => ?_⟩
    have hcount : entriesFitting (acpiTables 40) (readLE (acpiTables 40) (0x9FC00 + 16) 4)
      = 1 := by decide +kernel
    obtain rfl : i = 0 := by omega
    have hdsdt : readLE (acpiTables 40) (readLE (acpiTables 40)
      (readLE (acpiTables 40) (0x9FC00 + 16) 4
        + acpiHeaderSize + 4 * 0) 4 + 40) 4 = 0x3000 := by decide +kernel
    have hlen : acpiLength (acpiTables 40) 0x3000 - acpiHeaderSize = 10 := by decide +kernel
    rw [hdsdt, hlen]
    refine ⟨by decide +kernel, .inl ⟨by decide, fun i hi hfirst => ?_⟩⟩
    obtain rfl : i = 1 := by omega
    exact absurd hfirst.1 (by decide +kernel)

/-- **The last nine bytes need ten, and an RSDT has no length**: what is read is behind the table.
-/
theorem acpi_leaves_tables : (¬ ∀ (m : Mem) (dsdt len slpTypa : Nat), len < 2 ^ 32 → ParsesWithin m dsdt len slpTypa)
    ∧ ¬ ∀ (m : Mem) (st : AcpiState), InitWithin m st := by
  constructor
  · intro h
    have hfits := (parseS5_fine (by decide) rfl).mp
      (h (CString.ofStr (cstr "_S5_" ++ [0x08, 0x12, 0x06, 0x04, 0x0A])) 0 9 5 (by decide))
    rcases hfits with ⟨_, hno⟩ | ⟨h7, _⟩
    · exact hno 0 rfl ⟨by decide, fun j hj => absurd hj (Nat.not_lt_zero j)⟩
        ⟨by decide, by decide, by decide⟩
    · exact absurd h7 (by decide)
  · intro h
    have hfits := initWithin_iff.mp (h (acpiTables 0) ⟨0, 5⟩) 0x9FC00 (by decide +kernel)
      (by decide +kernel)
    exact absurd hfits.1 (by decide +kernel)

end VnlKernel
