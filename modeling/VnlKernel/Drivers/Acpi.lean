import VnlKernel.Kernel.Printf
import VnlKernel.Lib.Scan

/-!
# ACPI tables: `src/drivers/acpi.c`

The firmware leaves a pointer to a table of tables, each beginning with a header of 36 bytes that
gives its length. The kernel looks for the one that says how to turn the machine off, and in the
byte code of another for the value to write there. What it reads behind a header is noted down.
-/

namespace VnlKernel

open ByteMem Bits

/-- What is done behind a table's header. -/
inductive AcpiEvent where
  /-- `rsdt->entries[i]` is read. -/
  | entry (rsdt i : Nat)
  /-- The search has come to `dsdt[i]`. -/
  | position (dsdt i : Nat)
  /-- `dsdt[k]` is read. -/
  | body (dsdt k : Nat)
deriving DecidableEq

/-- `sizeof(ACPIHeader)`. -/
def acpiHeaderSize : Nat := 36

/-- `hdr->length`. -/
def acpiLength (m : Mem) (hdr : Nat) : Nat := readLE m (hdr + 4) 4

/-- `memcmp(p, sig, n) == 0`. -/
def acpiSig (m : Mem) (p : Nat) : CStr → Bool
  | [] => true
  | c :: sig => if m p = c then acpiSig m (p + 1) sig else false

/-- The file's static variables. -/
structure AcpiState where
  pm1aPort : Nat
  slpTypa : Nat

/-- `find_rsdp`: the EBDA first, then the BIOS ROM. -/
def findRsdp (m : Mem) : Option Nat :=
  let ebda := readLE m 0x40E 2 * 16
  match Scan.first (fun i => acpiSig m (ebda + 16 * i) (cstr "RSD PTR ")) 64 0 with
  | some i => some (ebda + 16 * i)
  | none => (Scan.first (fun i => acpiSig m (0xE0000 + 16 * i) (cstr "RSD PTR ")) 0x2000 0).map fun i => 0xE0000 + 16 * i

/-! ## `parse_s5` -/

/-- Load `dsdt[k]`. -/
def loadBody (m : Mem) (dsdt k : Nat) : Logged AcpiEvent UInt8 := do
  .note (.body dsdt k)
  return m (dsdt + k)

/-- `dsdt[i] == '_' && dsdt[i+1] == 'S' && ...`. -/
def matchName (m : Mem) (dsdt : Nat) : Nat → CStr → Logged AcpiEvent Bool
  | _, [] => pure true
  | i, c :: name => do
      let b ← loadBody m dsdt i
      if b = c then matchName m dsdt (i + 1) name else return false

/-- The first element of the package behind the name at `i`. -/
def s5Value (m : Mem) (dsdt i : Nat) : Logged AcpiEvent Nat := do
  let p := i + 4
  -- NameOp
  let b ← loadBody m dsdt p
  let p := if b = 0x08 then p + 1 else p
  -- PackageOp
  let b ← loadBody m dsdt p
  let p := if b = 0x12 then p + 1 else p
  -- PkgLength and NumElements
  let p := p + 2
  let b ← loadBody m dsdt p
  if b = 0x0A then
    let v ← loadBody m dsdt (p + 1)
    return v.toNat
  else return b.toNat

/-- The loop, from `i` on. -/
def s5Loop (m : Mem) (dsdt slpTypa : Nat) : Nat → Nat → Logged AcpiEvent Nat
  | 0, _ => pure slpTypa
  | n + 1, i => do
      .note (.position dsdt i)
      let found ← matchName m dsdt i (cstr "_S5_")
      if found then s5Value m dsdt i else s5Loop m dsdt slpTypa n (i + 1)

/-- `parse_s5`: what `acpi_slp_typa` is afterwards. -/
def parseS5 (m : Mem) (dsdt len slpTypa : Nat) : Logged AcpiEvent Nat :=
  s5Loop m dsdt slpTypa (u32 (len + (2 ^ 32 - 8))) 0

/-! ## `acpi_init` -/

/-- The arguments of the last message. -/
def acpiArgs (st : AcpiState) : VaList :=
  ⟨fun i => if i = 0 then BitVec.ofNat 64 st.pm1aPort else BitVec.ofNat 64 st.slpTypa, fun _ => []⟩

/-- What is done when the FADT is found at `fadt`. -/
def acpiFadt (m : Mem) (st : AcpiState) (fadt : Nat) : Logged AcpiEvent (AcpiState × CStr) := do
  let st := { st with pm1aPort := readLE m (fadt + 64) 4 % 2 ^ 16 }
  let dsdt := readLE m (fadt + 40) 4
  let typa ← (if acpiSig m dsdt (cstr "DSDT") then
      parseS5 m (dsdt + acpiHeaderSize) (u32 (sub64 (acpiLength m dsdt) acpiHeaderSize)) st.slpTypa
    else pure st.slpTypa)
  let st := { st with slpTypa := typa }
  let out ← .lift (kprintf (cstr "       ACPI: PM1a=0x%x SLP_TYPa=%d\n") (acpiArgs st))
  return (st, out)

/-- The loop over the entries, from `i` on. -/
def rsdtLoop (m : Mem) (st : AcpiState) (rsdt : Nat) : Nat → Nat → Logged AcpiEvent (AcpiState × CStr)
  | 0, _ => do
      let out ← .lift (kprintf (cstr "       ACPI: no FADT\n") noArgs)
      return (st, out)
  | n + 1, i => do
      .note (.entry rsdt i)
      let hdr := readLE m (rsdt + acpiHeaderSize + 4 * i) 4
      if acpiSig m hdr (cstr "FACP") then acpiFadt m st hdr else rsdtLoop m st rsdt n (i + 1)

/-- `(rsdt->hdr.length - sizeof(ACPIHeader)) / 4`, as a `uint32_t`. -/
def rsdtEntries (m : Mem) (rsdt : Nat) : Nat := u32 (sub64 (acpiLength m rsdt) acpiHeaderSize / 4)

/-- `acpi_init`: the variables afterwards, and what it prints. -/
def acpiInit (m : Mem) (st : AcpiState) : Logged AcpiEvent (AcpiState × CStr) :=
  match findRsdp m with
  | none => do
      let out ← .lift (kprintf (cstr "       ACPI: no RSDP found\n") noArgs)
      return (st, out)
  | some rsdp =>
      let rsdt := readLE m (rsdp + 16) 4
      if !acpiSig m rsdt (cstr "RSDT") then pure (st, [])
      else rsdtLoop m st rsdt (rsdtEntries m rsdt) 0

end VnlKernel
