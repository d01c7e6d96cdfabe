import VnlKernel.Lib.CString
import VnlKernel.Lib.Scan
import VnlKernel.Shell.Words

/-!
# The variable store of `src/shell/sh.c`, byte by byte

The variables are an array of records with a name and a value of fixed size. The words of
a command see a list of names and values; here are the records behind it. A name is compared
with `strcmp` and written with the `strncpy` of `src/lib/string.c`, which pads one byte more
than it is told where the source is short, and none where it is not. A slot that is given up
keeps its bytes until it is written again.
-/

namespace VnlKernel

open ByteMem CString

/-- `while (n--) *dst++ = '\0'`, from `k` on. -/
def zeroFill (dst : Mem) (k n : Nat) : Mem := memset dst k 0 n

/-- `strncpy(dst + k, src, n)`. A terminator that is copied is not counted. -/
def strncpy (dst : Mem) : Nat → CStr → Nat → Mem
  | _, _, 0 => dst
  | k, [], n + 1 => zeroFill (setByte dst k 0) (k + 1) (n + 1)
  | k, c :: src, n + 1 => strncpy (setByte dst k c) (k + 1) src n

/-- A record of `sh_vars`. -/
structure VarSlot where
  name : Mem
  val : Mem
  exported : Bool

/-- Write a value, and set the flag if it is to be set. -/
def VarSlot.write (v : VarSlot) (val : CStr) (exported : Bool) : VarSlot :=
  { v with val := strncpy v.val 0 val (shVarValsz - 1), exported := if exported then true else v.exported }

/-- `sh_vars` and `sh_nvar`. -/
structure VarStore where
  vars : Nat → VarSlot
  nvar : Nat

namespace VarStore

/-- `var_find`: the record's index. -/
def find (st : VarStore) (name : CStr) : Option Nat :=
  Scan.first (fun i => strcmpZero (st.vars i).name 0 name) st.nvar 0

def setSlot (st : VarStore) (i : Nat) (v : VarSlot) : VarStore :=
  { st with vars := fun j => if j = i then v else st.vars j }

/-- `var_set`. -/
def set (st : VarStore) (name val : CStr) (exported : Bool) : VarStore :=
  match st.find name with
  | some i => st.setSlot i ((st.vars i).write val exported)
  | none =>
      if st.nvar ≥ shMaxVars then st
      else
        let v := st.vars st.nvar
        let v := { v with name := strncpy v.name 0 name (shVarNamsz - 1), exported := exported }
        { st.setSlot st.nvar (v.write val exported) with nvar := st.nvar + 1 }

/-- `var_get`: the string that is pointed to. -/
def get (st : VarStore) (name : CStr) : Option CStr :=
  (st.find name).map fun i => strOf (st.vars i).val 0 shVarValsz

/-- The flag that `env` and `export` look at. -/
def flag (st : VarStore) (name : CStr) : Option Bool := (st.find name).map fun i => (st.vars i).exported

/-- `var_unset`: the last record moves into the hole. -/
def unset (st : VarStore) (name : CStr) : VarStore :=
  match st.find name with
  | some i => { st.setSlot i (st.vars (st.nvar - 1)) with nvar := st.nvar - 1 }
  | none => st

/-- Static memory, before the first variable. -/
def init : VarStore := ⟨fun _ => ⟨fun _ => 0, fun _ => 0, false⟩, 0⟩

/-- The records as the words of a command see them. -/
def entries (st : VarStore) : List ShVar :=
  (List.range st.nvar).map fun i =>
    ⟨strOf (st.vars i).name 0 shVarNamsz, strOf (st.vars i).val 0 shVarValsz, (st.vars i).exported⟩

end VarStore

end VnlKernel
