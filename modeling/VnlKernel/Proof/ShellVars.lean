import VnlKernel.Lib.Run
import VnlKernel.Shell.VarStore

/-!
# The variable store is a finite map

The records in use have different names, and every name and value ends inside its array.
The last byte of each array is written by no copy but one that pads, so it stays zero, and
an older, longer value shows nowhere. From this the operations are those of a map that
takes 128 names and cuts values at 511 bytes.
-/

namespace VnlKernel

open ByteMem CString

/-! ## The copy -/

section Copy

variable {dst : Mem} {src : CStr} {k n j : Nat}

theorem strncpy_below : ∀ {src : CStr} {n : Nat} {dst : Mem} {k : Nat},
    j < k → strncpy dst k src n j = dst j
  | _, 0, _, _, _ => by rw [strncpy]
  | [], n + 1, dst, k, h => by
      rw [strncpy, zeroFill, memset_out (Or.inl (by omega)), setByte_ne (by omega)]
  | c :: src, n + 1, dst, k, h => by
      rw [strncpy, strncpy_below (by omega), setByte_ne (by omega)]

/-- What is copied. -/
theorem strncpy_in : ∀ {src : CStr} {n : Nat} {dst : Mem} {k j : Nat} (h : j < src.length), j < n →
    strncpy dst k src n (k + j) = src[j]
  | [], _, _, _, _, h, _ => absurd h (by simp)
  | _ :: _, 0, _, _, _, _, hn => absurd hn (by omega)
  | c :: src, n + 1, dst, k, 0, _, _ => by
      rw [strncpy, strncpy_below (by omega)]
      exact setByte_self _ _ _
  | c :: src, n + 1, dst, k, j + 1, h, hn => by
      rw [strncpy, show k + (j + 1) = k + 1 + j by omega, strncpy_in (by simpa using h) (by omega)]
      rfl

/-- The padding goes one byte further than the copy may. -/
theorem strncpy_pad : ∀ {src : CStr} {n : Nat} {dst : Mem} {k j : Nat}, src.length < n
    → src.length ≤ j → j ≤ n →
    strncpy dst k src n (k + j) = 0
  | _, 0, _, _, _, h, _, _ => absurd h (by omega)
  | [], n + 1, dst, k, j, _, _, hj => by
      rw [strncpy, zeroFill]
      by_cases h0 : j = 0
      · rw [h0, memset_out (Or.inl (by omega))]
        exact setByte_self _ _ _
      · exact memset_in (by omega) (by omega)
  | c :: src, n + 1, dst, k, 0, _, h, _ => absurd h (by simp)
  | c :: src, n + 1, dst, k, j + 1, hn, h, hj => by
      rw [List.length_cons] at hn h
      rw [strncpy, show k + (j + 1) = k + 1
        + j by omega, strncpy_pad (by omega) (by omega) (by omega)]

/-- A source that fills the room leaves what is behind it. -/
theorem strncpy_beyond : ∀ {src : CStr} {n : Nat} {dst : Mem} {k j : Nat}, n ≤ src.length → n ≤ j →
    strncpy dst k src n (k + j) = dst (k + j)
  | _, 0, _, _, _, _, _ => by rw [strncpy]
  | [], n + 1, _, _, _, h, _ => absurd h (by simp)
  | c :: src, n + 1, dst, k, 0, _, h => absurd h (by omega)
  | c :: src, n + 1, dst, k, j + 1, hn, h => by
      rw [List.length_cons] at hn
      rw [strncpy, show k + (j + 1) = k + 1 + j by omega, strncpy_beyond (by omega) (by omega),
        setByte_ne (by omega)]

/-- The last byte stays zero. -/
theorem strncpy_last (h : dst n = 0) : strncpy dst 0 src n n = 0 := by
  by_cases hlen : src.length < n
  · have hpad : strncpy dst 0 src n (0 + n) = 0 := strncpy_pad hlen (by omega) (Nat.le_refl n)
    rwa [Nat.zero_add] at hpad
  · have hbeyond : strncpy dst 0 src n (0 + n) = dst (0 + n) :=
      strncpy_beyond (show n ≤ src.length by omega) (Nat.le_refl n)
    rw [Nat.zero_add] at hbeyond
    rw [hbeyond, h]

/-- **What a buffer holds after a copy**: as much of the source as fits. -/
theorem strOf_strncpy (h : dst n = 0) (hs : (0 : UInt8) ∉ src) :
    strOf (strncpy dst 0 src n) 0 (n + 1) = src.take n := by
  have hlen : (src.take n).length = min n src.length := List.length_take
  refine strOf_eq (fun j hj => ?_) (fun h => hs (List.mem_of_mem_take h)) (by omega) ?_
  · rw [hlen] at hj
    rw [strncpy_in (by omega) (by omega), List.getElem_take]
  · rw [hlen]
    by_cases hle : n ≤ src.length
    · rw [Nat.min_eq_left hle, Nat.zero_add]
      exact strncpy_last h
    · rw [Nat.min_eq_right (by omega)]
      exact strncpy_pad (by omega) (Nat.le_refl _) (by omega)

end Copy

/-! ## The invariant -/

/-- A name that fits its array. -/
structure VarStore.IsName (name : CStr) : Prop where
  ne_nil : name ≠ []
  short : name.length < shVarNamsz
  noZero : (0 : UInt8) ∉ name

namespace VarStore

/-- The name in a slot. -/
def nameAt (st : VarStore) (i : Nat) : CStr := strOf (st.vars i).name 0 shVarNamsz

/-- The record of a name. -/
def record (st : VarStore) (name : CStr) : Option VarSlot := (st.find name).map st.vars

/-- **Names differ, and every array ends in a zero.** The last is true of the slots not in use, too.
-/
structure Inv (st : VarStore) : Prop where
  room : st.nvar ≤ shMaxVars
  name : ∀ i, (st.vars i).name (shVarNamsz - 1) = 0
  val : ∀ i, (st.vars i).val (shVarValsz - 1) = 0
  distinct : ∀ i j, i < st.nvar → j < st.nvar → st.nameAt i = st.nameAt j → i = j

section Find

variable {st : VarStore} {name val : CStr} {exported : Bool} {i j : Nat}

theorem strcmp_name (h : (st.vars i).name (shVarNamsz - 1) = 0) (hn : (0 : UInt8) ∉ name) :
    strcmpZero (st.vars i).name 0 name = true ↔ st.nameAt i = name :=
  strcmpZero_iff ⟨shVarNamsz - 1, Nat.zero_le _, by decide, h⟩ hn

theorem Inv.find_iff (h : Inv st) (hn : (0 : UInt8) ∉ name) :
    st.find name = some i ↔ i < st.nvar ∧ st.nameAt i = name := by
  constructor
  · intro hf
    obtain ⟨hp, _, hlt, _⟩ := Scan.first_some hf
    exact ⟨by omega, (strcmp_name (h.name i) hn).mp hp⟩
  · rintro ⟨hlt, hi⟩
    refine Scan.first_unique hlt ((strcmp_name (h.name i) hn).mpr hi) fun j hj hp => ?_
    have hjn := (strcmp_name (h.name j) hn).mp hp
    exact h.distinct j i hj hlt (hjn.trans hi.symm)

theorem Inv.find_none (h : Inv st) (hn : (0 : UInt8) ∉ name) (hf : st.find name = none)
    (hi : i < st.nvar) :
    st.nameAt i ≠ name := by
  intro heq
  rw [(h.find_iff hn).mpr ⟨hi, heq⟩] at hf
  exact absurd hf (by simp)

@[simp] theorem setSlot_self (v : VarSlot) : (st.setSlot i v).vars i = v := if_pos rfl

theorem setSlot_ne (v : VarSlot) (h : j ≠ i) : (st.setSlot i v).vars j = st.vars j := if_neg h

/-- Writing a value leaves the array terminated. -/
theorem write_val {v : VarSlot} (h : v.val (shVarValsz - 1) = 0) :
    (v.write val exported).val (shVarValsz - 1) = 0 := strncpy_last h

theorem strOf_write {v : VarSlot} (h : v.val (shVarValsz - 1) = 0) (hv : (0 : UInt8) ∉ val) :
    strOf (v.write val exported).val 0 shVarValsz = val.take (shVarValsz - 1) := strOf_strncpy h hv

end Find

/-! ## Setting -/

section Set

variable {st : VarStore} {name val other : CStr} {exported : Bool} {i : Nat}

/-- The record that a new variable is written to, with its name. -/
def named (st : VarStore) (name : CStr) (exported : Bool) : VarSlot :=
  { st.vars st.nvar with name := strncpy (st.vars st.nvar).name 0 name (shVarNamsz - 1), exported := exported }

/-- The three things that `var_set` can do. -/
theorem set_cases (st : VarStore) (name val : CStr) (exported : Bool) :
    (∃ i, st.find name = some i ∧ st.set name val exported = st.setSlot i
      ((st.vars i).write val exported))
      ∨ (st.find name = none ∧ shMaxVars ≤ st.nvar ∧ st.set name val exported = st)
      ∨ (st.find name = none ∧ st.nvar < shMaxVars ∧ st.set name val exported
          = { st.setSlot st.nvar ((st.named name exported).write val exported)
            with nvar := st.nvar + 1 }) := by
  unfold set
  cases hf : st.find name with
  | some i => exact Or.inl ⟨i, rfl, rfl⟩
  | none =>
      dsimp only
      by_cases hroom : st.nvar ≥ shMaxVars
      · rw [if_pos hroom]
        exact Or.inr (Or.inl ⟨rfl, hroom, rfl⟩)
      · rw [if_neg hroom]
        exact Or.inr (Or.inr ⟨rfl, by omega, rfl⟩)

theorem nameAt_named (h : Inv st) (hn : IsName name) (exported : Bool) :
    strOf (st.named name exported).name 0 shVarNamsz = name := by
  have hstr := strOf_strncpy (h.name st.nvar) hn.noZero
  have hshort := hn.short
  rwa [List.take_of_length_le (by omega)] at hstr

theorem Inv.set (h : Inv st) (hn : IsName name) : Inv (st.set name val exported) := by
  rcases set_cases st name val exported with ⟨i, _, hset⟩ | ⟨_, _, hset⟩ | ⟨hf, hroom, hset⟩
  · -- the record keeps its name
    have hname : ∀ j, ((st.set name val exported).vars j).name = (st.vars j).name := by
      intro j
      rw [hset]
      by_cases hj : j = i
      · rw [hj, setSlot_self]
        rfl
      · rw [setSlot_ne _ hj]
    have hat : ∀ j, (st.set name val exported).nameAt j = st.nameAt j := fun j => by
      unfold nameAt
      rw [hname]
    have hcount : (st.set name val exported).nvar = st.nvar := by rw [hset]; rfl
    refine ⟨by rw [hcount]; exact h.room,
      fun j => by rw [hname]; exact h.name j, fun j => ?_, fun j k hj hk hjk => ?_⟩
    · rw [hset]
      by_cases hj : j = i
      · rw [hj, setSlot_self]
        exact write_val (h.val i)
      · rw [setSlot_ne _ hj]
        exact h.val j
    · rw [hcount] at hj hk
      rw [hat, hat] at hjk
      exact h.distinct j k hj hk hjk
  · -- no room: nothing is stored
    rw [hset]
    exact h
  · -- a new record, under a name that there was none of
    rw [hset]
    generalize hw : (st.named name exported).write val exported = w
    have hwname : strOf w.name 0 shVarNamsz = name := by
      rw [← hw]
      exact nameAt_named h hn exported
    have hself : (st.setSlot st.nvar w).vars st.nvar = w := setSlot_self w
    have hold : ∀ {j}, j ≠ st.nvar → (st.setSlot st.nvar w).vars j = st.vars j :=
      fun hj => setSlot_ne w hj
    -- the new name is none of the old ones
    have hfresh : ∀ j, j < st.nvar → st.nameAt j ≠ name := fun j hj => h.find_none hn.noZero hf hj
    refine ⟨hroom, fun j => ?_, fun j => ?_, fun j k hj hk hjk => ?_⟩
    · show ((st.setSlot st.nvar w).vars j).name _ = 0
      by_cases hj : j = st.nvar
      · rw [hj, hself, ← hw]
        exact strncpy_last (h.name st.nvar)
      · rw [hold hj]
        exact h.name j
    · show ((st.setSlot st.nvar w).vars j).val _ = 0
      by_cases hj : j = st.nvar
      · rw [hj, hself, ← hw]
        exact write_val (h.val st.nvar)
      · rw [hold hj]
        exact h.val j
    · have hj' : j < st.nvar + 1 := hj
      have hk' : k < st.nvar + 1 := hk
      have hjk' : strOf ((st.setSlot st.nvar w).vars j).name 0 shVarNamsz
          = strOf ((st.setSlot st.nvar w).vars k).name 0 shVarNamsz := hjk
      by_cases hjn : j = st.nvar
      · by_cases hkn : k = st.nvar
        · rw [hjn, hkn]
        · rw [hjn, hself, hwname, hold hkn] at hjk'
          exact absurd hjk'.symm (hfresh k (by omega))
      · by_cases hkn : k = st.nvar
        · rw [hkn, hself, hwname, hold hjn] at hjk'
          exact absurd hjk' (hfresh j (by omega))
        · rw [hold hjn, hold hkn] at hjk'
          exact h.distinct j k (by omega) (by omega) hjk'

variable (val exported) in
/-- Where the other names are. -/
theorem find_set_other (h : Inv st) (hn : IsName name) (ho : (0 : UInt8) ∉ other)
    (hne : other ≠ name) :
    (st.set name val exported).record other = st.record other := by
  have h' : Inv (st.set name val exported) := h.set hn
  -- a slot that holds the name is the same slot, with the same record
  have hsome : ∀ {j}, st.find other = some j → (st.set name val exported).find other = some j
      ∧ (st.set name val exported).vars j = st.vars j := by
    intro j hj
    obtain ⟨hlt, hat⟩ := (h.find_iff ho).mp hj
    have hkeep : j < (st.set name val exported).nvar
        ∧ (st.set name val exported).vars j = st.vars j := by
      rcases set_cases st name val exported with ⟨i, hf, hset⟩ | ⟨_, _, hset⟩ | ⟨_, _, hset⟩
      · have hji : j ≠ i := by
          rintro rfl
          rw [((h.find_iff hn.noZero).mp hf).2] at hat
          exact hne hat.symm
        rw [hset]
        exact ⟨hlt, setSlot_ne _ hji⟩
      · rw [hset]
        exact ⟨hlt, rfl⟩
      · rw [hset]
        exact ⟨Nat.lt_succ_of_lt hlt, setSlot_ne _ (Nat.ne_of_lt hlt)⟩
    refine ⟨(h'.find_iff ho).mpr ⟨hkeep.1, ?_⟩, hkeep.2⟩
    unfold nameAt at hat ⊢
    rw [hkeep.2, hat]
  unfold record
  cases hf : st.find other with
  | some j =>
      obtain ⟨hj, hv⟩ := hsome hf
      rw [hj, Option.map_some, Option.map_some, hv]
  | none =>
      have hnone : (st.set name val exported).find other = none := by
        cases hf' : (st.set name val exported).find other with
        | none => rfl
        | some j =>
            exfalso
            obtain ⟨hlt, hat⟩ := (h'.find_iff ho).mp hf'
            rcases set_cases st name val exported with ⟨i, hfi, hset⟩ | ⟨_, _, hset⟩ | ⟨_, _, hset⟩
            · rw [hset] at hlt hat
              refine h.find_none ho hf (i := j) hlt ?_
              unfold nameAt at hat ⊢
              by_cases hji : j = i
              · rw [hji, setSlot_self] at hat
                rw [hji]
                exact hat
              · rwa [setSlot_ne _ hji] at hat
            · rw [hset, hf] at hf'
              exact absurd hf' (by simp)
            · rw [hset] at hlt hat
              by_cases hjn : j = st.nvar
              · have hat' : strOf ((st.setSlot st.nvar
                  ((st.named name exported).write val exported)).vars j).name 0
                    shVarNamsz = other := hat
                rw [hjn, setSlot_self] at hat'
                exact hne (hat'.symm.trans (nameAt_named h hn exported))
              · have hlt' : j < st.nvar + 1 := hlt
                have hat' : strOf ((st.setSlot st.nvar
                  ((st.named name exported).write val exported)).vars j).name 0
                    shVarNamsz = other := hat
                rw [setSlot_ne _ hjn] at hat'
                exact h.find_none ho hf (i := j) (by omega) hat'
      rw [hnone]
      rfl

variable (val exported) in
/-- The name itself, once it is there or there is room for it. -/
theorem record_set_self (h : Inv st) (hn : IsName name)
    (hroom : (st.find name).isSome = true ∨ st.nvar < shMaxVars) :
    ∃ v, (st.set name val exported).record name = some (VarSlot.write v val exported)
      ∧ v.val (shVarValsz - 1) = 0 ∧ v.exported = ((st.flag name).getD exported) := by
  have h' : Inv (st.set name val exported) := h.set hn
  unfold record flag
  rcases set_cases st name val exported with ⟨i, hf, hset⟩ | ⟨hf, hfull, _⟩ | ⟨hf, _, hset⟩
  · obtain ⟨hlt, hat⟩ := (h.find_iff hn.noZero).mp hf
    have hf' : (st.set name val exported).find name = some i := by
      refine (h'.find_iff hn.noZero).mpr ⟨by rw [hset]; exact hlt, ?_⟩
      unfold nameAt at hat ⊢
      rw [hset, setSlot_self]
      exact hat
    refine ⟨st.vars i, ?_, h.val i, by rw [hf]; rfl⟩
    rw [hf', Option.map_some, hset, setSlot_self]
  · rw [hf] at hroom
    rcases hroom with hroom | hroom
    · exact absurd hroom (by simp)
    · omega
  · have hself : (st.set name val exported).vars st.nvar
        = (st.named name exported).write val exported := by
      rw [hset]
      exact setSlot_self _
    have hf' : (st.set name val exported).find name = some st.nvar := by
      refine (h'.find_iff hn.noZero).mpr ⟨by rw [hset]; exact Nat.lt_succ_self _, ?_⟩
      unfold nameAt
      rw [hself]
      exact nameAt_named h hn exported
    refine ⟨st.named name exported, ?_, h.val st.nvar, by rw [hf]; rfl⟩
    rw [hf', Option.map_some, hself]

end Set

/-! ## The list that commands see -/

section Entries

variable {st : VarStore} {name val : CStr} {exported : Bool}

/-- The entry of a slot. -/
def entryAt (st : VarStore) (i : Nat) : ShVar :=
  ⟨st.nameAt i, strOf (st.vars i).val 0 shVarValsz, (st.vars i).exported⟩

theorem find_eq (h : Inv st) (hn : (0 : UInt8) ∉ name) :
    st.find name = (List.range st.nvar).find? fun i => (st.entryAt i).name = name := by
  unfold find
  rw [List.range_eq_range', ← Scan.first_eq_find?]
  exact Scan.first_congr fun i _ _ => by
    rw [Bool.eq_iff_iff, strcmp_name (h.name i) hn, decide_eq_true_eq]
    rfl

/-- **A variable's value is looked up in the list.** -/
theorem get_entries (h : Inv st) (hn : (0 : UInt8) ∉ name) :
    st.get name = varGet st.entries name := by
  unfold get varGet
  rw [find_eq h hn, show st.entries = (List.range st.nvar).map st.entryAt from rfl, List.find?_map,
    Option.map_map]
  rfl

/-- Updating the one entry of a name. -/
theorem varUpdate_map {f : Nat → ShVar} {i : Nat} (hi : (f i).name = name) : ∀ {l : List Nat},
    l.Nodup →
    (∀ j ∈ l, (f j).name = name → j = i) →
    varUpdate name val exported (l.map f)
      = l.map fun j =>
          if j = i then { f i with val := val, exported := (f i).exported || exported } else f j
  | [], _, _ => rfl
  | a :: l, hnd, hone => by
      obtain ⟨ha, hnd⟩ := List.nodup_cons.mp hnd
      rw [List.map_cons, List.map_cons, varUpdate]
      by_cases hname : (f a).name = name
      · obtain rfl : a = i := hone a List.mem_cons_self hname
        rw [if_pos hname, if_pos rfl]
        congr 1
        exact List.map_congr_left fun j hj => by
          rw [if_neg]
          rintro rfl
          exact ha hj
      · have hai : a ≠ i := by
          rintro rfl
          exact hname hi
        rw [if_neg hname, if_neg hai, varUpdate_map hi hnd fun j hj =>
          hone j (List.mem_cons_of_mem _ hj)]

/-- **A variable is set in the list.** -/
theorem set_entries (h : Inv st) (hn : IsName name) (hv : (0 : UInt8) ∉ val) :
    (st.set name val exported).entries = varSet st.entries name val exported := by
  -- the list has the name exactly if the table has it
  have hany : st.entries.any (·.name = name) = (st.find name).isSome := by
    rw [find_eq h hn.noZero, List.isSome_find?,
      show st.entries = (List.range st.nvar).map st.entryAt from rfl,
      List.any_map]
    rfl
  have hlen : st.entries.length = st.nvar := by
    unfold entries
    rw [List.length_map, List.length_range]
  unfold varSet
  dsimp only
  rw [hany, hlen]
  rcases set_cases st name val exported with ⟨i, hf, hset⟩ | ⟨hf, hfull, hset⟩ | ⟨hf, hroom, hset⟩
  · obtain ⟨hlt, hat⟩ := (h.find_iff hn.noZero).mp hf
    rw [hf, Option.isSome_some, if_pos rfl, hset,
      show st.entries = (List.range st.nvar).map st.entryAt from rfl,
      varUpdate_map (i := i) hat List.nodup_range fun j hj hjn =>
        h.distinct j i (List.mem_range.mp hj) hlt (hjn.trans hat.symm)]
    show (List.range st.nvar).map _ = _
    refine List.map_congr_left fun j _ => ?_
    by_cases hj : j = i
    · rw [if_pos hj, hj, setSlot_self, strOf_write (h.val i) hv]
      unfold VarSlot.write entryAt nameAt
      cases exported with
      | true => simp
      | false => simp
    · rw [if_neg hj, setSlot_ne _ hj]
      rfl
  · rw [hf, if_neg (by simp), if_pos hfull, hset]
  · rw [hf, if_neg (by simp), if_neg (by omega), hset]
    show (List.range (st.nvar + 1)).map _ = _
    rw [List.range_succ, List.map_append, List.map_singleton]
    have hshort := hn.short
    congr 1
    · exact List.map_congr_left fun j hj => by
        rw [setSlot_ne _ (Nat.ne_of_lt (List.mem_range.mp hj))]
    · rw [setSlot_self, strOf_write (v := st.named name exported) (h.val st.nvar) hv,
        show name.take (shVarNamsz - 1) = name from List.take_of_length_le (by omega),
        show ((st.named name exported).write val exported).name
          = (st.named name exported).name from rfl,
        nameAt_named h hn exported]
      unfold VarSlot.write named
      cases exported with
      | true => rfl
      | false => rfl

end Entries

/-! ## Unsetting -/

section Unset

variable {st : VarStore} {name other : CStr} {i : Nat}

/-- The last record in the hole. -/
theorem unset_found (hf : st.find name = some i) :
    st.unset name = { st.setSlot i (st.vars (st.nvar - 1)) with nvar := st.nvar - 1 } := by
  unfold unset
  rw [hf]

/-- The slot whose record a slot has afterwards. -/
def movedFrom (st : VarStore) (i j : Nat) : Nat := if j = i then st.nvar - 1 else j

theorem unset_vars (hf : st.find name = some i) (j : Nat) :
    (st.unset name).vars j = st.vars (st.movedFrom i j) := by
  rw [unset_found hf]
  show (st.setSlot i (st.vars (st.nvar - 1))).vars j = _
  unfold movedFrom
  by_cases hj : j = i
  · rw [if_pos hj, hj, setSlot_self]
  · rw [if_neg hj, setSlot_ne _ hj]

theorem Inv.unset (h : Inv st) (hn : (0 : UInt8) ∉ name) : Inv (st.unset name) := by
  cases hf : st.find name with
  | none =>
      unfold VarStore.unset
      rw [hf]
      exact h
  | some i =>
      obtain ⟨hlt, _⟩ := (h.find_iff hn).mp hf
      have hcount : (st.unset name).nvar = st.nvar - 1 := by rw [unset_found hf]
      have hroom := h.room
      refine ⟨by omega, fun j => by rw [unset_vars hf]; exact h.name _, fun j => by rw [unset_vars hf]; exact h.val _,
        fun j k hj hk hjk => ?_⟩
      rw [hcount] at hj hk
      unfold nameAt at hjk
      rw [unset_vars hf, unset_vars hf] at hjk
      have heq : st.movedFrom i j = st.movedFrom i k := by
        refine h.distinct _ _ ?_ ?_ hjk
        · unfold movedFrom
          split
          · omega
          · omega
        · unfold movedFrom
          split
          · omega
          · omega
      unfold movedFrom at heq
      split at heq
      · next hji =>
        split at heq
        · next hki => rw [hji, hki]
        · omega
      · split at heq
        · omega
        · exact heq

/-- The name is gone. -/
theorem record_unset_self (h : Inv st) (hn : (0 : UInt8) ∉ name) : (st.unset name).record name
    = none := by
  unfold record
  cases hf' : (st.unset name).find name with
  | none => rfl
  | some j =>
      exfalso
      obtain ⟨hlt, hat⟩ := ((h.unset hn).find_iff hn).mp hf'
      cases hf : st.find name with
      | none =>
          have hsame : st.unset name = st := by
            unfold VarStore.unset
            rw [hf]
          rw [hsame, hf] at hf'
          exact absurd hf' (by simp)
      | some i =>
          obtain ⟨hi, hati⟩ := (h.find_iff hn).mp hf
          have hcount : (st.unset name).nvar = st.nvar - 1 := by rw [unset_found hf]
          rw [hcount] at hlt
          unfold nameAt at hat
          rw [unset_vars hf] at hat
          unfold movedFrom at hat
          split at hat
          · next hji =>
            have := h.distinct (st.nvar - 1) i (by omega) hi (hat.trans hati.symm)
            omega
          · next hji => exact hji (h.distinct j i (by omega) hi (hat.trans hati.symm))

/-- The others are where they were, or in the hole. -/
theorem record_unset_other (h : Inv st) (hn : (0 : UInt8) ∉ name) (ho : (0 : UInt8) ∉ other)
    (hne : other ≠ name) :
    (st.unset name).record other = st.record other := by
  cases hf : st.find name with
  | none =>
      unfold VarStore.unset
      rw [hf]
  | some i =>
      obtain ⟨hi, hati⟩ := (h.find_iff hn).mp hf
      have h' := h.unset hn
      have hcount : (st.unset name).nvar = st.nvar - 1 := by rw [unset_found hf]
      unfold record
      cases hfo : st.find other with
      | some j =>
          obtain ⟨hj, hatj⟩ := (h.find_iff ho).mp hfo
          have hji : j ≠ i := by
            rintro rfl
            exact hne (hatj.symm.trans hati)
          -- where the record is now
          have hnow : ∃ k, k < st.nvar - 1 ∧ st.movedFrom i k = j := by
            unfold movedFrom
            by_cases hlast : j = st.nvar - 1
            · exact ⟨i, by omega, by rw [if_pos rfl, hlast]⟩
            · exact ⟨j, by omega, if_neg hji⟩
          obtain ⟨k, hk, hmoved⟩ := hnow
          have hfk : (st.unset name).find other = some k := by
            refine (h'.find_iff ho).mpr ⟨by rw [hcount]; exact hk, ?_⟩
            unfold nameAt at hatj ⊢
            rw [unset_vars hf, hmoved, hatj]
          rw [hfk, Option.map_some, Option.map_some, unset_vars hf, hmoved]
      | none =>
          cases hfk : (st.unset name).find other with
          | none => rfl
          | some k =>
              exfalso
              obtain ⟨hk, hatk⟩ := (h'.find_iff ho).mp hfk
              rw [hcount] at hk
              unfold nameAt at hatk
              rw [unset_vars hf] at hatk
              refine h.find_none ho hfo (i := st.movedFrom i k) ?_ hatk
              unfold movedFrom
              split
              · omega
              · omega

end Unset

/-! ## Runs -/

/-- The stores that calls lead to. -/
inductive Steps (st : VarStore) : VarStore → Prop
  | set {name val : CStr} (exported : Bool) (hn : IsName name) (hv : (0 : UInt8) ∉ val) :
      Steps st (st.set name val exported)
  | unset {name : CStr} (hn : IsName name) : Steps st (st.unset name)

theorem inv_init : Inv init :=
  ⟨Nat.zero_le _, fun _ => rfl, fun _ => rfl, fun _ _ hi => absurd hi (Nat.not_lt_zero _)⟩

theorem inv_reach {st : VarStore} (h : Run.Reach (· = init) Steps st) : Inv st := by
  refine h.invariant (fun st hs => ?_) fun st st' hs hstep => ?_
  · rw [hs]
    exact inv_init
  · cases hstep with
    | set exported hn _ => exact hs.set hn
    | unset hn => exact hs.unset hn.noZero

theorem get_record (st : VarStore) (name : CStr) :
    st.get name = (st.record name).map fun v => strOf v.val 0 shVarValsz := by
  unfold get record
  rw [Option.map_map]
  rfl

theorem flag_record (st : VarStore) (name : CStr) :
    st.flag name = (st.record name).map VarSlot.exported := by
  unfold flag record
  rw [Option.map_map]
  rfl

/-- **The variable store is a finite map** of at most 128 names to values of at most 511 bytes and a
flag that stays up once it is set. -/
theorem refines_map {st : VarStore} (h : Run.Reach (· = init) Steps st) :
    (∀ i j, i < j → j < st.nvar → st.nameAt i ≠ st.nameAt j) ∧ st.nvar ≤ 128
      ∧ (∀ (name val : CStr) (exported : Bool), IsName name → (0 : UInt8) ∉ val →
        (((st.get name).isSome = true ∨ st.nvar < 128) →
          (st.set name val exported).get name = some (val.take 511)
          ∧ (st.set name val exported).flag name = some (exported || (st.flag name).getD false))
        ∧ (st.get name = none → st.nvar = 128 → st.set name val exported = st)
        ∧ ∀ other, other ≠ name → (0 : UInt8) ∉ other →
          (st.set name val exported).get other = st.get other
          ∧ (st.set name val exported).flag other = st.flag other)
      ∧ ∀ name : CStr, IsName name →
        (st.unset name).get name = none
        ∧ ∀ other, other ≠ name → (0 : UInt8) ∉ other →
          (st.unset name).get other = st.get other ∧ (st.unset name).flag other = st.flag other := by
  have hinv := inv_reach h
  refine ⟨fun i j hij hj heq => ?_, hinv.room,
    fun name val exported hn hv => ⟨fun hroom => ?_, fun hnone hfull => ?_, ?_⟩,
    fun name hn => ⟨?_, fun other hne ho => ?_⟩⟩
  · have := hinv.distinct i j (by omega) hj heq
    omega
  · have hroom' : (st.find name).isSome = true ∨ st.nvar < shMaxVars := by
      rcases hroom with hp | hlt
      · unfold get at hp
        exact Or.inl (by simpa using hp)
      · exact Or.inr hlt
    obtain ⟨v, hrec, hval, hflag⟩ := record_set_self val exported hinv hn hroom'
    rw [get_record, flag_record, hrec, Option.map_some, Option.map_some, strOf_write hval hv]
    refine ⟨rfl, congrArg some ?_⟩
    show (if exported then true else v.exported) = _
    rw [hflag]
    cases exported with
    | true => rfl
    | false => rfl
  · have hf : st.find name = none := by
      unfold get at hnone
      simpa using hnone
    rcases set_cases st name val exported with ⟨i, hfi, _⟩ | ⟨_, _, hset⟩ | ⟨_, hroom, _⟩
    · rw [hf] at hfi
      exact absurd hfi (by simp)
    · exact hset
    · have hroom' : st.nvar < 128 := hroom
      omega
  · intro other hne ho
    have hrec := find_set_other val exported hinv hn ho hne
    exact ⟨by rw [get_record, get_record, hrec], by rw [flag_record, flag_record, hrec]⟩
  · rw [get_record, record_unset_self hinv hn.noZero]
    rfl
  · have hrec := record_unset_other hinv hn.noZero ho hne
    exact ⟨by rw [get_record, get_record, hrec], by rw [flag_record, flag_record, hrec]⟩

/-- A long value, and a shorter one over it. -/
theorem refines_map_two : ∃ st : VarStore, Run.Reach (· = init) Steps st
    ∧ (st.set (cstr "A") (cstr "y") false).get (cstr "A") = some (cstr "y")
    ∧ (st.set (cstr "A") (cstr "y") false).flag (cstr "A") = some true := by
  have hA : IsName (cstr "A") := ⟨by decide, by decide, by decide⟩
  refine ⟨init.set (cstr "A") (cstr "longer") true,
    .next (.start rfl) (.set true hA (by decide)), ?_⟩
  have hr : Run.Reach (· = init) Steps (init.set (cstr "A") (cstr "longer") true) :=
    .next (.start rfl) (.set true hA (by decide))
  have hone : (init.set (cstr "A") (cstr "longer") true).nvar = 1 := rfl
  obtain ⟨hget, hflag⟩ := ((refines_map hr).2.2.1 (cstr "A") (cstr "y") false hA (by decide)).1
    (Or.inr (by rw [hone]; decide))
  obtain ⟨_, hup⟩ := ((refines_map (.start rfl)).2.2.1 (cstr "A")
    (cstr "longer") true hA (by decide)).1 (Or.inr (by decide))
  rw [hup] at hflag
  exact ⟨hget, hflag⟩

end VarStore

end VnlKernel
