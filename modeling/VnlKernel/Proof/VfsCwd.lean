import VnlKernel.Fs.Dirs
import VnlKernel.Lib.CString
import VnlKernel.Proof.VfsWalk

/-!
# The path of the working directory

`vfs_getcwd` writes the path from its end to its front, a name and a slash at a time, and stops
where the next name does not fit. As far as all of them fit, what it hands out resolves to the
working directory again.

Where they do not fit it looks at the byte where it stopped, which may be one it has not written
or one in front of the array. And the root's path, which is copied as a literal, is padded by the
kernel's `strncpy` with one byte more than the buffer has.
-/

namespace VnlKernel

open ByteMem CString Run

variable {σ : Type}

/-! ## The way up -/

/-- The names from the node with this number up to the root, or as far as there are nodes. -/
inductive Upward (v : Vfs σ) : Nat → List CStr → Prop
  | root : Upward v vfsInodeRoot []
  | lost {cur : Nat} (h : cur ≠ vfsInodeRoot) (hn : nodeGet v cur = none) : Upward v cur []
  | up {cur i : Nat} {names : List CStr} (h : cur ≠ vfsInodeRoot) (hg : nodeGet v cur = some i)
      (ht : Upward v (v.nodes i).parent names) : Upward v cur ((v.nodes i).name :: names)

/-- The path that these names spell. -/
def pathUp : List CStr → CStr
  | [] => []
  | name :: names => pathUp names ++ slash :: name

/-- These names, with their slashes, fit into `room` bytes; or the first that does not is one byte
too long, and the byte in front of it, `first`, is not zero. -/
def CwdFits (first : UInt8) : Nat → List CStr → Prop
  | _, [] => True
  | room, name :: names =>
      if name.length < room then CwdFits first (room - name.length - 1) names
      else name.length = room ∧ (name = [] ∨ first ≠ 0)

section Upward

variable {v : Vfs σ} {cur : Nat} {names : List CStr}

/-- In a tree the way up comes to an end. -/
theorem TreeInv.upward (h : TreeInv v) : ∀ (n cur : Nat), cur ≤ n → ∃ names,
    Upward v cur names := by
  intro n
  induction n with
  | zero =>
      intro cur hcur
      obtain rfl : cur = vfsInodeRoot := Nat.le_zero.mp hcur
      exact ⟨[], .root⟩
  | succ n ih =>
      intro cur hcur
      by_cases hroot : cur = vfsInodeRoot
      · exact ⟨[], hroot ▸ .root⟩
      · cases hg : nodeGet v cur with
        | none => exact ⟨[], .lost hroot hg⟩
        | some i =>
            obtain ⟨_, hu, hi⟩ := nodeGet_some hg
            have hi0 : i ≠ 0 := by
              rintro rfl
              exact hroot (hi.symm.trans h.root.2.2.1)
            obtain ⟨p, _, _, hp, hlt⟩ := h.attached i hu hi0
            obtain ⟨names, hn⟩ := ih (v.nodes i).parent (by omega)
            exact ⟨_, .up hroot hg hn⟩

theorem Upward.unique (h : Upward v cur names) : ∀ {names' : List CStr}, Upward v cur names' →
    names' = names := by
  induction h with
  | root =>
      intro names' h'
      cases h' with
      | root => rfl
      | lost hne _ => exact absurd rfl hne
      | up hne _ _ => exact absurd rfl hne
  | lost hne hn =>
      intro names' h'
      cases h' with
      | root => rfl
      | lost _ _ => rfl
      | up _ hg _ =>
          rw [hn] at hg
          exact absurd hg (by simp)
  | up hne hg _ ih =>
      intro names' h'
      cases h' with
      | root => exact absurd rfl hne
      | lost _ hn =>
          rw [hn] at hg
          exact absurd hg (by simp)
      | up _ hg' ht' =>
          rw [hg] at hg'
          cases hg'
          rw [ih ht']

/-- Names whose path is short enough fit. -/
theorem cwdFits_of_length (first : UInt8) : ∀ {names : List CStr} {room : Nat},
    (pathUp names).length ≤ room → CwdFits first room names
  | [], _, _ => trivial
  | name :: names, room, h => by
      rw [pathUp, List.length_append, List.length_cons] at h
      rw [CwdFits, if_pos (by omega)]
      exact cwdFits_of_length first (by omega)

end Upward

/-! ## The scratch array -/

/-- The end of the array holds this text, with a zero behind it, and nothing in front of it has been
written. -/
structure Built (junk : Int → UInt8) (pos : Int) (tmp : Int → UInt8) (text : CStr) : Prop where
  fills : pos + text.length = 1023
  nonneg : 0 ≤ pos
  zero : tmp 1023 = 0
  bytes : ∀ j : Nat, j < text.length → tmp (pos + j) = text.getD j 0
  head : text = [] ∨ tmp pos = slash
  front : ∀ x, x < pos → tmp x = junk x

/-- The loop may be left like this: what is looked at next is in the array. -/
def Sound (p : Int × (Int → UInt8)) : Prop := 0 ≤ p.1 ∧ (p.1 = 0 → p.2 0 ≠ 0)

section Loop

variable {v : Vfs σ} {cur : Nat} {names : List CStr} {junk tmp : Int → UInt8} {pos : Int} {text : CStr}

@[simp] theorem noteAll_log (es : List CwdAccess) : (noteAll es).log = es := rfl

@[simp] theorem noteAll_out (es : List CwdAccess) : (noteAll es).out = .done () := rfl

/-- `tmp` with a name and a slash in front of what it holds. -/
def prepend (tmp : Int → UInt8) (pos : Int) (name : CStr) : Int → UInt8 := fun x =>
  if x = pos - 1 then slash
  else if pos ≤ x ∧ x < pos + name.length then name.getD (x - pos).toNat 0 else tmp x

theorem Built.prepend (h : Built junk pos tmp text) (name : CStr)
    (hroom : (name.length : Int) + 1 ≤ pos) :
    Built junk (pos - name.length - 1) (prepend tmp (pos - name.length) name)
    (slash :: name ++ text) where
  fills := by
    have := h.fills
    simp only [List.length_append, List.length_cons]
    omega
  nonneg := by omega
  zero := by
    have hpos := h.fills
    unfold VnlKernel.prepend
    rw [if_neg (by omega), if_neg (by omega)]
    exact h.zero
  bytes := by
    intro j hj
    unfold VnlKernel.prepend
    simp only [List.length_append, List.length_cons] at hj
    cases j with
    | zero => rw [if_pos (by omega)]; rfl
    | succ j =>
        rw [if_neg (by omega)]
        by_cases hin : j < name.length
        · rw [if_pos (by omega), List.cons_append, List.getD_cons_succ,
            List.getD_append _ _ _ _ hin,
            show (pos - ↑name.length - 1 + ↑(j + 1) - (pos - ↑name.length) : Int).toNat
              = j by omega]
        · rw [if_neg (by omega), List.cons_append, List.getD_cons_succ,
            List.getD_append_right _ _ _ _ (by omega), ← h.bytes (j - name.length) (by omega)]
          congr 1
          omega
  head := by
    right
    unfold VnlKernel.prepend
    exact if_pos rfl
  front := by
    intro x hx
    unfold VnlKernel.prepend
    rw [if_neg (by omega), if_neg (by omega)]
    exact h.front x (by omega)

/-- One turn of the loop with a name that fits. -/
theorem cwdLoop_up {i : Nat} (hne : cur ≠ vfsInodeRoot) (hg : nodeGet v cur = some i)
    (hroom : ((v.nodes i).name.length : Int) < pos) (fuel : Nat) :
    ∃ log, (∀ a ∈ log, ∃ x, a = .tmp x ∧ pos - (v.nodes i).name.length - 1 ≤ x ∧ x < pos)
      ∧ cwdLoop v (fuel + 1) cur pos tmp
        = (⟨log, .done ()⟩ : Logged CwdAccess Unit) >>= fun _ =>
          cwdLoop v fuel (v.nodes i).parent (pos - (v.nodes i).name.length - 1)
            (prepend tmp (pos - (v.nodes i).name.length) (v.nodes i).name) := by
  refine ⟨(List.range (v.nodes i).name.length).map
    (fun k : Nat => .tmp (pos - (v.nodes i).name.length + k))
    ++ [.tmp (pos - (v.nodes i).name.length - 1)], ?_, ?_⟩
  · intro a ha
    rcases List.mem_append.mp ha with ha | ha
    · obtain ⟨k, hk, rfl⟩ := List.mem_map.mp ha
      rw [List.mem_range] at hk
      exact ⟨_, rfl, by omega, by omega⟩
    · rw [List.mem_singleton] at ha
      exact ⟨_, ha, by omega, by omega⟩
  · rw [cwdLoop, if_neg hne]
    simp only [hg]
    rw [if_neg (by omega), Logged.bind_of_done (noteAll_out _),
      Logged.bind_of_done (Logged.note_out _),
      Logged.bind_of_done (rfl : (Logged.mk _ (Outcome.done ()) : Logged CwdAccess Unit).out = .done
        ())]
    simp only [noteAll_log, Logged.note_log, List.append_assoc]
    rfl

/-- The loop stays in the array, and it is left soundly exactly where the names fit. -/
theorem cwdLoop_keeps (hup : Upward v cur names) : ∀ {pos : Int} {tmp : Int → UInt8} {text : CStr},
    Built junk pos tmp text → ∀ fuel, Logged.Keeps (fun a => ∃ x, a = .tmp x ∧ 0 ≤ x ∧ x < 1024)
      (fun p => p.1 ≤ 1023 ∧ p.2 1023 = 0 ∧ (Sound p ↔ CwdFits (junk 0) pos.toNat names))
      (cwdLoop v fuel cur pos tmp) := by
  -- where the loop ends with all names written
  have hstop : ∀ {pos : Int} {tmp : Int → UInt8} {text : CStr}, Built junk pos tmp text →
      pos ≤ 1023 ∧ tmp 1023 = 0 ∧ (Sound (pos, tmp) ↔ CwdFits (junk 0) pos.toNat []) := by
    intro pos tmp text hb
    have hpos := hb.fills
    refine ⟨by omega, hb.zero, iff_of_true ⟨hb.nonneg, fun h0 => ?_⟩ trivial⟩
    dsimp only at h0 ⊢
    rcases hb.head with hnil | hslash
    · rw [hnil] at hpos
      simp only [List.length_nil] at hpos
      omega
    · rw [← h0, hslash]
      decide
  induction hup with
  | root =>
      intro pos tmp text hb fuel
      cases fuel with
      | zero => exact .timeout
      | succ fuel =>
          rw [cwdLoop, if_pos rfl]
          exact .pure (hstop hb)
  | lost hne hn =>
      intro pos tmp text hb fuel
      cases fuel with
      | zero => exact .timeout
      | succ fuel =>
          rw [cwdLoop, if_neg hne]
          simp only [hn]
          exact .pure (hstop hb)
  | @up cur i names hne hg ht ih =>
      intro pos tmp text hb fuel
      have hpos := hb.fills
      have hnn := hb.nonneg
      cases fuel with
      | zero => exact .timeout
      | succ fuel =>
          by_cases hroom : ((v.nodes i).name.length : Int) < pos
          · obtain ⟨log, hlog, hloop⟩ := cwdLoop_up hne hg hroom fuel
            rw [hloop, CwdFits, if_pos (by omega)]
            refine Logged.Keeps.bind (Q := fun _ => True)
              ⟨fun a ha => ?_, fun _ _ => trivial⟩ fun _ _ => ?_
            · obtain ⟨x, rfl, h1, h2⟩ := hlog a ha
              exact ⟨x, rfl, by omega, by omega⟩
            · have hrec := ih (hb.prepend (v.nodes i).name (by omega)) fuel
              rw [show (pos - ((v.nodes i).name.length : Int) - 1).toNat
                = pos.toNat - (v.nodes i).name.length - 1 by omega] at hrec
              exact hrec
          · rw [cwdLoop, if_neg hne]
            simp only [hg]
            rw [if_pos (by omega), CwdFits, if_neg (by omega)]
            refine .pure ⟨by omega, hb.zero, ?_⟩
            -- the name does not fit: what is looked at next is in front of it
            unfold Sound
            dsimp only
            constructor
            · rintro ⟨h1, h2⟩
              refine ⟨by omega, ?_⟩
              by_cases hnil : (v.nodes i).name = []
              · exact Or.inl hnil
              · right
                have hlen : 0 < (v.nodes i).name.length := List.length_pos_iff.mpr hnil
                rw [← hb.front 0 (by omega)]
                exact h2 (by omega)
            · rintro ⟨h1, h2⟩
              refine ⟨by omega, fun _ => ?_⟩
              rcases h2 with hnil | hfirst
              · rw [hnil, List.length_nil] at h1
                have hp0 : pos = 0 := by omega
                rcases hb.head with htext | hslash
                · rw [htext, List.length_nil] at hpos
                  omega
                · rw [← hp0, hslash]
                  decide
              · by_cases hp0 : pos = 0
                · rcases hb.head with htext | hslash
                  · rw [htext, List.length_nil] at hpos
                    omega
                  · rw [← hp0, hslash]
                    decide
                · rw [hb.front 0 (by omega)]
                  exact hfirst

/-- The loop comes to an end. -/
theorem cwdLoop_done (hup : Upward v cur names) : ∀ (pos : Int) (tmp : Int → UInt8),
    ∃ p, (cwdLoop v (names.length + 1) cur pos tmp).out = .done p := by
  induction hup with
  | root =>
      intro pos tmp
      exact ⟨_, by rw [cwdLoop, if_pos rfl]; rfl⟩
  | lost hne hn =>
      intro pos tmp
      refine ⟨(pos, tmp), ?_⟩
      rw [cwdLoop, if_neg hne]
      simp only [hn]
      rfl
  | @up cur i names hne hg ht ih =>
      intro pos tmp
      by_cases hroom : ((v.nodes i).name.length : Int) < pos
      · obtain ⟨log, _, hloop⟩ := cwdLoop_up hne hg hroom (names.length + 1)
        obtain ⟨p, hp⟩ := ih (pos - (v.nodes i).name.length - 1)
          (prepend tmp (pos - (v.nodes i).name.length) (v.nodes i).name)
        exact ⟨p, by rw [List.length_cons, hloop, Logged.bind_out]; exact hp⟩
      · refine ⟨(pos - (v.nodes i).name.length, tmp), ?_⟩
        rw [cwdLoop, if_neg hne]
        simp only [hg]
        rw [if_pos (by omega)]
        rfl

/-- Where all names fit, the loop leaves their path. -/
theorem cwdLoop_built (hup : Upward v cur names) : ∀ {pos : Int} {tmp : Int → UInt8} {text : CStr},
    Built junk pos tmp text → ((pathUp names).length : Int) ≤ pos →
    ∃ p, (cwdLoop v (names.length + 1) cur pos tmp).out = .done p
      ∧ Built junk p.1 p.2 (pathUp names ++ text) := by
  induction hup with
  | root =>
      intro pos tmp text hb _
      exact ⟨_, by rw [cwdLoop, if_pos rfl]; rfl, hb⟩
  | lost hne hn =>
      intro pos tmp text hb _
      refine ⟨(pos, tmp), ?_, hb⟩
      rw [cwdLoop, if_neg hne]
      simp only [hn]
      rfl
  | @up cur i names hne hg ht ih =>
      intro pos tmp text hb hlen
      rw [pathUp, List.length_append, List.length_cons] at hlen
      have hroom : ((v.nodes i).name.length : Int) < pos := by omega
      obtain ⟨log, _, hloop⟩ := cwdLoop_up hne hg hroom (names.length + 1)
      obtain ⟨p, hp, hbuilt⟩ := ih (hb.prepend (v.nodes i).name (by omega)) (by omega)
      refine ⟨p, by rw [List.length_cons, hloop, Logged.bind_out]; exact hp, ?_⟩
      rw [pathUp, List.append_assoc]
      exact hbuilt

end Loop

/-! ## The copy -/

section Copy

variable {src : Nat → UInt8} {reads : Nat → List CwdAccess} {a : CwdAccess} {z : Nat}

theorem mem_padZeros : ∀ {n k : Nat} {buf : Mem},
    a ∈ (padZeros n k buf).log ↔ ∃ i, a = .buf i ∧ k ≤ i ∧ i < k + n
  | 0, k, buf => by
      rw [padZeros, Logged.pure_log]
      constructor
      · intro h
        exact absurd h (by simp)
      · rintro ⟨i, _, h1, h2⟩
        omega
  | n + 1, k, buf => by
      rw [padZeros, Logged.bind_of_done (Logged.note_out _), Logged.note_log, List.mem_append,
        List.mem_singleton, mem_padZeros]
      constructor
      · rintro (h | ⟨i, h, h1, h2⟩)
        · exact ⟨k, h, Nat.le_refl _, by omega⟩
        · exact ⟨i, h, by omega, by omega⟩
      · rintro ⟨i, h, h1, h2⟩
        by_cases hik : i = k
        · exact Or.inl (hik ▸ h)
        · exact Or.inr ⟨i, h, by omega, by omega⟩

theorem padZeros_out : ∀ (n k : Nat) (buf : Mem), (padZeros n k buf).out = .done (memset buf k 0 n)
  | 0, k, buf => by
      rw [padZeros, Logged.pure_out]
      congr 1
      funext x
      exact (memset_out (by omega)).symm
  | n + 1, k, buf => by
      rw [padZeros, Logged.bind_of_done (Logged.note_out _), memset_succ]
      exact padZeros_out n (k + 1) _

/-- What is accessed: the buffer, with one byte more than there is to copy, and the source up to its
terminator. -/
theorem copyString_access : ∀ {n k : Nat} {buf : Mem}, a ∈ (copyString src reads n k buf).log →
    (∃ i, a = .buf i ∧ k ≤ i ∧ i ≤ k + n ∧ 0 < n)
      ∨ ∃ m, k ≤ m ∧ a ∈ reads m ∧ ∀ m', k ≤ m' → m' < m → src m' ≠ 0
  | 0, k, buf, h => by
      rw [copyString, Logged.pure_log] at h
      exact absurd h (by simp)
  | n + 1, k, buf, h => by
      rw [copyString, Logged.bind_of_done (noteAll_out _), Logged.bind_of_done (Logged.note_out _)]
        at h
      rcases List.mem_append.mp h with h | h
      · exact Or.inr ⟨k, Nat.le_refl _, h, fun m' h1 h2 => absurd h1 (by omega)⟩
      · rcases List.mem_append.mp h with h | h
        · exact Or.inl ⟨k, List.mem_singleton.mp h, Nat.le_refl _, by omega, Nat.succ_pos n⟩
        · by_cases hz : src k = 0
          · rw [if_pos hz] at h
            obtain ⟨i, hi, h1, h2⟩ := mem_padZeros.mp h
            exact Or.inl ⟨i, hi, by omega, by omega, Nat.succ_pos n⟩
          · rw [if_neg hz] at h
            rcases copyString_access h with ⟨i, hi, h1, h2, _⟩ | ⟨m, h1, hm, hnz⟩
            · exact Or.inl ⟨i, hi, by omega, by omega, Nat.succ_pos n⟩
            · refine Or.inr ⟨m, by omega, hm, fun m' hk hlt => ?_⟩
              by_cases hmk : m' = k
              · rw [hmk]; exact hz
              · exact hnz m' (by omega) hlt

/-- What is copied of a string that ends at `z`. -/
theorem copyString_result (hz : src z = 0) : ∀ {n k : Nat} (buf : Mem), k ≤ z →
    (∀ m, k ≤ m → m < z → src m ≠ 0) →
    ∃ r, (copyString src reads n k buf).out = .done r ∧ (∀ j, j < k → r j = buf j)
      ∧ ∀ j, k ≤ j → j ≤ z → j < k + n → r j = src j
  | 0, k, buf, _, _ => ⟨buf, by rw [copyString, Logged.pure_out], fun _ _ => rfl, fun j h1 _ h2 => by omega⟩
  | n + 1, k, buf, hk, hnz => by
      rw [copyString, Logged.bind_of_done (noteAll_out _), Logged.bind_of_done (Logged.note_out _)]
      by_cases h0 : src k = 0
      · rw [if_pos h0]
        have hkz : k = z := by
          by_contra hne
          exact hnz k (Nat.le_refl _) (by omega) h0
        refine ⟨_, padZeros_out _ _ _, fun j hj => ?_, fun j h1 h2 _ => ?_⟩
        · rw [memset_out (by omega), setByte_ne (by omega)]
        · obtain rfl : j = k := by omega
          rw [memset_out (by omega), setByte_self]
      · rw [if_neg h0]
        have hlt : k < z := by
          rcases Nat.lt_or_eq_of_le hk with h | h
          · exact h
          · exact absurd (h ▸ hz) h0
        obtain ⟨r, hr, hbelow, hin⟩ := copyString_result hz (n := n) (k := k + 1)
          (setByte buf k (src k)) hlt fun m h1 h2 => hnz m (by omega) h2
        refine ⟨r, hr, fun j hj => ?_, fun j h1 h2 h3 => ?_⟩
        · rw [hbelow j (by omega), setByte_ne (by omega)]
        · by_cases hjk : j = k
          · rw [hjk, hbelow k (by omega), setByte_self]
          · exact hin j (by omega) h2 (by omega)

end Copy

/-! ## Staying inside -/

/-- Whatever the fuel, the call stays inside its two arrays. -/
def CwdInside (v : Vfs σ) (junk : Int → UInt8) (buf : Mem) (bufsz : Nat) : Prop :=
  ∀ fuel, ∀ a ∈ (vfsGetcwd v junk fuel (some buf) bufsz).log, a.Inside bufsz

section Inside

variable {v : Vfs σ} {junk : Int → UInt8} {buf : Mem} {bufsz : Nat}

/-- The root's path is padded with one zero too many. -/
theorem cwdInside_root (hroot : v.cwd = vfsInodeRoot) (hb : 1 ≤ bufsz) :
    CwdInside v junk buf bufsz ↔ bufsz = 1 := by
  have hcall : ∀ fuel, (vfsGetcwd v junk fuel (some buf) bufsz).log
      = (copyString (fun k => if k = 0 then slash else 0) (fun _ => []) bufsz 0 buf).log := by
    intro fuel
    rw [vfsGetcwd, if_neg (by omega), if_pos hroot]
    have hlit : ∃ r, (copyString (fun k => if k = 0 then slash else 0)
        (fun _ => []) bufsz 0 buf).out = .done r := by
      have hz : (fun k : Nat => if k = 0 then slash else (0 : UInt8)) 1 = 0 := rfl
      refine (copyString_result hz buf (Nat.zero_le 1) fun m _ hm => ?_).imp fun _ h => h.1
      obtain rfl : m = 0 := by omega
      decide
    obtain ⟨r, hr⟩ := hlit
    rw [Logged.bind_of_done hr, Logged.pure_log, List.append_nil]
  constructor
  · intro h
    by_contra hne
    obtain ⟨n, rfl⟩ : ∃ n, bufsz = n + 2 := ⟨bufsz - 2, by omega⟩
    -- the terminator is copied without being counted
    have hmem : CwdAccess.buf (n + 2) ∈ (vfsGetcwd v junk 0 (some buf) (n + 2)).log := by
      rw [hcall, copyString, Logged.bind_of_done (noteAll_out _),
        Logged.bind_of_done (Logged.note_out _),
        if_neg (by decide), copyString, Logged.bind_of_done (noteAll_out _),
        Logged.bind_of_done (Logged.note_out _), if_pos (by decide)]
      refine List.mem_append_right _ (List.mem_append_right _ (List.mem_append_right _
        (List.mem_append_right _ ?_)))
      exact mem_padZeros.mpr ⟨_, rfl, by omega, by omega⟩
    exact absurd (h 0 _ hmem) (Nat.lt_irrefl _)
  · rintro rfl fuel a ha
    rw [hcall] at ha
    rcases copyString_access ha with ⟨i, rfl, _, h2, _⟩ | ⟨m, _, hm, _⟩
    · rw [copyString, Logged.bind_of_done (noteAll_out _), Logged.bind_of_done (Logged.note_out _),
        if_neg (by decide), copyString] at ha
      simp only [noteAll_log, Logged.note_log, Logged.pure_log, List.append_nil, List.nil_append,
        List.mem_singleton, CwdAccess.buf.injEq] at ha
      rw [ha]
      exact Nat.one_pos
    · exact absurd hm (by simp)

/-- What `vfs_getcwd` does after its loop. -/
def cwdEnd (buf : Mem) (bufsz : Nat) (p : Int × (Int → UInt8)) : Logged CwdAccess (Option Mem) := do
  Logged.note (.tmp p.1)
  let q ←
    if p.2 p.1 = 0 then do
      Logged.note (.tmp (p.1 - 1))
      pure (p.1 - 1, fun x => if x = p.1 - 1 then slash else p.2 x)
    else pure p
  let buf ← copyString (fun k => q.2 (q.1 + k)) (fun k => [.tmp (q.1 + k)]) (bufsz - 1) 0 buf
  Logged.note (.buf (bufsz - 1))
  pure (some (setByte buf (bufsz - 1) 0))

/-- The scratch array before the loop. -/
def emptyTmp (junk : Int → UInt8) : Int → UInt8 := fun x => if x = cwdTmpSize - 1 then 0 else junk x

theorem built_empty (junk : Int → UInt8) : Built junk 1023 (emptyTmp junk) [] where
  fills := rfl
  nonneg := by decide
  zero := if_pos rfl
  bytes := by
    intro j hj
    exact absurd hj (by simp)
  head := Or.inl rfl
  front := by
    intro x hx
    exact if_neg (by unfold cwdTmpSize; omega)

theorem vfsGetcwd_below (hne : v.cwd ≠ vfsInodeRoot) (hb : 1 ≤ bufsz) (fuel : Nat) :
    vfsGetcwd v junk fuel (some buf) bufsz
      = Logged.note (.tmp 1023) >>= fun _ =>
        cwdLoop v fuel v.cwd 1023 (emptyTmp junk) >>= cwdEnd buf bufsz := by
  rw [vfsGetcwd, if_neg (by omega), if_neg hne]
  rfl

/-- From where the source is put, it ends inside the scratch array. -/
theorem copyString_inside {tmp : Int → UInt8} {pos : Int} (h0 : 0 ≤ pos) (h1 : pos ≤ 1023)
    (hz : tmp 1023 = 0) (hb : 1 ≤ bufsz) : ∀ a ∈ (copyString (fun k => tmp (pos + k))
      (fun k => [.tmp (pos + k)]) (bufsz - 1) 0 buf).log, a.Inside bufsz := by
  intro a ha
  rcases copyString_access ha with ⟨i, rfl, _, hi, hpos⟩ | ⟨m, _, hm, hnz⟩
  · show i < bufsz
    omega
  · rw [List.mem_singleton] at hm
    rw [hm]
    have hle : (m : Int) ≤ 1023 - pos := by
      by_contra hgt
      refine hnz (1023 - pos).toNat (Nat.zero_le _) (by omega) ?_
      rw [show pos + ((1023 - pos).toNat : Int) = 1023 by omega]
      exact hz
    exact ⟨by omega, by unfold cwdTmpSize; omega⟩

/-- **After the loop** everything is inside exactly if the loop was left soundly. -/
theorem cwdEnd_inside {p : Int × (Int → UInt8)} (h1 : p.1 ≤ 1023) (hz : p.2 1023 = 0)
    (hb : 1 ≤ bufsz) :
    (∀ a ∈ (cwdEnd buf bufsz p).log, a.Inside bufsz) ↔ Sound p := by
  have hsize : cwdTmpSize = 1024 := rfl
  constructor
  · intro h
    have h0 : 0 ≤ p.1 := (h (.tmp p.1) (by
      rw [cwdEnd, Logged.bind_of_done (Logged.note_out _)]
      exact List.mem_append_left _ (List.mem_singleton.mpr rfl))).1
    refine ⟨h0, fun hp0 hzero => ?_⟩
    -- a zero at the front makes it look one byte further
    have hin : (CwdAccess.tmp (p.1 - 1)).Inside bufsz := by
      refine h _ ?_
      rw [cwdEnd, Logged.bind_of_done (Logged.note_out _), hp0, if_pos hzero]
      exact List.mem_append_right _ (Logged.mem_bind.mpr (Or.inl (List.mem_singleton.mpr rfl)))
    have hneg : 0 ≤ p.1 - 1 := hin.1
    omega
  · rintro ⟨h0, hfirst⟩ a ha
    rw [cwdEnd, Logged.bind_of_done (Logged.note_out _)] at ha
    have hend : ∀ {pos : Int} {tmp : Int → UInt8}, 0 ≤ pos → pos ≤ 1023 → tmp 1023 = 0 →
        a ∈ (copyString (fun k => tmp (pos + k)) (fun k => [.tmp (pos + k)])
            (bufsz - 1) 0 buf >>= fun buf =>
          Logged.note (.buf (bufsz - 1)) >>= fun _ => pure (some (setByte buf (bufsz - 1) 0))).log →
        a.Inside bufsz := by
      intro pos tmp hp0 hp1 htz ha
      rcases Logged.mem_bind.mp ha with ha | ⟨r, _, ha⟩
      · exact copyString_inside hp0 hp1 htz hb a ha
      · rw [Logged.bind_of_done (Logged.note_out _), Logged.pure_log, List.append_nil,
          Logged.note_log,
          List.mem_singleton] at ha
        rw [ha]
        show bufsz - 1 < bufsz
        omega
    rcases List.mem_append.mp ha with ha | ha
    · rw [Logged.note_log, List.mem_singleton] at ha
      rw [ha]
      exact ⟨h0, by omega⟩
    · by_cases hzero : p.2 p.1 = 0
      · have hpos : 1 ≤ p.1 := by
          by_contra hlt
          have hp0 : p.1 = 0 := by omega
          rw [hp0] at hzero
          exact hfirst hp0 hzero
        rw [if_pos hzero, Logged.bind_of_done (Logged.note_out _)] at ha
        rcases List.mem_append.mp ha with ha | ha
        · rw [Logged.note_log, List.mem_singleton] at ha
          rw [ha]
          exact ⟨by omega, by omega⟩
        · have hz' : (if (1023 : Int) = p.1 - 1 then slash else p.2 1023) = 0 := by
            rw [if_neg (by omega)]
            exact hz
          exact @hend (p.1 - 1) (fun x => if x = p.1 - 1 then slash else p.2 x) (by omega)
            (by omega) hz' ha
      · rw [if_neg hzero] at ha
        exact hend h0 h1 hz ha

theorem cwdInside_below {names : List CStr} (hne : v.cwd ≠ vfsInodeRoot)
    (hup : Upward v v.cwd names)
    (hb : 1 ≤ bufsz) : CwdInside v junk buf bufsz ↔ CwdFits (junk 0) 1023 names := by
  have hsize : cwdTmpSize = 1024 := rfl
  have hkeeps := fun fuel => cwdLoop_keeps hup (built_empty junk) fuel
  constructor
  · intro h
    obtain ⟨p, hp⟩ := cwdLoop_done hup 1023 (emptyTmp junk)
    obtain ⟨h1, hz, hsound⟩ := (hkeeps (names.length + 1)).2 p hp
    have hinside : ∀ a ∈ (cwdEnd buf bufsz p).log, a.Inside bufsz := by
      intro a ha
      refine h (names.length + 1) a ?_
      rw [vfsGetcwd_below hne hb]
      exact Logged.mem_bind.mpr (Or.inr ⟨(), rfl, Logged.mem_bind.mpr (Or.inr ⟨p, hp, ha⟩)⟩)
    exact hsound.mp ((cwdEnd_inside h1 hz hb).mp hinside)
  · intro hfits fuel a ha
    rw [vfsGetcwd_below hne hb] at ha
    rcases Logged.mem_bind.mp ha with ha | ⟨_, _, ha⟩
    · rw [Logged.note_log, List.mem_singleton] at ha
      rw [ha]
      exact ⟨by decide, by decide⟩
    · rcases Logged.mem_bind.mp ha with ha | ⟨p, hp, ha⟩
      · obtain ⟨x, rfl, h1, h2⟩ := (hkeeps fuel).1 a ha
        exact ⟨h1, h2⟩
      · obtain ⟨h1, hz, hsound⟩ := (hkeeps fuel).2 p hp
        exact (cwdEnd_inside h1 hz hb).mpr (hsound.mpr hfits) a ha

end Inside

/-- **`vfs_getcwd` stays inside its arrays** where the names on the way up fit, unless it is at the
root: there it does not with any buffer longer than one byte. -/
theorem Vfs.cwd_inside_iff {fs : FrameService σ} {v : Vfs σ} (h : Reach Vfs.Starts (Vfs.Steps fs) v)
    (junk : Int → UInt8) (buf : Mem) {bufsz : Nat} (hb : 1 ≤ bufsz) :
    CwdInside v junk buf bufsz ↔ (v.cwd = vfsInodeRoot → bufsz = 1)
      ∧ (v.cwd ≠ vfsInodeRoot → ∃ names, Upward v v.cwd names ∧ CwdFits (junk 0) 1023 names) := by
  have hT : TreeInv v := (treeOk_reach h).1
  by_cases hroot : v.cwd = vfsInodeRoot
  · rw [cwdInside_root hroot hb]
    exact ⟨fun h1 => ⟨fun _ => h1, fun hne => absurd hroot hne⟩, fun hc => hc.1 hroot⟩
  · obtain ⟨names, hup⟩ := hT.upward v.cwd v.cwd (Nat.le_refl _)
    rw [cwdInside_below hroot hup hb]
    constructor
    · exact fun hfits => ⟨fun he => absurd he hroot, fun _ => ⟨names, hup, hfits⟩⟩
    · rintro ⟨_, hbelow⟩
      obtain ⟨names', hup', hfits⟩ := hbelow hroot
      rw [hup.unique hup'] at hfits
      exact hfits

/-- The file system as it starts, in `/usr/bin`. -/
def usrBinVfs : Vfs Nat := vfsInit 6 shmInit ⟨fun _ => 0, 0, 0, 64⟩

theorem usrBinVfs_starts : usrBinVfs.Starts := ⟨6, shmInit, _, by decide, Or.inl rfl⟩

theorem usrBinVfs_upward : Upward usrBinVfs usrBinVfs.cwd [cstr "bin", cstr "usr"] := by
  have hbin : nodeGet usrBinVfs 6 = some 6 ∧ (usrBinVfs.nodes 6).name = cstr "bin"
      ∧ (usrBinVfs.nodes 6).parent = 5 ∧ usrBinVfs.cwd = 6 := by
    decide +kernel
  have husr : nodeGet usrBinVfs 5 = some 5 ∧ (usrBinVfs.nodes 5).name = cstr "usr"
      ∧ (usrBinVfs.nodes 5).parent = 0 := by
    decide +kernel
  have hup5 : Upward usrBinVfs 5 [cstr "usr"] := by
    rw [← husr.2.1]
    exact .up (by decide) husr.1 (husr.2.2 ▸ .root)
  rw [hbin.2.2.2, ← hbin.2.1]
  exact .up (by decide) hbin.1 (hbin.2.2.1 ▸ hup5)

/-- In `/usr/bin` every buffer is good. -/
theorem Vfs.cwd_inside_usrBin : Reach Vfs.Starts (Vfs.Steps zeroedService) usrBinVfs ∧ 1 ≤ 4
    ∧ CwdInside usrBinVfs (fun _ => 0) (fun _ => 0) 4 := by
  refine ⟨.start usrBinVfs_starts, by decide, ?_⟩
  refine (Vfs.cwd_inside_iff (.start usrBinVfs_starts : Reach Vfs.Starts
    (Vfs.Steps zeroedService) _)
    (fun _ => 0) (fun _ => 0) (by decide)).mpr ⟨fun hroot => ?_, fun _ => ?_⟩
  · have hcwd : usrBinVfs.cwd = 6 := by decide +kernel
    rw [hcwd] at hroot
    exact absurd hroot (by decide)
  · exact ⟨_, usrBinVfs_upward, cwdFits_of_length 0 (by decide)⟩

/-- At the root, a buffer of two bytes: a third is written. -/
theorem Vfs.cwd_outside_root : Reach Vfs.Starts (Vfs.Steps zeroedService) bootVfs
    ∧ CwdAccess.buf 2 ∈ (vfsGetcwd bootVfs (fun _ => 0) 1 (some fun _ => 0) 2).log
    ∧ ¬ CwdInside bootVfs (fun _ => 0) (fun _ => 0) 2 := by
  have hmem : CwdAccess.buf 2 ∈ (vfsGetcwd bootVfs (fun _ => 0) 1 (some fun _ => 0) 2).log := by
    decide +kernel
  exact ⟨.start bootVfs_starts, hmem, fun h => absurd (h 1 _ hmem) (Nat.lt_irrefl 2)⟩

/-! ## Resolving what is handed out -/

/-- Names are what an array of 64 bytes can hold as a string. -/
def StoredNames (v : Vfs σ) : Prop :=
  ∀ i, (v.nodes i).used = true → (v.nodes i).name.length ≤ 63 ∧ (0 : UInt8) ∉ (v.nodes i).name

/-- The absolute path that these names spell. -/
def absolutePath (names : List CStr) : CStr := if names = [] then [slash] else pathUp names

section Resolve

variable {v : Vfs σ} {cur : Nat} {names : List CStr}

theorem noZero_pathUp : ∀ {names : List CStr}, (∀ name ∈ names, (0 : UInt8) ∉ name)
    → (0 : UInt8) ∉ pathUp names
  | [], _ => by simp [pathUp]
  | name :: names, h => by
      rw [pathUp, List.mem_append, List.mem_cons, not_or, not_or]
      exact ⟨noZero_pathUp fun n hn => h n (List.mem_cons_of_mem _ hn), by decide,
        h name (List.mem_cons_self ..)⟩

theorem Upward.noZero (hup : Upward v cur names) (hS : StoredNames v) :
    ∀ name ∈ names, (0 : UInt8) ∉ name := by
  induction hup with
  | root => simp
  | lost _ _ => simp
  | up _ hg _ ih =>
      intro name hname
      rcases List.mem_cons.mp hname with rfl | hname
      · exact (hS _ (nodeGet_some hg).2.1).2
      · exact ih name hname

/-- **The path leads back down** to where the way up began. -/
theorem Upward.walk_down (hup : Upward v cur names) (hT : TreeInv v) (hN : WellNamed v)
    (hS : StoredNames v) : ∀ {i : Nat}, (v.nodes i).used = true → (v.nodes i).inode = cur →
    cur ≠ vfsInodeRoot → ∃ rest, pathUp names = slash :: rest ∧ rest ≠ []
      ∧ rest.getLast? ≠ some slash
      ∧ walk v vfsInodeRoot rest = some cur := by
  induction hup with
  | root =>
      intro i _ _ hne
      exact absurd rfl hne
  | lost _ hn =>
      intro i hu hi _
      rw [← hi, hT.nodeGet_self hu] at hn
      exact absurd hn (by simp)
  | @up cur k names _ hg ht ih =>
      intro i hu hi hne
      obtain rfl : k = i := by
        rw [← hi, hT.nodeGet_self hu] at hg
        exact (Option.some.inj hg).symm
      have hroot : (v.nodes k).inode ≠ vfsInodeRoot := by rw [hi]; exact hne
      obtain ⟨hnil, hsl, hdot, hdd⟩ := hN.proper k hu hroot
      have hlen := (hS k hu).1
      have hlast : ∀ s : CStr, (s ++ (v.nodes k).name).getLast? ≠ some slash := by
        intro s hs
        rw [List.getLast?_append_of_ne_nil _ hnil] at hs
        exact hsl (List.mem_of_getLast? hs)
      -- the last step, from the parent
      have hstep : walk v (v.nodes k).parent (v.nodes k).name = some cur := by
        rw [walk_leaf v _ hnil hsl hlen, advance_proper v _ ⟨hnil, hsl, hdot, hdd⟩,
          hN.findChild_self hT hu, Option.map_some, hi]
      have hk0 : k ≠ 0 := by
        rintro rfl
        exact hroot hT.root.2.2.1
      obtain ⟨p, hpu, _, hpi, _⟩ := hT.attached k hu hk0
      by_cases hpr : (v.nodes k).parent = vfsInodeRoot
      · have hnames : names = [] := by
          rw [hpr] at ht
          exact (Upward.root (v := v)).unique ht
        rw [hnames]
        refine ⟨(v.nodes k).name, rfl, hnil, ?_, ?_⟩
        · exact hlast []
        · rw [← hpr]
          exact hstep
      · obtain ⟨rest, hrest, hne', hlast', hwalk⟩ := ih hpu hpi hpr
        refine ⟨rest ++ slash :: (v.nodes k).name, ?_, by simp, ?_, ?_⟩
        · rw [pathUp, hrest, List.cons_append]
        · have hassoc : rest ++ slash :: (v.nodes k).name
            = (rest ++ [slash]) ++ (v.nodes k).name := by simp
          rw [hassoc]
          exact hlast _
        · rw [walk_through v _ _ rest _ (Nat.le_refl _) hne' hlast', hwalk]
          exact hstep

theorem vfsResolve_absolutePath (hup : Upward v cur names) (hT : TreeInv v) (hN : WellNamed v)
    (hS : StoredNames v) {i : Nat} (hu : (v.nodes i).used = true) (hi : (v.nodes i).inode = cur) :
    vfsResolve v (absolutePath names) = toInt32 cur := by
  by_cases hroot : cur = vfsInodeRoot
  · have hnames : names = [] := by
      rw [hroot] at hup
      exact (Upward.root (v := v)).unique hup
    rw [hnames, hroot]
    rfl
  · obtain ⟨rest, hrest, _, _, hwalk⟩ := hup.walk_down hT hN hS hu hi hroot
    have hne : names ≠ [] := by
      rintro rfl
      exact absurd hrest (by simp [pathUp])
    rw [absolutePath, if_neg hne, hrest, vfsResolve_walk, skipSlash, if_pos rfl,
      show startOf v slash = vfsInodeRoot from if_pos rfl, hwalk]
    rfl

end Resolve

/-- What a buffer holds after a copy into all of it but the last byte. -/
theorem strOf_copyString (src : Nat → UInt8) (reads : Nat → List CwdAccess) {s : CStr} {n : Nat}
    (buf : Mem)
    (hs : (0 : UInt8) ∉ s) (hsrc : ∀ j, j < s.length → src j = s.getD j 0) (hz : src s.length = 0)
    (hlen : s.length ≤ n) : ∃ r, (copyString src reads n 0 buf).out = .done r
      ∧ strOf (setByte r n 0) 0 (n + 1) = s := by
  have hnz : ∀ j, 0 ≤ j → j < s.length → src j ≠ 0 := by
    intro j _ hj h0
    rw [hsrc j hj, List.getD_eq_getElem _ _ hj] at h0
    exact hs (h0 ▸ List.getElem_mem hj)
  obtain ⟨r, hr, _, hin⟩ : ∃ r, (copyString src reads n 0 buf).out = .done r ∧ _ ∧ _ :=
    copyString_result hz buf (Nat.zero_le _) hnz
  refine ⟨r, hr, strOf_eq (fun j hj => ?_) hs (by omega) ?_⟩
  · rw [Nat.zero_add, setByte_ne (by omega), hin j (Nat.zero_le _) (by omega) (by omega), hsrc j hj,
      List.getD_eq_getElem _ _ hj]
  · rw [Nat.zero_add]
    by_cases he : s.length = n
    · rw [he, setByte_self]
    · rw [setByte_ne he, hin _ (Nat.zero_le _) (Nat.le_refl _) (by omega), hz]

/-- **`vfs_getcwd` and `vfs_resolve` are inverse.** -/
theorem vfsGetcwd_resolves {v : Vfs σ} (hT : TreeInv v) (hN : WellNamed v) (hS : StoredNames v) {i : Nat}
    (hu : (v.nodes i).used = true) (hcwd : v.cwd = (v.nodes i).inode)
    {names : List CStr} (hup : Upward v v.cwd names) (junk : Int → UInt8) (buf : Mem) {bufsz : Nat}
    (hlen : (absolutePath names).length ≤ min (bufsz - 1) 1023) :
    ∃ fuel r, (vfsGetcwd v junk fuel (some buf) bufsz).out = .done (some r)
      ∧ strOf r 0 bufsz = absolutePath names ∧ (absolutePath names).head? = some slash
      ∧ vfsResolve v (strOf r 0 bufsz) = toInt32 v.cwd := by
  have hres := vfsResolve_absolutePath hup hT hN hS hu hcwd.symm
  suffices h : ∃ fuel r, (vfsGetcwd v junk fuel (some buf) bufsz).out = .done (some r)
      ∧ strOf r 0 bufsz = absolutePath names ∧ (absolutePath names).head? = some slash by
    obtain ⟨fuel, r, hr, hstr, hhead⟩ := h
    exact ⟨fuel, r, hr, hstr, hhead, by rw [hstr, hres]⟩
  by_cases hroot : v.cwd = vfsInodeRoot
  · have hnames : names = [] := by
      rw [hroot] at hup
      exact (Upward.root (v := v)).unique hup
    rw [hnames] at hlen ⊢
    have h1 : absolutePath [] = [slash] := rfl
    rw [h1, List.length_singleton] at hlen
    obtain ⟨n, rfl⟩ : ∃ n, bufsz = n + 2 := ⟨bufsz - 2, by omega⟩
    -- the literal is copied with its terminator
    have hz : (fun k : Nat => if k = 0 then slash else (0 : UInt8)) 1 = 0 := rfl
    obtain ⟨r, hr, _, hin⟩ : ∃ r, (copyString (fun k => if k = 0 then slash else 0) (fun _ => [])
      (n + 2)
        0 buf).out = .done r ∧ _ ∧ _ := copyString_result hz buf (Nat.zero_le _) fun m _ hm => by
      obtain rfl : m = 0 := by omega
      decide
    refine ⟨0, r, ?_, ?_, rfl⟩
    · rw [vfsGetcwd, if_neg (by omega), if_pos hroot, Logged.bind_of_done hr]
      rfl
    · have h0 : r 0 = slash := hin 0 (Nat.le_refl _) (Nat.zero_le _) (by omega)
      have h1 : r 1 = 0 := hin 1 (by omega) (Nat.le_refl _) (by omega)
      rw [strOf, h0, if_neg (by decide), strOf, h1, if_pos rfl]
      rfl
  · obtain ⟨rest, hrest, _, _, _⟩ := hup.walk_down hT hN hS hu hcwd.symm hroot
    have hne : names ≠ [] := by
      rintro rfl
      exact absurd hrest (by simp [pathUp])
    have habs : absolutePath names = pathUp names := if_neg hne
    rw [habs] at hlen ⊢
    have hpos : 0 < (pathUp names).length := by
      rw [hrest]
      exact Nat.succ_pos _
    obtain ⟨n, rfl⟩ : ∃ n, bufsz = n + 1 := ⟨bufsz - 1, by omega⟩
    obtain ⟨p, hp, hbuilt⟩ := cwdLoop_built hup (built_empty junk) (by omega)
    rw [List.append_nil] at hbuilt
    have hfills := hbuilt.fills
    have hslash : p.2 p.1 ≠ 0 := by
      rcases hbuilt.head with hnil | hs
      · rw [hnil] at hpos
        exact absurd hpos (by simp)
      · rw [hs]
        decide
    obtain ⟨r, hr, hstr⟩ := strOf_copyString (fun k => p.2 (p.1 + k)) (fun k => [.tmp (p.1 + k)])
      (n := n) buf
      (noZero_pathUp (hup.noZero hS)) (fun j hj => hbuilt.bytes j hj)
      (by rw [show p.1 + ((pathUp names).length : Int) = 1023 by omega]; exact hbuilt.zero)
        (by omega)
    refine ⟨names.length + 1, setByte r n 0, ?_, hstr, by rw [hrest]; rfl⟩
    rw [vfsGetcwd_below hroot (by omega), Logged.bind_out, Logged.note_out, Outcome.bind_done,
      Logged.bind_out, hp, Outcome.bind_done, cwdEnd, Logged.bind_of_done (Logged.note_out _),
        if_neg hslash]
    dsimp only
    rw [Logged.pure_bind, Logged.bind_out, Nat.add_sub_cancel, hr]
    rfl

theorem usrBinVfs_stored : StoredNames usrBinVfs := by
  have hall : ∀ i < vfsMaxNodes, (usrBinVfs.nodes i).used = true →
      (usrBinVfs.nodes i).name.length ≤ 63 ∧ (0 : UInt8) ∉ (usrBinVfs.nodes i).name := by
    decide +kernel
  exact fun i hu => hall i ((treeOk_start usrBinVfs_starts).1.bound i hu) hu

/-- From `/usr/bin`, with just enough room. -/
theorem vfsGetcwd_resolves_usrBin : ∃ fuel r,
    (vfsGetcwd usrBinVfs (fun _ => 1) fuel (some fun _ => 2) 9).out = .done (some r)
      ∧ strOf r 0 9 = cstr "/usr/bin" ∧ vfsResolve usrBinVfs (strOf r 0 9) = 6 := by
  have hnames := nameInv_start usrBinVfs_starts
  have hnode : (usrBinVfs.nodes 6).used = true ∧ usrBinVfs.cwd = (usrBinVfs.nodes 6).inode
      ∧ usrBinVfs.cwd = 6 := by
    decide +kernel
  obtain ⟨fuel, r, hr, hstr, _, hres⟩ :=
    vfsGetcwd_resolves hnames.tree.1 hnames.named usrBinVfs_stored
    hnode.1 hnode.2.1 usrBinVfs_upward (fun _ => 1) (fun _ => 2) (by decide : _ ≤ min (9 - 1) 1023)
  exact ⟨fuel, r, hr, by rw [hstr]; rfl, by rw [hres, hnode.2.2]; rfl⟩

end VnlKernel
