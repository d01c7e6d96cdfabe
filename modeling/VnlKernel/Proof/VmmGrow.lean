import VnlKernel.Proof.VmmTables

/-!
# How page tables change

If every table is reached by one path only, then writing an entry changes what lies below
that entry and nothing else, and so does hanging in a table that was nobody's. Those are
the two things that mapping a page does: the walk hangs in the tables that are missing on
the page's route, one after the other, and then the page's own entry is written.

What an address space is like is said here by its entries, found by path and index. Tables
never move, so the entries are enough to say what a change has changed.
-/

namespace VnlKernel

open ByteMem Bits Radix

variable {σ : Type} {fs : FrameService σ} (o : OverPmm fs)

theorem FrameTaken.isFrame {p : Pmm} (hp : PmmInv p) {a : Nat} (h : FrameTaken p a) :
    IsFrame a := by
  have hne := h.ne_zero
  obtain ⟨f, rfl, _, hhi, _⟩ := h
  have htotal := hp.total
  have hmax : maxFrames = 1048576 := rfl
  rw [show pageSize = 4096 from rfl] at hne ⊢
  exact ⟨Nat.mul_mod_left _ _, hne, by omega⟩

/-- **An address space in shape**: its tables are frames in use, and each has one path to it. -/
structure Space (s : σ) (root : Nat) : Prop where
  inv : PmmInv (o.pmm s)
  tree : IsTree (tableChild (fs.phys s)) 3 root
  taken : ∀ p a, p.length ≤ 3 → tableAt (fs.phys s) root p = some a → FrameTaken (o.pmm s) a

/-- A table is hung in: a fresh frame, cleared, under index `i` of the table at the end of `p`. -/
structure GraftAt (root : Nat) (s s' : σ) (p : List (Fin 512)) (i : Fin 512) (frame : Nat) : Prop where
  short : p.length < 3
  alloc : pmmAlloc (o.pmm s) = (o.pmm s', frame)
  found : frame ≠ 0
  slot : ∃ t, tableAt (fs.phys s) root p = some t ∧ isPresent (read64 (fs.phys s) (entryAt t i)) = false
    ∧ fs.phys s' = write64 (memset (fs.phys s) frame 0 pageSize) (entryAt t i)
        (frame ||| vmmFlagPresent ||| vmmFlagWrite)

section Tables

variable {o} {s s' : σ} {root : Nat} {p q : List (Fin 512)} {i j : Fin 512} {a b frame : Nat}

theorem Space.isFrame (h : Space o s root) (hp : p.length ≤ 3)
    (ha : tableAt (fs.phys s) root p = some a) :
    IsFrame a := (h.taken p a hp ha).isFrame h.inv

/-- Two entries of an address space are two places. -/
theorem Space.apart (h : Space o s root) (hp : p.length ≤ 3) (hq : q.length ≤ 3)
    (ha : tableAt (fs.phys s) root p = some a) (hb : tableAt (fs.phys s) root q = some b)
    (hne : (p, i) ≠ (q, j)) : entryAt a i + 8 ≤ entryAt b j ∨ entryAt b j + 8 ≤ entryAt a i := by
  refine entryAt_apart (h.isFrame hp ha) (h.isFrame hq hb) i.isLt j.isLt ?_
  intro ⟨hab, hij⟩
  rw [← hab] at hb
  exact hne (Prod.ext (h.tree p q a hp hq ha hb) (Fin.ext hij))

/-- Paths lead where entries say. -/
theorem tableAt_snoc (m : Mem) (root : Nat) (p : List (Fin 512)) (i : Fin 512) :
    tableAt m root (p ++ [i]) = (entryOn m root p i).bind fun entry =>
      if !isPresent entry || stopsAt (3 - p.length) entry then none else some
        (alignDown entry pageSize) := by
  unfold tableAt entryOn tableAt
  rw [follow_snoc]
  cases follow (tableChild m) 0 root p with
  | none => rw [Option.map_none, Option.bind_none, Option.bind_none]
  | some t =>
      rw [Option.map_some, Option.bind_some, Option.bind_some]
      rfl

theorem tableAt_nil (m : Mem) (root : Nat) : tableAt m root [] = some root := rfl

/-- Nothing is below an entry that leads to no table. -/
theorem tableAt_below {m : Mem} (h : tableAt m root p = none) (q : List (Fin 512)) :
    tableAt m root (p ++ q) = none := by
  unfold tableAt at *
  rw [follow_append, h]
  rfl

theorem entryOn_some {m : Mem} (h : tableAt m root p = some a) :
    entryOn m root p i = some (read64 m (entryAt a i)) := by
  unfold entryOn
  rw [h]
  rfl

/-! ## A table more -/

namespace GraftAt

variable (h : GraftAt o root s s' p i frame) (hs : Space o s root)
include h hs

/-- The frame was nobody's. -/
theorem fresh : PmmInv (o.pmm s') ∧ (∀ a, FrameTaken (o.pmm s) a → FrameTaken (o.pmm s') a)
    ∧ FrameTaken (o.pmm s') frame ∧ ¬ FrameTaken (o.pmm s) frame := by
  obtain ⟨h1, h2, h3⟩ := frameTaken_alloc hs.inv h.alloc
  exact ⟨h1, h2, (h3 h.found).1, (h3 h.found).2⟩

theorem isFrame : IsFrame frame := (h.fresh hs).2.2.1.isFrame (h.fresh hs).1

/-- Another entry than the slot is what it was. -/
theorem read_ne (hq : q.length ≤ 3) (hb : tableAt (fs.phys s) root q = some b)
    (hne : (q, j) ≠ (p, i)) :
    read64 (fs.phys s') (entryAt b j) = read64 (fs.phys s) (entryAt b j) := by
  obtain ⟨t, ht, _, hm⟩ := h.slot
  have hshort := h.short
  have hfresh : frame ≠ b := fun he => (h.fresh hs).2.2.2 (he ▸ hs.taken q b hq hb)
  rw [hm, read64_write64_disj (hs.apart hq (by omega) hb ht hne)]
  exact entryAt_memset (h.isFrame hs) (hs.isFrame hq hb) j.isLt hfresh

theorem read_slot {t : Nat} (ht : tableAt (fs.phys s) root p = some t) :
    read64 (fs.phys s') (entryAt t i) = frame ||| vmmFlagPresent ||| vmmFlagWrite := by
  obtain ⟨t', ht', _, hm⟩ := h.slot
  cases ht.symm.trans ht'
  rw [hm]
  exact read64_write64_same (table_value (h.isFrame hs)).1

theorem read_new : read64 (fs.phys s') (entryAt frame j) = 0 := by
  obtain ⟨t, ht, _, hm⟩ := h.slot
  have hshort := h.short
  have hfresh : frame ≠ t := fun he => (h.fresh hs).2.2.2 (he ▸ hs.taken p t (by omega) ht)
  rw [hm, read64_write64_disj (entryAt_apart (h.isFrame hs) (hs.isFrame (by omega) ht) j.isLt i.isLt
    fun hc => hfresh hc.1)]
  exact entryAt_cleared (h.isFrame hs) j.isLt

theorem grafts : Grafts (tableChild (fs.phys s)) (tableChild (fs.phys s')) 3 root p i frame where
  at_node := by
    obtain ⟨t, ht, habsent, _⟩ := h.slot
    obtain ⟨_, hpresent, hstops, hdown⟩ := table_value (h.isFrame hs)
    refine ⟨t, ht, ?_, ?_⟩
    · exact tableChild_absent habsent
    · unfold tableChild
      dsimp only
      rw [h.read_slot hs ht, hpresent, hstops, hdown]
      rfl
  bare := by
    intro _ j
    exact tableChild_absent (by rw [h.read_new hs, isPresent_zero])
  same := by
    intro q b j hq hb hne
    unfold tableChild
    dsimp only
    rw [h.read_ne hs (by omega) hb hne]

theorem tableAt_eq (hq : q.length ≤ 3) : tableAt (fs.phys s') root q
    = if q = p ++ [i] then some frame else tableAt (fs.phys s) root q :=
      (h.grafts hs).follow_eq q hq

/-- **The address space stays in shape.** -/
theorem space : Space o s' root where
  inv := (h.fresh hs).1
  tree := by
    refine (h.grafts hs).isTree hs.tree fun q hq hc => ?_
    exact (h.fresh hs).2.2.2 (hs.taken q frame hq hc)
  taken := by
    intro q a hq ha
    rw [h.tableAt_eq hs hq] at ha
    split at ha
    · cases ha
      exact (h.fresh hs).2.2.1
    · exact (h.fresh hs).2.1 a (hs.taken q a hq ha)

/-- **The entries afterwards**: the slot leads to the new table, and that is empty. -/
theorem entryOn_eq (hq : q.length ≤ 3) : entryOn (fs.phys s') root q j
    = if (q, j) = (p, i) then some (frame ||| vmmFlagPresent ||| vmmFlagWrite)
      else if q = p ++ [i] then some 0 else entryOn (fs.phys s) root q j := by
  obtain ⟨t, ht, _⟩ := h.slot
  have hlonger : p ≠ p ++ [i] := by simp
  unfold entryOn
  rw [h.tableAt_eq hs hq]
  by_cases hhere : (q, j) = (p, i)
  · obtain ⟨rfl, rfl⟩ := Prod.mk.inj hhere
    rw [if_neg hlonger, if_pos rfl, ht, Option.map_some, h.read_slot hs ht]
  · rw [if_neg hhere]
    by_cases hnew : q = p ++ [i]
    · rw [if_pos hnew, if_pos hnew, Option.map_some, h.read_new hs]
    · rw [if_neg hnew, if_neg hnew]
      cases hb : tableAt (fs.phys s) root q with
      | none => rw [Option.map_none, Option.map_none]
      | some b => rw [Option.map_some, Option.map_some, h.read_ne hs hq hb hhere]

omit h in
/-- Bytes of frames in use that are not tables stay. -/
theorem byte_eq (h : GraftAt o root s s' p i frame) (ha : FrameTaken (o.pmm s) a)
    (hnone : ∀ q, q.length ≤ 3 → tableAt (fs.phys s) root q ≠ some a) {k : Nat}
    (hk : k < pageSize) :
    fs.phys s' (a + k) = fs.phys s (a + k) := by
  obtain ⟨t, ht, _, hm⟩ := h.slot
  have hshort := h.short
  have hfresh : frame ≠ a := fun he => (h.fresh hs).2.2.2 (he ▸ ha)
  have hta : t ≠ a := fun he => hnone p (by omega) (he ▸ ht)
  have h1 := (h.isFrame hs).1
  have h2 := (ha.isFrame hs.inv).1
  have h3 := (hs.isFrame (by omega) ht).1
  have hslot := entryAt_eq (hs.isFrame (by omega) ht) i.isLt
  have hi := i.isLt
  rw [show pageSize = 4096 from rfl] at *
  rw [hm, write64_out (by omega), memset_out (by omega)]

end GraftAt

/-! ## Memory outside the tables -/

/-- An address space says the same as long as the bytes of its tables stay. -/
theorem Space.outside (hs : Space o s root) (hinv : PmmInv (o.pmm s'))
    (htaken : ∀ a, FrameTaken (o.pmm s) a → FrameTaken (o.pmm s') a)
    (hbytes : ∀ q a k, q.length ≤ 3 → tableAt (fs.phys s) root q = some a → k < pageSize →
      fs.phys s' (a + k) = fs.phys s (a + k)) :
    Space o s' root
      ∧ (∀ q, q.length ≤ 3 → tableAt (fs.phys s') root q = tableAt (fs.phys s) root q)
      ∧ ∀ q j, q.length ≤ 3 → entryOn (fs.phys s') root q j = entryOn (fs.phys s) root q j := by
  have hread : ∀ q b (j : Fin 512), q.length ≤ 3 → tableAt (fs.phys s) root q = some b →
      read64 (fs.phys s') (entryAt b j) = read64 (fs.phys s) (entryAt b j) :=
    fun q b j hq hb => entryAt_congr (hs.isFrame hq hb) (fun k hk => hbytes q b k hq hb hk) j
  have hchild : ∀ q b j, q.length < 3 → follow (tableChild (fs.phys s)) 0 root q = some b →
      tableChild (fs.phys s') q.length b j = tableChild (fs.phys s) q.length b j := by
    intro q b j hq hb
    unfold tableChild
    dsimp only
    rw [hread q b j (by omega) hb]
  have htables : ∀ q, q.length ≤ 3 → tableAt (fs.phys s') root q = tableAt (fs.phys s) root q :=
    fun q hq => follow_congr hchild q hq
  refine ⟨⟨hinv, hs.tree.congr hchild, fun q a hq ha => ?_⟩, htables, fun q j hq => ?_⟩
  · rw [htables q hq] at ha
    exact htaken a (hs.taken q a hq ha)
  · unfold entryOn
    rw [htables q hq]
    cases hb : tableAt (fs.phys s) root q with
    | none => rw [Option.map_none, Option.map_none]
    | some b => rw [Option.map_some, Option.map_some, hread q b j hq hb]

/-! ## A page's entry -/

/-- The entry of a page is written: the tables are where they were, and so are the other entries. -/
theorem Space.pte_set (hm : FlatMemory fs) (hs : Space o s root) (hp : p.length = 3) {t v : Nat}
    (ht : tableAt (fs.phys s) root p = some t) (hv : v < 2 ^ 64) :
    Space o (setPte fs s (entryAt t i) v) root
      ∧ (∀ q, q.length ≤ 3 →
          tableAt (fs.phys (setPte fs s (entryAt t i) v)) root q = tableAt (fs.phys s) root q)
      ∧ ∀ q j, q.length ≤ 3 → entryOn (fs.phys (setPte fs s (entryAt t i) v)) root q j
          = if (q, j) = (p, i) then some v else entryOn (fs.phys s) root q j := by
  have hpmm : o.pmm (setPte fs s (entryAt t i) v) = o.pmm s := o.setPhys _ _
  have hphys : fs.phys (setPte fs s (entryAt t i) v) = write64 (fs.phys s) (entryAt t i) v :=
    hm.setPhys _ _
  generalize setPte fs s (entryAt t i) v = s' at hpmm hphys ⊢
  have hread : ∀ q b j, q.length ≤ 3 → tableAt (fs.phys s) root q = some b → (q, j) ≠ (p, i) →
      read64 (fs.phys s') (entryAt b j) = read64 (fs.phys s) (entryAt b j) := by
    intro q b j hq hb hne
    rw [hphys]
    exact read64_write64_disj (hs.apart hq (by omega) hb ht hne)
  -- the entry lies below every table, so no path goes through it
  have hchild : ∀ q b j, q.length < 3 → follow (tableChild (fs.phys s)) 0 root q = some b →
      tableChild (fs.phys s') q.length b j = tableChild (fs.phys s) q.length b j := by
    intro q b j hq hb
    have hne : (q, j) ≠ (p, i) := fun he => by
      have := congrArg (fun x : List (Fin 512) × Fin 512 => x.1.length) he
      dsimp only at this
      omega
    unfold tableChild
    dsimp only
    rw [hread q b j (by omega) hb hne]
  have htables : ∀ q, q.length ≤ 3 → tableAt (fs.phys s') root q = tableAt (fs.phys s) root q :=
    fun q hq => follow_congr hchild q hq
  refine ⟨⟨hpmm ▸ hs.inv, hs.tree.congr hchild, fun q a hq ha => ?_⟩, htables, fun q j hq => ?_⟩
  · rw [htables q hq] at ha
    rw [hpmm]
    exact hs.taken q a hq ha
  · unfold entryOn
    rw [htables q hq]
    by_cases hhere : (q, j) = (p, i)
    · obtain ⟨rfl, rfl⟩ := Prod.mk.inj hhere
      rw [if_pos rfl, ht, Option.map_some, hphys, read64_write64_same hv]
    · rw [if_neg hhere]
      cases hb : tableAt (fs.phys s) root q with
      | none => rw [Option.map_none, Option.map_none]
      | some b => rw [Option.map_some, Option.map_some, hread q b j hq hb hhere]

end Tables

/-! ## Mapping a page -/

/-- A table on the route of `virt` is hung in. -/
def GraftOn (root virt : Nat) (s s' : σ) : Prop :=
  ∃ p i frame, p ++ [i] <+: route virt 3 ∧ GraftAt o root s s' p i frame

/-- So are any number of them, one below the other. -/
def Grown (root virt : Nat) : σ → σ → Prop := Relation.ReflTransGen (GraftOn o root virt)

section Walk

variable {o} {s s' : σ} {root virt : Nat}

theorem Grown.space (h : Grown o root virt s s') (hs : Space o s root) : Space o s' root := by
  induction h with
  | refl => exact hs
  | tail _ hstep ih =>
      obtain ⟨p, i, frame, _, hg⟩ := hstep
      exact hg.space ih

/-- Entries that were present stay, and a page's entry is what it was, or new and empty. -/
theorem GraftAt.entry {p : List (Fin 512)} {i : Fin 512} {frame : Nat}
    (h : GraftAt o root s s' p i frame)
    (hs : Space o s root) {q : List (Fin 512)} {j : Fin 512} (hq : q.length ≤ 3) :
    (∀ e, entryOn (fs.phys s) root q j = some e → isPresent e = true
      → entryOn (fs.phys s') root q j = some e)
      ∧ (q.length = 3 → entryOn (fs.phys s') root q j = entryOn (fs.phys s) root q j
          ∨ entryOn (fs.phys s) root q j = none ∧ entryOn (fs.phys s') root q j = some 0) := by
  obtain ⟨t, ht, habsent, _⟩ := h.slot
  have hshort := h.short
  have hslot : entryOn (fs.phys s) root p i = some (read64 (fs.phys s) (entryAt t i)) :=
    entryOn_some ht
  -- nothing was below the slot
  have hnone : entryOn (fs.phys s) root (p ++ [i]) j = none := by
    unfold entryOn
    rw [tableAt_snoc, hslot, Option.bind_some, habsent]
    rfl
  rw [h.entryOn_eq hs hq]
  constructor
  · intro e he hpresent
    rw [if_neg, if_neg]
    · exact he
    · intro hc
      rw [hc, hnone] at he
      cases he
    · intro hc
      obtain ⟨rfl, rfl⟩ := Prod.mk.inj hc
      rw [hslot] at he
      rw [← Option.some.inj he, habsent] at hpresent
      exact Bool.noConfusion hpresent
  · intro hlen
    have hne : (q, j) ≠ (p, i) := fun hc => by
      have := congrArg (fun x : List (Fin 512) × Fin 512 => x.1.length) hc
      dsimp only at this
      omega
    rw [if_neg hne]
    by_cases hnew : q = p ++ [i]
    · rw [if_pos hnew, hnew]
      exact Or.inr ⟨hnone, rfl⟩
    · rw [if_neg hnew]
      exact Or.inl rfl

/-- **The walk that makes what is missing.** It comes to the page's entry, or it meets an entry for
a large page and has made nothing. -/
theorem vmmWalk_grown (hm : FlatMemory fs) :
    ∀ (level : Nat) {s s' : σ} {p : List (Fin 512)} {table pte : Nat},
    p.length + level = 3 → route virt 3 = p ++ route virt level → Space o s root →
    tableAt (fs.phys s) root p = some table → vmmWalk fs virt true level s table = .done (s', pte) →
    (∃ t, Grown o root virt s s' ∧ tableAt (fs.phys s') root (route virt 3) = some t
        ∧ pte = entryAt t (levelFin 0 virt))
      ∨ s' = s ∧ pte = 0 ∧ tableAt (fs.phys s) root (route virt 3) = none
        ∧ (∃ e, entryOn (fs.phys s) root p (levelFin level virt) = some e ∧ isPresent e = true)
        ∧ ∃ q i e, q ++ [i] <+: route virt 3 ∧ entryOn (fs.phys s) root q i = some e
          ∧ isPresent e = true
            ∧ stopsAt (3 - q.length) e = true := by
  intro level
  induction level with
  | zero =>
      intro s s' p table pte hlen hroute hs htable h
      cases h
      rw [route, List.append_nil] at hroute
      rw [hroute, ptIdx_eq]
      exact Or.inl ⟨table, .refl, htable, rfl⟩
  | succ level ih =>
      intro s s' p table pte hlen hroute hs htable h
      have hnext : route virt 3 = (p ++ [levelFin (level + 1) virt]) ++ route virt level := by
        rw [hroute, route, List.append_assoc]
        rfl
      have hon : p ++ [levelFin (level + 1) virt] <+: route virt 3 := ⟨_, hnext.symm⟩
      have hlen' : (p ++ [levelFin (level + 1) virt]).length + level = 3 := by
        rw [List.length_append, List.length_singleton]
        omega
      have hentry : entryOn (fs.phys s) root p (levelFin (level + 1) virt)
          = some (read64 (fs.phys s) (entryAt table (levelFin (level + 1) virt))) :=
            entryOn_some htable
      rw [vmmWalk, levelIdx_eq (Nat.succ_pos _) (by omega)] at h
      dsimp only at h
      cases hp : isPresent (read64 (fs.phys s) (entryAt table (levelFin (level + 1) virt))) with
      | false =>
          rw [hp] at h
          obtain ⟨⟨s₁, frame⟩, halloc, h⟩ := Outcome.bind_eq_done h
          dsimp only at h
          unfold allocPtFrame at halloc
          dsimp only at halloc
          by_cases h0 : (fs.alloc s).2 = 0
          · rw [if_pos h0] at halloc
            cases halloc
          · rw [if_neg h0] at halloc
            cases halloc
            rw [hm.setPhys, hm.alloc] at h
            -- one table more, and the rest of the walk from there
            have hgraft : GraftAt o root s (fs.setPhys (fs.setPhys (fs.alloc s).1
                (memset (fs.phys s) (fs.alloc s).2 0 pageSize))
                (write64 (memset (fs.phys s) (fs.alloc s).2 0 pageSize)
                  (entryAt table (levelFin (level + 1) virt))
                  ((fs.alloc s).2 ||| vmmFlagPresent ||| vmmFlagWrite)))
                p (levelFin (level + 1) virt) (fs.alloc s).2 :=
              ⟨by omega, by rw [o.setPhys, o.setPhys]; exact o.alloc s, h0, table, htable, hp, hm.setPhys _ _⟩
            generalize fs.setPhys (fs.setPhys (fs.alloc s).1
              (memset (fs.phys s) (fs.alloc s).2 0 pageSize))
              (write64 (memset (fs.phys s) (fs.alloc s).2 0 pageSize)
                (entryAt table (levelFin (level + 1) virt))
                ((fs.alloc s).2 ||| vmmFlagPresent ||| vmmFlagWrite)) = s₂ at h hgraft
            have hchild : tableAt (fs.phys s₂) root (p ++ [levelFin (level + 1) virt])
                = some (fs.alloc s).2 := by
              rw [hgraft.tableAt_eq hs (by omega), if_pos rfl]
            rcases ih hlen' hnext (hgraft.space hs) hchild h with
              ⟨t, hgrown, ht, hpte⟩ | ⟨_, _, _, ⟨e, he, hpresent⟩, _⟩
            · exact Or.inl ⟨t, .head ⟨p, _, _, hon, hgraft⟩ hgrown, ht, hpte⟩
            · -- the new table is empty, so the walk does not stop in it
              rw [hgraft.entryOn_eq hs (by omega), if_neg (by simp), if_pos rfl] at he
              cases he
              exact absurd hpresent (by decide)
      | true =>
          rw [hp] at h
          cases hstop : stopsAt (level + 1)
            (read64 (fs.phys s) (entryAt table (levelFin (level + 1) virt))) with
          | true =>
              rw [hstop] at h
              cases h
              refine Or.inr ⟨rfl, rfl, ?_, ⟨_, hentry, hp⟩, p, _, _, hon, hentry, hp, ?_⟩
              · rw [hnext]
                refine tableAt_below ?_ _
                rw [tableAt_snoc, hentry, Option.bind_some,
                  show 3 - p.length = level + 1 by omega, hstop]
                simp
              · rw [show 3 - p.length = level + 1 by omega]
                exact hstop
          | false =>
              rw [hstop] at h
              have hchild : tableAt (fs.phys s) root (p ++ [levelFin (level + 1) virt])
                  = some (alignDown (read64 (fs.phys s)
                      (entryAt table (levelFin (level + 1) virt))) pageSize) := by
                rw [tableAt_snoc, hentry, Option.bind_some, hp,
                  show 3 - p.length = level + 1 by omega, hstop]
                rfl
              rcases ih hlen' hnext hs hchild h with hdone | ⟨h1, h2, h3, _, h4⟩
              · exact Or.inl hdone
              · exact Or.inr ⟨h1, h2, h3, ⟨_, hentry, hp⟩, h4⟩

/-- The walk meets an entry for a large page. -/
def UnderLarge (m : Mem) (root virt : Nat) : Prop :=
  ∃ q i e, q ++ [i] <+: route virt 3 ∧ entryOn m root q i = some e ∧ isPresent e = true
    ∧ stopsAt (3 - q.length) e = true

/-- **What `vmm_map_in_pml4` does.** It hangs in the missing tables and writes the page's entry, or
it meets an entry for a large page and writes to address zero. -/
theorem vmmMapInPml4_cases (hm : FlatMemory fs) (hs : Space o s root) {phys flags : Nat}
    (h : vmmMapInPml4 fs s root virt phys flags = .done s') :
    (∃ s₁ t, Grown o root virt s s₁ ∧ tableAt (fs.phys s₁) root (route virt 3) = some t
        ∧ s' = setPte fs s₁ (entryAt t (levelFin 0 virt))
        (alignDown phys pageSize ||| flags ||| vmmFlagPresent))
      ∨ s' = setPte fs s 0 (alignDown phys pageSize ||| flags ||| vmmFlagPresent)
        ∧ tableAt (fs.phys s) root (route virt 3) = none ∧ UnderLarge (fs.phys s) root virt := by
  obtain ⟨⟨s₁, pte⟩, hwalk, h⟩ := Outcome.bind_eq_done h
  cases h
  have hroot : tableAt (fs.phys s) root [] = some root := rfl
  rcases vmmWalk_grown hm 3 rfl rfl hs hroot hwalk with ⟨t, hg, ht, rfl⟩ | ⟨rfl, rfl, hnone, _,
    hlarge⟩
  · exact Or.inl ⟨s₁, t, hg, ht, rfl⟩
  · exact Or.inr ⟨rfl, hnone, hlarge⟩

/-- Address zero is in no table. -/
theorem Space.zero_set (hm : FlatMemory fs) (hs : Space o s root) (v : Nat) :
    Space o (setPte fs s 0 v) root
      ∧ (∀ q, q.length ≤ 3 → tableAt (fs.phys (setPte fs s 0 v)) root q = tableAt
        (fs.phys s) root q)
      ∧ ∀ q j, q.length ≤ 3 → entryOn (fs.phys (setPte fs s 0 v)) root q j
        = entryOn (fs.phys s) root q j := by
  have hpmm : o.pmm (setPte fs s 0 v) = o.pmm s := o.setPhys _ _
  refine hs.outside (hpmm ▸ hs.inv) (fun a ha => hpmm ▸ ha) fun q a k hq ha hk => ?_
  obtain ⟨hal, hne, _⟩ := hs.isFrame hq ha
  rw [show pageSize = 4096 from rfl] at hal
  unfold setPte
  rw [hm.setPhys]
  exact write64_out (by omega)

end Walk

/-! ## A new root -/

/-- A root is made: a fresh frame, with one entry of the current root and no other. -/
structure RootMade (cr3 : Nat) (s s' : σ) (root : Nat) : Prop where
  inv : PmmInv (o.pmm s')
  mono : ∀ a, FrameTaken (o.pmm s) a → FrameTaken (o.pmm s') a
  taken : FrameTaken (o.pmm s') root
  fresh : ¬ FrameTaken (o.pmm s) root
  entry : ∀ i : Fin 512, read64 (fs.phys s') (entryAt root i)
    = if i = 511 then read64 (fs.phys s) (entryAt cr3 511) else 0
  rest : ∀ x, ¬ (root ≤ x ∧ x < root + pageSize) → fs.phys s' x = fs.phys s x

section Root

variable {o} {s s' : σ} {cr3 root : Nat}

theorem uspaceCreatePml4_made (hm : FlatMemory fs) (hk : Space o s cr3)
    (h : uspaceCreatePml4 fs s cr3 = (s', root)) (hne : root ≠ 0) : RootMade o cr3 s s' root := by
  have halloc := o.alloc s
  obtain ⟨⟨s₁, frame⟩, hs₁⟩ : ∃ x, fs.alloc s = x := ⟨_, rfl⟩
  have hphys : fs.phys s₁ = fs.phys s := by rw [← hm.alloc s, hs₁]
  unfold uspaceCreatePml4 at h
  rw [hs₁] at h halloc
  dsimp only at h halloc
  by_cases h0 : frame = 0
  · rw [if_pos h0] at h
    cases h
    exact absurd rfl hne
  · rw [if_neg h0, hm.setPhys, hphys] at h
    obtain ⟨rfl, rfl⟩ := Prod.mk.inj h
    obtain ⟨hinv, hmono, htaken⟩ := frameTaken_alloc hk.inv halloc
    have hpmm : ∀ m m', o.pmm (fs.setPhys (fs.setPhys s₁ m) m') = o.pmm s₁ := fun m m' => by
      rw [o.setPhys, o.setPhys]
    have hframe : IsFrame frame := (htaken h0).1.isFrame hinv
    have hcr3 : IsFrame cr3 := hk.isFrame (p := []) (Nat.zero_le 3) rfl
    have hother : frame ≠ cr3 := fun he => (htaken h0).2 (he ▸ hk.taken [] cr3 (Nat.zero_le 3) rfl)
    have hlast : read64 (memset (fs.phys s) frame 0 pageSize) (entryAt cr3 511)
        = read64 (fs.phys s) (entryAt cr3 511) := entryAt_memset hframe hcr3 (by decide) hother
    refine ⟨hpmm _ _ ▸ hinv, fun a ha => hpmm _ _ ▸ hmono a ha, hpmm _ _ ▸ (htaken h0).1,
      (htaken h0).2,
      fun i => ?_, fun x hx => ?_⟩
    · rw [hm.setPhys, hlast]
      by_cases hi : i = 511
      · rw [if_pos hi, hi]
        exact read64_write64_same (read64_lt _ _)
      · have hne : (i : Nat) ≠ 511 := fun hc => hi (Fin.ext hc)
        rw [if_neg hi, read64_write64_disj
          (entryAt_apart hframe hframe i.isLt (by decide) fun hc => hne hc.2)]
        exact entryAt_cleared hframe i.isLt
    · have hslot := entryAt_eq hframe (i := 511) (by decide)
      rw [show pageSize = 4096 from rfl] at hx
      rw [hm.setPhys, write64_out (by omega),
        memset_out (by rw [show pageSize = 4096 from rfl]; omega)]

namespace RootMade

variable (h : RootMade o cr3 s s' root) (hk : Space o s cr3)
include h hk

/-- The current address space is what it was. -/
theorem current : Space o s' cr3
    ∧ (∀ q, q.length ≤ 3 → tableAt (fs.phys s') cr3 q = tableAt (fs.phys s) cr3 q)
    ∧ ∀ q j, q.length ≤ 3 → entryOn (fs.phys s') cr3 q j = entryOn (fs.phys s) cr3 q j := by
  refine hk.outside h.inv h.mono fun q a k hq ha hk' => h.rest _ fun hc => ?_
  have h1 := (hk.isFrame hq ha).1
  have h2 := (h.taken.isFrame h.inv).1
  rw [show pageSize = 4096 from rfl] at *
  have hne : root ≠ a := fun he => h.fresh (he ▸ hk.taken q a hq ha)
  omega

/-- Below the entry that they share the new root and the current one are the same. -/
theorem tableAt_shared : ∀ q : List (Fin 512), q.length ≤ 2 →
    tableAt (fs.phys s') root (511 :: q) = tableAt (fs.phys s) cr3 (511 :: q) := by
  intro q
  induction q using List.reverseRecOn with
  | nil =>
      intro _
      change tableAt (fs.phys s') root ([] ++ [511]) = tableAt (fs.phys s) cr3 ([] ++ [511])
      have hroot : entryOn (fs.phys s') root [] 511 = entryOn (fs.phys s) cr3 [] 511 := by
        change some (read64 (fs.phys s') (entryAt root (511 : Fin 512))) = some _
        rw [h.entry 511]
        rfl
      rw [tableAt_snoc, tableAt_snoc, hroot]
  | append_singleton q i ih =>
      intro hlen
      rw [List.length_append, List.length_singleton] at hlen
      have hentry := (h.current hk).2.2 (511 :: q) i (by rw [List.length_cons]; omega)
      have htable := (h.current hk).2.1 (511 :: q) (by rw [List.length_cons]; omega)
      have hsame : entryOn (fs.phys s') root (511 :: q) i
          = entryOn (fs.phys s) cr3 (511 :: q) i := by
        rw [← hentry]
        unfold entryOn
        rw [ih (by omega), htable]
      rw [← List.cons_append, tableAt_snoc, tableAt_snoc, hsame]

omit hk in
/-- Elsewhere the new root is empty. -/
theorem tableAt_rest {i : Fin 512} (hi : i ≠ 511) (q : List (Fin 512)) :
    tableAt (fs.phys s') root (i :: q) = none := by
  have hentry := h.entry i
  rw [if_neg hi] at hentry
  unfold tableAt
  rw [follow, tableChild_absent (by rw [hentry, isPresent_zero])]
  rfl

/-- **The new address space is in shape.** -/
theorem space : Space o s' root := by
  have htaken : ∀ p a, p.length ≤ 3 → tableAt (fs.phys s') root p = some a →
      p = [] ∧ a = root ∨ ∃ q, p = 511 :: q ∧ tableAt (fs.phys s) cr3 p = some a := by
    intro p a hp ha
    cases p with
    | nil => exact Or.inl ⟨rfl, (Option.some.inj ha).symm⟩
    | cons i q =>
        rw [List.length_cons] at hp
        by_cases hi : i = 511
        · subst hi
          rw [h.tableAt_shared hk q (by omega)] at ha
          exact Or.inr ⟨q, rfl, ha⟩
        · rw [h.tableAt_rest hi] at ha
          cases ha
  refine ⟨h.inv, fun p q a hp hq hpa hqa => ?_, fun p a hp ha => ?_⟩
  · rcases htaken p a hp hpa with ⟨rfl, ha⟩ | ⟨p', _, hp'⟩
    · rcases htaken q a hq hqa with ⟨rfl, _⟩ | ⟨q', _, hq'⟩
      · rfl
      · exact absurd (ha ▸ hk.taken q a hq hq') h.fresh
    · rcases htaken q a hq hqa with ⟨rfl, ha⟩ | ⟨q', _, hq'⟩
      · exact absurd (ha ▸ hk.taken p a hp hp') h.fresh
      · exact hk.tree p q a hp hq hp' hq'
  · rcases htaken p a hp ha with ⟨_, rfl⟩ | ⟨_, _, hp'⟩
    · exact h.taken
    · exact h.mono a (hk.taken p a hp hp')

end RootMade

end Root

end VnlKernel
