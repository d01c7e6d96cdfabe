import Mathlib.Data.List.Nodup

/-!
# Maps that remember the order of insertion

A finite map as the list of its entries, oldest first, with no key twice. Adding puts an
entry at the end, changing leaves it where it is, and taking one out closes the gap.
What an operation on one key leaves alone is what is left once the key is taken out.
-/

structure OrderedMap (κ ν : Type) where
  entries : List (κ × ν)
  nodup : (entries.map Prod.fst).Nodup

namespace OrderedMap

variable {κ ν : Type}

def keys (m : OrderedMap κ ν) : List κ := m.entries.map Prod.fst

def size (m : OrderedMap κ ν) : Nat := m.entries.length

theorem ext' {m m' : OrderedMap κ ν} (h : m.entries = m'.entries) : m = m' := by
  obtain ⟨entries, _⟩ := m
  obtain ⟨entries', _⟩ := m'
  cases h
  rfl

variable [DecidableEq κ]

def get? (m : OrderedMap κ ν) (k : κ) : Option ν := (m.entries.find? (·.1 = k)).map Prod.snd

/-- A new key, at the end. -/
def add (m : OrderedMap κ ν) (k : κ) (v : ν) (h : k ∉ m.keys) : OrderedMap κ ν where
  entries := m.entries ++ [(k, v)]
  nodup := by
    rw [List.map_append]
    refine List.nodup_append.mpr ⟨m.nodup, List.nodup_singleton _, ?_⟩
    intro a ha b hb hab
    rw [List.map_singleton, List.mem_singleton] at hb
    rw [hab, hb] at ha
    exact h ha

/-- Another value for a key that is there. -/
def put (m : OrderedMap κ ν) (k : κ) (v : ν) : OrderedMap κ ν where
  entries := m.entries.map fun e => if e.1 = k then (k, v) else e
  nodup := by
    have hkeys : (m.entries.map fun e => if e.1 = k then (k, v) else e).map Prod.fst = m.entries.map Prod.fst := by
      rw [List.map_map]
      refine List.map_congr_left fun e _ => ?_
      by_cases he : e.1 = k
      · rw [Function.comp, if_pos he, he]
      · rw [Function.comp, if_neg he]
    rw [hkeys]
    exact m.nodup

def erase (m : OrderedMap κ ν) (k : κ) : OrderedMap κ ν where
  entries := m.entries.filter (·.1 ≠ k)
  nodup := m.nodup.sublist ((List.filter_sublist).map Prod.fst)

variable {m : OrderedMap κ ν} {k : κ} {v : ν}

theorem get?_add (h : k ∉ m.keys) : (m.add k v h).get? k = some v := by
  have hnone : m.entries.find? (·.1 = k) = none := by
    rw [List.find?_eq_none]
    intro e he hk
    exact h (List.mem_map.mpr ⟨e, he, of_decide_eq_true hk⟩)
  rw [get?, add, List.find?_append, hnone, Option.none_or, List.find?_cons_of_pos (by simp)]
  rfl

theorem erase_add (h : k ∉ m.keys) : (m.add k v h).erase k = m.erase k := by
  refine ext' ?_
  change (m.entries ++ [(k, v)]).filter (·.1 ≠ k) = m.entries.filter (·.1 ≠ k)
  rw [List.filter_append, List.filter_cons_of_neg (by simp), List.filter_nil, List.append_nil]

theorem get?_put (h : k ∈ m.keys) : (m.put k v).get? k = some v := by
  obtain ⟨e, he, hk⟩ := List.mem_map.mp h
  have hsome : ((m.put k v).entries.find? (·.1 = k)).isSome := by
    rw [List.find?_isSome]
    exact ⟨(k, v), List.mem_map.mpr ⟨e, he, if_pos hk⟩, by simp⟩
  obtain ⟨x, hx⟩ := Option.isSome_iff_exists.mp hsome
  have hxk : x.1 = k := by simpa using List.find?_some hx
  obtain ⟨y, _, hy⟩ := List.mem_map.mp (List.mem_of_find?_eq_some hx)
  have hv : x = (k, v) := by
    by_cases hyk : y.1 = k
    · rw [← hy, if_pos hyk]
    · rw [if_neg hyk] at hy
      rw [hy] at hyk
      exact absurd hxk hyk
  rw [get?, hx, hv]
  rfl

theorem keys_put : (m.put k v).keys = m.keys := by
  change (m.entries.map fun e => if e.1 = k then (k, v) else e).map Prod.fst
    = m.entries.map Prod.fst
  rw [List.map_map]
  refine List.map_congr_left fun e _ => ?_
  by_cases he : e.1 = k
  · rw [Function.comp, if_pos he, he]
  · rw [Function.comp, if_neg he]

theorem erase_put : (m.put k v).erase k = m.erase k := by
  refine ext' ?_
  change (m.entries.map fun e => if e.1 = k then (k, v) else e).filter (·.1 ≠ k)
    = m.entries.filter (·.1 ≠ k)
  induction m.entries with
  | nil => rfl
  | cons e es ih =>
      rw [List.map_cons]
      by_cases he : e.1 = k
      · rw [if_pos he, List.filter_cons_of_neg (by simp), List.filter_cons_of_neg (by simp [he]),
          ih]
      · rw [if_neg he, List.filter_cons_of_pos (by simp [he]),
          List.filter_cons_of_pos (by simp [he]), ih]

theorem get?_erase : (m.erase k).get? k = none := by
  have hnone : (m.erase k).entries.find? (·.1 = k) = none := by
    rw [List.find?_eq_none]
    intro e he hk
    have hne := (List.mem_filter.mp he).2
    exact absurd (of_decide_eq_true hk) (of_decide_eq_true hne)
  rw [get?, hnone]
  rfl

theorem erase_erase : (m.erase k).erase k = m.erase k := by
  refine ext' ?_
  change (m.entries.filter (·.1 ≠ k)).filter (·.1 ≠ k) = m.entries.filter (·.1 ≠ k)
  rw [List.filter_filter]
  refine List.filter_congr fun e _ => ?_
  rw [Bool.and_self]

/-- A list of entries without the one at some place is the list without its key. -/
theorem eraseIdx_entries {l : List (κ × ν)} (h : (l.map Prod.fst).Nodup) {i : Nat}
    (hi : i < l.length) :
    l.eraseIdx i = l.filter (·.1 ≠ (l[i]).1) := by
  induction l generalizing i with
  | nil => exact absurd hi (Nat.not_lt_zero _)
  | cons e es ih =>
      rw [List.map_cons, List.nodup_cons] at h
      cases i with
      | zero =>
          rw [List.eraseIdx_cons_zero, List.getElem_cons_zero, List.filter_cons_of_neg (by simp)]
          symm
          rw [List.filter_eq_self]
          intro x hx
          refine decide_eq_true ?_
          intro hxe
          exact h.1 (hxe ▸ List.mem_map_of_mem hx)
      | succ i =>
          have hi' : i < es.length := Nat.lt_of_succ_lt_succ hi
          have hne : e.1 ≠ (es[i]).1 := by
            intro he
            exact h.1 (he ▸ List.mem_map_of_mem (List.getElem_mem hi'))
          rw [List.eraseIdx_cons_succ, List.getElem_cons_succ,
            List.filter_cons_of_pos (by simpa using hne),
            ih h.2 hi']

end OrderedMap
