import VnlKernel.Proof.VfsNames

/-!
# Walking along a path

`vfs_resolve` reads a path byte by byte. Where the components are short and separated by
single slashes, it does what one would expect: it takes one step for each component, from
the root or from the working directory.

Creating a node reads the path differently: it cuts it at the last slash. What is created
is found again where the two readings cut alike. After two slashes there is an empty
component for one and none for the other, a leaf that is too long is cut for one and goes
on in the next component for the other, and a directory part that is too long is cut for
one only.
-/

namespace VnlKernel

open Bits

variable {σ : Type}

/-! ## The walk, component by component -/

/-- Where a component leads: `.` stays, `..` goes to the parent, a name to the first used slot with
that parent and name. -/
def moveTo (v : Vfs σ) (cur : Nat) (component : CStr) : Option Nat :=
  if component = dot then some cur
  else if component = dotdot then some (parentOf v cur)
  else (findChild v cur component).map fun i => (v.nodes i).inode

/-- An inode number as it is returned, or that there is none. -/
def inodeOr : Option Nat → Int
  | some inode => inode
  | none => -1

/-- The path that consists of these components. -/
def pathText (absolute : Bool) (comps : List CStr) (trailing : Bool) : CStr :=
  (if absolute then [slash] else []) ++ (List.intercalate [slash] comps ++ if trailing then [slash] else [])

/-- A component that `vfs_resolve` takes in one piece. -/
structure Component (c : CStr) : Prop where
  ne_nil : c ≠ []
  short : c.length ≤ 63
  noSlash : slash ∉ c

/-- The loop of `vfs_resolve`, with running out of fuel told apart from not finding anything. -/
def resolveTurns (v : Vfs σ) : Nat → Nat → CStr → Outcome (Option Nat)
  | _, cur, [] => .done (some cur)
  | 0, _, _ :: _ => .timeout
  | fuel + 1, cur, c :: path =>
      match advance v cur (takeComponent (vfsNameMax - 1) (c :: path)).1 with
      | some next => resolveTurns v fuel next (afterComponent (c :: path))
      | none => .done none

section Components

variable {v : Vfs σ} {c : CStr} {comps : List CStr}

theorem advance_moveTo (v : Vfs σ) (cur : Nat) (c : CStr) : advance v cur c = moveTo v cur c := by
  unfold advance moveTo parentOf
  split
  · rfl
  · split
    · cases nodeGet v cur with
      | none => rfl
      | some i => rfl
    · rfl

/-- **Every turn of the loop consumes something**, so a turn for each byte is enough. -/
theorem resolveTurns_ends (v : Vfs σ) : ∀ (fuel cur : Nat) (path : CStr), path.length ≤ fuel →
    resolveTurns v fuel cur path = .done (walk v cur path)
  | fuel, cur, [], _ => by
      rw [walk, resolveLoop_nil]
      cases fuel with
      | zero => rfl
      | succ fuel => rfl
  | fuel + 1, cur, c :: path, hf => by
      have hlen := afterComponent_length c path
      rw [List.length_cons] at hf
      rw [resolveTurns, walk_cons]
      cases advance v cur (takeComponent (vfsNameMax - 1) (c :: path)).1 with
      | none => rfl
      | some next => exact resolveTurns_ends v fuel next _ (by omega)

theorem Component.walk_eq (h : Component c) (cur : Nat) : walk v cur c = moveTo v cur c := by
  rw [walk_leaf v cur h.ne_nil h.noSlash h.short, advance_moveTo]

theorem Component.walk_slash (h : Component c) (cur : Nat) (rest : CStr) :
    walk v cur (c ++ slash :: rest) = (moveTo v cur c).bind fun next => walk v next rest := by
  have hlast : c.getLast? ≠ some slash := fun hl => h.noSlash (List.mem_of_getLast? hl)
  rw [walk_through v rest _ c cur (Nat.le_refl _) h.ne_nil hlast, h.walk_eq]

/-- The walk along the components, behind the leading slash. -/
theorem walk_components (trailing : Bool) : ∀ (comps : List CStr) (cur : Nat),
    (∀ c ∈ comps, Component c) → (trailing = true → comps ≠ []) →
    walk v cur (List.intercalate [slash] comps ++ if trailing then [slash] else [])
      = comps.foldlM (moveTo v) cur
  | [], cur, _, ht => by
      have hfalse : trailing = false := by simpa using ht
      rw [hfalse]
      exact resolveLoop_nil v 0 cur
  | [c], cur, hc, _ => by
      have h := hc c (List.mem_singleton_self c)
      have hone : List.intercalate [slash] [c] = c := by simp [List.intercalate]
      rw [hone, List.foldlM_cons]
      cases trailing with
      | false =>
          rw [if_neg (by simp), List.append_nil, h.walk_eq]
          cases moveTo v cur c with
          | none => rfl
          | some next => rfl
      | true =>
          rw [if_pos rfl, h.walk_slash]
          cases moveTo v cur c with
          | none => rfl
          | some next => exact resolveLoop_nil v 0 next
  | c :: d :: ds, cur, hc, _ => by
      have h := hc c List.mem_cons_self
      have hmore : List.intercalate [slash] (c :: d :: ds) = c ++ slash :: List.intercalate [slash]
          (d :: ds) := by
        simp [List.intercalate]
      rw [hmore, List.append_assoc, List.cons_append, h.walk_slash, List.foldlM_cons]
      cases moveTo v cur c with
      | none => rfl
      | some next =>
          exact walk_components trailing (d :: ds) next
            (fun x hx => hc x (List.mem_cons_of_mem _ hx))
            fun _ => List.cons_ne_nil _ _

/-- A step along a component comes to a number that is positive as an `int`. -/
theorem moveTo_lt (h : TreeInv v) (hnum : ∀ i, (v.nodes i).used = true → (v.nodes i).inode < 2 ^ 31)
    {cur next : Nat} (hcur : cur < 2 ^ 31) (hm : moveTo v cur c = some next) : next < 2 ^ 31 := by
  unfold moveTo at hm
  split at hm
  · cases hm
    exact hcur
  · split at hm
    · cases hm
      unfold parentOf
      cases hg : nodeGet v cur with
      | none => exact hcur
      | some i =>
          obtain ⟨_, hu, _⟩ := nodeGet_some hg
          by_cases hi : i = 0
          · rw [hi]
            show (v.nodes 0).parent < 2 ^ 31
            rw [h.root.2.2.2]
            decide
          · obtain ⟨p, hp, _, hpi, _⟩ := h.attached i hu hi
            show (v.nodes i).parent < 2 ^ 31
            rw [← hpi]
            exact hnum p hp
    · obtain ⟨i, hf, rfl⟩ := Option.map_eq_some_iff.mp hm
      exact hnum i (findChild_some hf).2.1

theorem components_lt (h : TreeInv v) (hnum : ∀ i,
    (v.nodes i).used = true → (v.nodes i).inode < 2 ^ 31) :
    ∀ (comps : List CStr) (cur next : Nat), cur < 2 ^ 31 → comps.foldlM (moveTo v) cur = some next
      → next < 2 ^ 31
  | [], _, _, hcur, hm => by
      cases hm
      exact hcur
  | c :: comps, cur, next, hcur, hm => by
      rw [List.foldlM_cons] at hm
      obtain ⟨mid, hmid, hm⟩ := Option.bind_eq_some_iff.mp hm
      exact components_lt h hnum comps mid next (moveTo_lt h hnum hcur hmid) hm

end Components

/-- **`vfs_resolve` is the walk along the components of its path**, and it comes to an end on every
path. -/
theorem vfsResolve_components {v : Vfs σ} (h : TreeInv v)
    (hnum : ∀ i, (v.nodes i).used = true → (v.nodes i).inode < 2 ^ 31) (hcwd : v.cwd < 2 ^ 31) :
    (∀ (absolute trailing : Bool) (comps : List CStr), (∀ c ∈ comps, Component c) →
      (trailing = true → comps ≠ []) →
      vfsResolve v (pathText absolute comps trailing)
        = inodeOr (comps.foldlM (moveTo v) (if absolute then vfsInodeRoot else v.cwd)))
      ∧ ∀ (path : CStr) (cur fuel : Nat), path.length ≤ fuel →
        resolveTurns v fuel cur path = .done (resolveLoop v path.length cur path) := by
  refine ⟨?_, fun path cur fuel hf => resolveTurns_ends v fuel cur path hf⟩
  intro absolute trailing comps hcomps ht
  have hstart : (if absolute then vfsInodeRoot else v.cwd) < 2 ^ 31 := by
    cases absolute with
    | false => exact hcwd
    | true => exact (by decide : vfsInodeRoot < 2 ^ 31)
  have hlt := fun inode => components_lt h hnum comps _ inode hstart
  have hwalk := walk_components (v := v) trailing comps
    (if absolute then vfsInodeRoot else v.cwd) hcomps ht
  -- what is resolved is what is left behind the leading slash
  have hres : vfsResolve v (pathText absolute comps trailing)
      = ((comps.foldlM (moveTo v) (if absolute then vfsInodeRoot else v.cwd)).map toInt32).getD
          (-1) := by
    rw [← hwalk]
    unfold pathText
    cases absolute with
    | true =>
        rw [if_pos rfl, List.singleton_append, vfsResolve_walk, skipSlash, if_pos rfl]
        rfl
    | false =>
        rw [if_neg (by simp), List.nil_append]
        cases comps with
        | nil =>
            have hfalse : trailing = false := by simpa using ht
            rw [hfalse]
            rfl
        | cons c cs =>
            have hc := hcomps c List.mem_cons_self
            obtain ⟨b, bs, rfl⟩ := List.exists_cons_of_ne_nil hc.ne_nil
            have hb : b ≠ slash := fun hb => hc.noSlash (hb ▸ List.mem_cons_self)
            have hhead : ∃ rest, List.intercalate [slash]
              ((b :: bs) :: cs) ++ (if trailing then [slash] else [])
                = b :: rest := by
              cases cs with
              | nil => exact ⟨_, by simp [List.intercalate]; rfl⟩
              | cons d ds => exact ⟨_, by simp [List.intercalate]; rfl⟩
            obtain ⟨rest, hrest⟩ := hhead
            rw [hrest, vfsResolve_walk, skipSlash, if_neg hb,
              show startOf v b = v.cwd from if_neg hb]
            rfl
  rw [hres]
  cases hf : comps.foldlM (moveTo v) (if absolute then vfsInodeRoot else v.cwd) with
  | none => rfl
  | some inode => exact toInt32_of_lt (hlt inode hf)

/-- Down, up and down again, with a slash at the end. -/
theorem vfsResolve_components_boot :
    vfsResolve bootVfs (pathText true [cstr "usr", dotdot, cstr "tmp"] true)
        = inodeOr ([cstr "usr", dotdot, cstr "tmp"].foldlM (moveTo bootVfs) vfsInodeRoot)
      ∧ resolveTurns bootVfs 9 0 (cstr "usr//tmp") = .done (resolveLoop bootVfs 8 0 (cstr "usr//tmp")) := by
  obtain ⟨hT, hnum⟩ := treeOk_start bootVfs_starts
  have hlt : ∀ i, (bootVfs.nodes i).used = true → (bootVfs.nodes i).inode < 2 ^ 31 := fun i hu =>
    Nat.lt_of_lt_of_le (hT.below i hu) hnum
  have hcomps : ∀ c ∈ [cstr "usr", dotdot, cstr "tmp"], Component c := by
    intro c hc
    simp only [List.mem_cons, List.not_mem_nil, or_false] at hc
    rcases hc with rfl | rfl | rfl
    · exact ⟨by decide, by decide, by decide⟩
    · exact ⟨by decide, by decide, by decide⟩
    · exact ⟨by decide, by decide, by decide⟩
  obtain ⟨hwalk, hends⟩ := vfsResolve_components hT hlt (by decide +kernel)
  exact ⟨hwalk true true _ hcomps fun _ => List.cons_ne_nil _ _, hends _ 0 9 (Nat.le_succ 8)⟩

/-! ## Where the two readings cut alike -/

/-- What stands before the last slash. -/
def dirOf (path : CStr) : CStr :=
  match lastSlash path with
  | none => []
  | some k => if k = 0 then [slash] else path.take k

/-- What stands behind it. -/
def leafOf (path : CStr) : CStr :=
  match lastSlash path with
  | none => path
  | some k => path.drop (k + 1)

/-- Does another slash stand before the last? -/
def doubleSlash (path : CStr) : Bool :=
  match lastSlash path with
  | none => false
  | some k => (path.take k).getLast? = some slash

/-- A leaf that is one component, or a name of full length and a `.` behind it. -/
def LeafFits (leaf : CStr) : Prop :=
  leaf ≠ [] ∧ (leaf.length ≤ 63 ∨ leaf.length = 64 ∧ leaf.getLast? = some 0x2E)

instance (leaf : CStr) : Decidable (LeafFits leaf) := inferInstanceAs (Decidable (_ ∧ _))

/-- One slash at the end says nothing: lookup passes over it. -/
def trimmed (path : CStr) : CStr :=
  if path.getLast? = some slash ∧ doubleSlash path = false ∧ path ≠ [slash] then path.dropLast else path

/-- The directory that the path names without its last component. -/
def dirPart (path : CStr) : CStr := dirOf (trimmed path)

/-- What lookup reads below the directory part. -/
def tailOf (path : CStr) : CStr := if doubleSlash path then slash :: leafOf path else leafOf path

/-- The name of its first step there. -/
def stepOf (path : CStr) : CStr := if doubleSlash path then [] else (leafOf path).take 63

/-- The name that a node created from the path gets. -/
def nameOf (path : CStr) : CStr := (leafOf path).take 63

/-- There is no second step, but for one that stays. -/
def TailFits (path : CStr) : Prop :=
  (doubleSlash path = false ∧ LeafFits (leafOf path))
    ∨ (doubleSlash path = true ∧ (leafOf path = [] ∨ leafOf path = dot))

instance (path : CStr) : Decidable (TailFits path) := inferInstanceAs (Decidable (_ ∨ _))

/-- **Lookup and creation cut the path alike.** Below the directory part lookup takes one step. If
the path is there, that step goes down; and if it is not, creation comes to the same directory and
to the same name. -/
structure Vfs.CutsAlike (v : Vfs σ) (path : CStr) : Prop where
  tail : TailFits (trimmed path)
  down : 0 ≤ vfsResolve v path → doubleSlash (trimmed path) = false → leafOf (trimmed path) ≠ dot
  new : vfsResolve v path < 0 →
    (resolveParent v path).1 = vfsResolve v (dirPart path) ∧ nameOf path = stepOf (trimmed path)

/-- The inode number that a walk from the root or from the working directory returns. -/
def reached (v : Vfs σ) (absolute : Bool) (path : CStr) : Option Nat :=
  walk v (if absolute then vfsInodeRoot else v.cwd) path

section Cuts

variable {v v' : Vfs σ} {path : CStr}

/-- A walk goes on behind a slash. -/
theorem walk_behind_slash (v : Vfs σ) (tail : CStr) : ∀ (n : Nat) (d : CStr) (cur : Nat),
    d.length ≤ n →
    (d = [] ∨ d.getLast? = some slash) →
    walk v cur (d ++ tail) = (walk v cur d).bind fun next => walk v next tail
  | _, [], cur, _, _ => by
      rw [List.nil_append, show walk v cur [] = some cur from resolveLoop_nil v 0 cur]
      rfl
  | n + 1, c :: d, cur, hn, hlast => by
      have hlast : (c :: d).getLast? = some slash := by simpa using hlast
      rw [List.length_cons] at hn
      -- the first component ends inside the text before the last slash
      obtain ⟨e, he⟩ : ∃ e, c :: d = e ++ [slash] := by
        refine ⟨(c :: d).dropLast, ?_⟩
        have hne : c :: d ≠ [] := List.cons_ne_nil _ _
        rw [List.getLast?_eq_some_getLast hne] at hlast
        have := List.dropLast_append_getLast hne
        rw [Option.some.inj hlast] at this
        exact this.symm
      have hcut : takeComponent (vfsNameMax - 1) (c :: d ++ tail)
          = ((takeComponent (vfsNameMax - 1) (c :: d)).1,
              (takeComponent (vfsNameMax - 1) (c :: d)).2 ++ tail) := by
        rw [he, List.append_assoc, List.singleton_append, takeComponent_before_slash,
          takeComponent_before_slash]
        simp
      have hlen := afterComponent_length c d
      have hparts := takeComponent_append_eq (vfsNameMax - 1) (c :: d)
      have hrest : (takeComponent (vfsNameMax - 1) (c :: d)).2 ≠ []
          ∧ (takeComponent (vfsNameMax - 1) (c :: d)).2.getLast? = some slash := by
        rw [he, takeComponent_before_slash]
        simp
      rw [List.cons_append, walk_cons, walk_cons, ← List.cons_append, hcut]
      unfold afterComponent at hlen ⊢
      rw [hcut]
      generalize takeComponent (vfsNameMax - 1) (c :: d) = cut at hparts hlen hrest ⊢
      obtain ⟨component, rest⟩ := cut
      dsimp only at hparts hlen hrest ⊢
      rw [Option.bind_assoc]
      congr 1
      funext next
      obtain ⟨r, rest, rfl⟩ := List.exists_cons_of_ne_nil hrest.1
      have hskip : skipSlash (r :: rest ++ tail) = skipSlash (r :: rest) ++ tail := by
        rw [List.cons_append, skipSlash, skipSlash]
        split
        · rfl
        · rfl
      rw [hskip]
      refine walk_behind_slash v tail n _ next (by omega) ?_
      rw [skipSlash]
      split
      · cases rest with
        | nil => exact Or.inl rfl
        | cons r' rest => exact Or.inr (by rw [← hrest.2, List.getLast?_cons_cons])
      · exact Or.inr hrest.2

/-- What is left of a text behind its first slash, of a text that does not end in one. -/
theorem skipSlash_open {d : CStr} (hne : d ≠ []) (hlast : d.getLast? ≠ some slash) :
    skipSlash d ≠ [] ∧ (skipSlash d).getLast? ≠ some slash := by
  obtain ⟨c, d, rfl⟩ := List.exists_cons_of_ne_nil hne
  rw [skipSlash]
  split
  · next hc =>
    cases d with
    | nil => exact absurd (by rw [hc]; rfl) hlast
    | cons r d => exact ⟨List.cons_ne_nil _ _, by rwa [List.getLast?_cons_cons] at hlast⟩
  · exact ⟨hne, hlast⟩

/-- And of a text that ends in one. -/
theorem skipSlash_closed {d : CStr} (hlast : d.getLast? = some slash) :
    skipSlash d = [] ∨ (skipSlash d).getLast? = some slash := by
  cases d with
  | nil => exact Or.inl rfl
  | cons c d =>
      rw [skipSlash]
      split
      · cases d with
        | nil => exact Or.inl rfl
        | cons r d => exact Or.inr (by rwa [List.getLast?_cons_cons] at hlast)
      · exact Or.inr hlast

theorem skipSlash_append {d tail : CStr} (hne : d ≠ []) :
    skipSlash (d ++ tail) = skipSlash d ++ tail := by
  obtain ⟨c, d, rfl⟩ := List.exists_cons_of_ne_nil hne
  rw [List.cons_append, skipSlash, skipSlash]
  split
  · rfl
  · rfl

/-- A directory part that is not empty, and what stands behind its slash. -/
theorem resolve_behind {d : CStr} (leaf : CStr) (hne : d ≠ []) :
    ∃ (absolute : Bool) (s : CStr), ∀ v : Vfs σ,
      vfsResolve v d = ((reached v absolute s).map toInt32).getD (-1)
      ∧ vfsResolve v (d ++ slash :: leaf)
        = (((reached v absolute s).bind fun next =>
            walk v next (if d.getLast? = some slash then slash :: leaf else leaf)).map toInt32).getD
              (-1) := by
  obtain ⟨c, d', hcd⟩ := List.exists_cons_of_ne_nil hne
  have hstart : ∀ v : Vfs σ, (if decide (c = slash) = true then vfsInodeRoot else v.cwd)
      = startOf v c := by
    intro v
    unfold startOf
    by_cases hc : c = slash
    · simp [hc]
    · simp [hc]
  refine ⟨decide (c = slash), skipSlash d, fun v => ⟨?_, ?_⟩⟩
  · unfold reached
    rw [hstart, hcd, vfsResolve_walk]
  · unfold reached
    rw [hstart]
    have hres : vfsResolve v (d ++ slash :: leaf)
        = ((walk v (startOf v c) (skipSlash d ++ slash :: leaf)).map toInt32).getD (-1) := by
      rw [← skipSlash_append hne, hcd, List.cons_append, vfsResolve_walk]
    rw [hres]
    by_cases hlast : d.getLast? = some slash
    · rw [if_pos hlast, walk_behind_slash v (slash :: leaf) _ _ _ (Nat.le_refl _)
        (skipSlash_closed hlast)]
    · obtain ⟨hne', hopen⟩ := skipSlash_open hne hlast
      rw [if_neg hlast, walk_through v leaf _ _ _ (Nat.le_refl _) hne' hopen]

/-- **A path is resolved by way of its directory part.** -/
theorem resolve_cut (path : CStr) :
    ∃ (absolute : Bool) (s : CStr), ∀ v : Vfs σ,
      vfsResolve v (dirOf path) = ((reached v absolute s).map toInt32).getD (-1)
      ∧ vfsResolve v path
        = (((reached v absolute s).bind fun next => walk v next (tailOf path)).map toInt32).getD
          (-1) := by
  unfold tailOf doubleSlash leafOf dirOf
  cases hl : lastSlash path with
  | none =>
      refine ⟨false, [], fun v => ⟨rfl, ?_⟩⟩
      have hstay : reached v false [] = some v.cwd := resolveLoop_nil v 0 _
      rw [if_neg (by simp), hstay, Option.bind_some]
      cases path with
      | nil => rfl
      | cons c path =>
          have hc : c ≠ slash := fun hc => lastSlash_none hl (hc ▸ List.mem_cons_self)
          rw [vfsResolve_walk, skipSlash, if_neg hc, show startOf v c = v.cwd from if_neg hc]
  | some k =>
      obtain ⟨hpath, _⟩ := lastSlash_some hl
      simp only [decide_eq_true_eq]
      by_cases hk : k = 0
      · subst hk
        rw [if_pos rfl, if_neg (by simp)]
        refine ⟨true, [], fun v => ⟨rfl, ?_⟩⟩
        have hstay : reached v true [] = some vfsInodeRoot := resolveLoop_nil v 0 _
        rw [hstay, Option.bind_some]
        conv_lhs => rw [hpath]
        rw [List.take_zero, List.nil_append, vfsResolve_walk, skipSlash, if_pos rfl]
        rfl
      · rw [if_neg hk]
        have hne : path.take k ≠ [] := by
          intro h0
          rcases List.take_eq_nil_iff.mp h0 with h0 | h0
          · exact hk h0
          · rw [h0] at hpath
            exact absurd hpath (by simp)
        have hcut := resolve_behind (σ := σ) (path.drop (k + 1)) hne
        rwa [← hpath] at hcut

theorem lastSlash_append : ∀ (d : CStr), lastSlash (d ++ [slash]) = some d.length
  | [] => rfl
  | c :: d => by
      rw [List.cons_append, lastSlash, lastSlash_append d]
      rfl

/-- **The slash at the end makes no difference to lookup.** -/
theorem resolve_trimmed (v : Vfs σ) (path : CStr) :
    vfsResolve v (trimmed path) = vfsResolve v path := by
  unfold trimmed
  split
  · next h =>
    obtain ⟨hlast, hdouble, hne⟩ := h
    obtain ⟨d, rfl⟩ : ∃ d, path = d ++ [slash] := by
      have hnil : path ≠ [] := by
        rintro rfl
        cases hlast
      rw [List.getLast?_eq_some_getLast hnil, Option.some.injEq] at hlast
      exact ⟨path.dropLast, by rw [← hlast]; exact (List.dropLast_append_getLast hnil).symm⟩
    have hd : d ≠ [] := by
      rintro rfl
      exact hne rfl
    have hopen : d.getLast? ≠ some slash := by
      unfold doubleSlash at hdouble
      rw [lastSlash_append] at hdouble
      dsimp only at hdouble
      rw [List.take_left', decide_eq_false_iff_not] at hdouble
      · exact hdouble
      · rfl
    obtain ⟨absolute, t, hcut⟩ := resolve_behind (σ := σ) [] hd
    have hstay : ∀ o : Option Nat, (o.bind fun next => walk v next []) = o := by
      intro o
      cases o with
      | none => rfl
      | some next => exact resolveLoop_nil v 0 next
    rw [List.dropLast_concat, (hcut v).1, (hcut v).2, if_neg hopen, hstay]
  · rfl

theorem resolveParent_leaf (v : Vfs σ) (path : CStr) : (resolveParent v path).2 = nameOf path := by
  unfold resolveParent nameOf leafOf
  cases lastSlash path with
  | none => rfl
  | some k => rfl

theorem noSlash_leafOf (path : CStr) : slash ∉ leafOf path := by
  unfold leafOf
  cases hl : lastSlash path with
  | none => exact lastSlash_none hl
  | some k => exact (lastSlash_some hl).2

/-- A component of full length, whatever stands behind it. -/
theorem takeComponent_full : ∀ {n : Nat} {d : CStr} (tail : CStr), slash ∉ d → d.length = n →
    takeComponent n (d ++ tail) = (d, tail)
  | 0, [], _, _, _ => rfl
  | n + 1, c :: d, tail, hs, hd => by
      rw [List.mem_cons, not_or] at hs
      rw [List.cons_append, takeComponent, if_neg (Ne.symm hs.1),
        takeComponent_full tail hs.2 (by simpa using hd)]

theorem walk_full (v : Vfs σ) (cur : Nat) {name : CStr} (tail : CStr) (hs : slash ∉ name)
    (hlen : name.length = 63) :
    walk v cur (name ++ tail) = (advance v cur name).bind fun next =>
      walk v next (skipSlash tail) := by
  obtain ⟨c, rest, rfl⟩ := List.exists_cons_of_length_eq_add_one hlen
  rw [List.cons_append, walk_cons, ← List.cons_append]
  unfold afterComponent vfsNameMax
  rw [takeComponent_full tail hs hlen]

/-- Below the directory part, lookup takes one step. -/
theorem walk_tail (h : TailFits path) (v : Vfs σ) (cur : Nat) :
    walk v cur (tailOf path) = advance v cur (stepOf path) := by
  have hsl := noSlash_leafOf path
  have hbind : ∀ o : Option Nat, (o.bind fun next => some next) = o := fun o => by
    cases o with
    | none => rfl
    | some next => rfl
  have hdot : ∀ next, walk v next dot = some next := fun next => by
    rw [walk_leaf v next (by decide) (by decide) (by decide)]
    exact if_pos rfl
  unfold tailOf stepOf
  rcases h with ⟨hd, hne, hlen | ⟨hlen, hlast⟩⟩ | ⟨hd, hleaf⟩
  · rw [hd, if_neg (by simp), if_neg (by simp), walk_leaf v cur hne hsl hlen,
      List.take_of_length_le hlen]
  · -- a name of full length, and a component that stays
    rw [hd, if_neg (by simp), if_neg (by simp)]
    obtain ⟨name, hname⟩ : ∃ name, leafOf path = name ++ [0x2E] := by
      rw [List.getLast?_eq_some_getLast hne, Option.some.injEq] at hlast
      exact ⟨_, by rw [← hlast]; exact (List.dropLast_append_getLast hne).symm⟩
    rw [hname] at hlen hsl ⊢
    have hlen' : name.length = 63 := by simpa using hlen
    have hstay : ∀ next, walk v next (skipSlash [0x2E]) = some next := fun next => hdot next
    rw [walk_full v cur _ (fun h => hsl (List.mem_append_left _ h)) hlen', List.take_left' hlen']
    simp only [hstay, hbind]
  · have hstay : ∀ next, walk v next (leafOf path) = some next := by
      intro next
      rcases hleaf with hleaf | hleaf
      · rw [hleaf]
        exact resolveLoop_nil v 0 next
      · rw [hleaf]
        exact hdot next
    rw [hd, if_pos rfl, if_pos rfl, walk_cons]
    unfold afterComponent vfsNameMax
    have hcut : takeComponent (64 - 1) (slash :: leafOf path) = ([], slash :: leafOf path) :=
      if_pos rfl
    have hskip : skipSlash (slash :: leafOf path) = leafOf path := by rw [skipSlash, if_pos rfl]
    rw [hcut]
    dsimp only
    rw [hskip]
    simp only [hstay, hbind]

end Cuts

/-! ## Where a walk below a directory can end -/

section Below

variable {v : Vfs σ} {path t c : CStr} {x y z i : Nat}

/-- The root's name, which no component is. -/
def NamedRoot (v : Vfs σ) : Prop := (v.nodes 0).name = [slash]

/-- A step stays, goes up, or goes down to a larger number. -/
theorem advance_cases (hT : TreeInv v) (hroot : NamedRoot v) (hc : slash ∉ c)
    (ha : advance v z c = some y) :
    (y = z ∧ (c = dot ∨ c = dotdot)) ∨ (∃ k, (v.nodes k).used = true ∧ (v.nodes k).parent = y
      ∧ c = dotdot) ∨ ∃ k, (v.nodes k).used = true ∧ (v.nodes k).inode = y ∧ (v.nodes k).parent = z
        ∧ (v.nodes k).name = c ∧ z < y := by
  unfold advance at ha
  split at ha
  · next hdot => exact .inl ⟨(Option.some.inj ha).symm, .inl hdot⟩
  · split at ha
    · next hdd =>
      cases hg : nodeGet v z with
      | none =>
          rw [hg] at ha
          exact .inl ⟨(Option.some.inj ha).symm, .inr hdd⟩
      | some k =>
          rw [hg] at ha
          exact .inr (.inl ⟨k, (nodeGet_some hg).2.1, Option.some.inj ha, hdd⟩)
    · obtain ⟨k, hk, rfl⟩ := Option.map_eq_some_iff.mp ha
      obtain ⟨_, hu, hp, hn⟩ := findChild_some hk
      have h0 : k ≠ 0 := by
        rintro rfl
        rw [← hn, hroot] at hc
        exact hc (List.mem_singleton_self _)
      obtain ⟨p, _, _, hpi, hlt⟩ := hT.attached k hu h0
      exact .inr (.inr ⟨k, hu, rfl, hp, hn, by rw [← hp, ← hpi]; exact hlt⟩)

/-- Where a walk without slashes takes its last step: where it began, or further down. -/
inductive Lower (v : Vfs σ) (x : Nat) : CStr → Nat → Prop
  | start : Lower v x [] x
  | child {pre : CStr} {k : Nat} (hlen : pre.length = 63) (hu : (v.nodes k).used = true)
      (hp : (v.nodes k).parent = x) (hlt : x < (v.nodes k).inode) : Lower v x pre (v.nodes k).inode
  | deeper {pre : CStr} {k : Nat} (hne : pre ≠ []) (hu : (v.nodes k).used = true)
      (hp : x < (v.nodes k).parent) (hlt : x < (v.nodes k).inode) : Lower v x pre (v.nodes k).inode

/-- **A walk without slashes** goes down in steps of 63 bytes, and then takes its last step. -/
theorem walk_descends (hT : TreeInv v) (hroot : NamedRoot v) : ∀ (n : Nat) {t : CStr} {x : Nat},
    t.length ≤ n → slash ∉ t → t ≠ [] → walk v x t = some y →
    ∃ pre c z, t = pre ++ c ∧ c ≠ [] ∧ c.length ≤ 63 ∧ advance v z c = some y ∧ Lower v x pre z
  | 0, t, _, hn, _, hne, _ => absurd (List.eq_nil_of_length_eq_zero (Nat.le_zero.mp hn)) hne
  | n + 1, t, x, hn, hs, hne, hw => by
      by_cases hlen : t.length ≤ 63
      · rw [walk_leaf v x hne hs hlen] at hw
        exact ⟨[], t, x, rfl, hne, hlen, hw, .start⟩
      · obtain ⟨name, rest, hlen', rfl⟩ : ∃ name rest : CStr, name.length = 63 ∧ t = name ++ rest :=
          ⟨t.take 63, t.drop 63, by rw [List.length_take]; omega, (List.take_append_drop 63 t).symm⟩
        rw [List.length_append] at hn hlen
        have hsname : slash ∉ name := fun h => hs (List.mem_append_left _ h)
        have hsrest : slash ∉ rest := fun h => hs (List.mem_append_right _ h)
        have hrest : rest ≠ [] := by
          rintro rfl
          rw [List.length_nil] at hlen
          omega
        have hskip : skipSlash rest = rest := by
          obtain ⟨r, rest, rfl⟩ := List.exists_cons_of_ne_nil hrest
          rw [skipSlash, if_neg]
          rintro rfl
          exact hsrest List.mem_cons_self
        rw [walk_full v x rest hsname hlen', hskip] at hw
        obtain ⟨mid, ha, hw⟩ := Option.bind_eq_some_iff.mp hw
        -- a name of full length goes down
        obtain ⟨k, hu, rfl, hp, hlt⟩ : ∃ k, (v.nodes k).used = true ∧ (v.nodes k).inode = mid
            ∧ (v.nodes k).parent = x ∧ x < mid := by
          have hdot : ∀ s : CStr, s.length < 63 → name ≠ s := fun s hs h => by rw [← h] at hs; omega
          rcases advance_cases hT hroot hsname ha with ⟨_, h | h⟩ | ⟨_, _, _, h⟩ | ⟨k, hu, hi, hp,
            _, hlt⟩
          · exact absurd h (hdot dot (by decide))
          · exact absurd h (hdot dotdot (by decide))
          · exact absurd h (hdot dotdot (by decide))
          · exact ⟨k, hu, hi, hp, hlt⟩
        obtain ⟨pre, c, z, rfl, hc, hcl, hstep, hlow⟩ :=
          walk_descends hT hroot n (by omega) hsrest hrest hw
        refine ⟨name ++ pre, c, z, (List.append_assoc _ _ _).symm, hc, hcl, hstep, ?_⟩
        have hne' : name ++ pre ≠ [] := by
          intro h
          rw [(List.append_eq_nil_iff.mp h).1] at hlen'
          cases hlen'
        cases hlow with
        | start =>
            rw [List.append_nil]
            exact .child hlen' hu hp hlt
        | child _ hu' hp' hlt' => exact .deeper hne' hu' (by omega) (by omega)
        | deeper _ hu' hp' hlt' => exact .deeper hne' hu' (by omega) (by omega)

theorem noSlash_stepOf (path : CStr) : slash ∉ stepOf path := by
  unfold stepOf
  split
  · exact List.not_mem_nil
  · exact fun h => noSlash_leafOf path (List.mem_of_mem_take h)

/-- A node that nothing hangs below is reached from its own directory by going down, and by nothing
else. -/
theorem advance_to_leaf (hT : TreeInv v) (hroot : NamedRoot v) (hu : (v.nodes i).used = true)
    (hleaf : ∀ k, (v.nodes k).used = true → (v.nodes k).parent ≠ (v.nodes i).inode) (hc : slash ∉ c)
    (ha : advance v z c = some (v.nodes i).inode) :
    ((v.nodes i).inode = z ∧ c = dot) ∨ ((v.nodes i).parent = z ∧ (v.nodes i).name = c
      ∧ z < (v.nodes i).inode) := by
  rcases advance_cases hT hroot hc ha with ⟨hz, hc | hc⟩ | ⟨k, hk, hp, _⟩ | ⟨k, hk, hi, hp, hn, hlt⟩
  · exact .inl ⟨hz, hc⟩
  · -- up from a node that is there leads to one that something hangs below
    rw [← hz, hc] at ha
    unfold advance at ha
    rw [if_neg (by decide), if_pos rfl, hT.nodeGet_self hu] at ha
    exact absurd (Option.some.inj ha) (hleaf i hu)
  · exact absurd hp (hleaf k hk)
  · obtain rfl : k = i := hT.distinct k i hk hu hi
    exact .inr ⟨hp, hn, hlt⟩

/-- **Lookup takes one step below the directory part** if it comes to a node of that directory that
nothing hangs below, and it is a step down. -/
theorem tailFits_of_walk (hT : TreeInv v) (hroot : NamedRoot v) (hu : (v.nodes i).used = true)
    (hleaf : ∀ k, (v.nodes k).used = true → (v.nodes k).parent ≠ (v.nodes i).inode)
    (hw : walk v (v.nodes i).parent (tailOf path) = some (v.nodes i).inode) :
    TailFits path ∧ (doubleSlash path = false → leafOf path ≠ dot)
      ∧ (v.nodes i).name = stepOf path := by
  have hsl := noSlash_leafOf path
  have hself := hleaf i hu
  -- what the last step of a walk along the leaf is
  have hlast : ∀ {x : Nat}, (v.nodes i).parent ≤ x → leafOf path ≠ [] →
      walk v x (leafOf path) = some (v.nodes i).inode →
      ∃ pre c, leafOf path = pre ++ c ∧ c.length ≤ 63 ∧ ((c = dot ∧ Lower v x pre (v.nodes i).inode)
        ∨ (pre = [] ∧ x = (v.nodes i).parent)) := by
    intro x hx hne hw
    obtain ⟨pre, c, z, heq, _, hlen, hstep, hlow⟩ :=
      walk_descends hT hroot _ (Nat.le_refl _) hsl hne hw
    have hsc : slash ∉ c := fun h => hsl (heq ▸ List.mem_append_right _ h)
    refine ⟨pre, c, heq, hlen, ?_⟩
    rcases advance_to_leaf hT hroot hu hleaf hsc hstep with ⟨rfl, hc⟩ | ⟨hp, _, _⟩
    · exact .inl ⟨hc, hlow⟩
    · cases hlow with
      | start => exact .inr ⟨rfl, hp.symm⟩
      | child _ _ _ hlt => omega
      | deeper _ _ _ hlt => omega
  have hfits : TailFits path := by
    unfold tailOf at hw
    cases hd : doubleSlash path with
    | false =>
        rw [hd, if_neg (by simp)] at hw
        have hne : leafOf path ≠ [] := by
          intro h
          rw [h] at hw
          exact hself (Option.some.inj ((resolveLoop_nil v 0 _).symm.trans hw))
        obtain ⟨pre, c, heq, hlen, ⟨rfl, hlow⟩ | ⟨rfl, _⟩⟩ := hlast (Nat.le_refl _) hne hw
        · refine .inl ⟨hd, hne, ?_⟩
          generalize hy : (v.nodes i).inode = y at hlow
          cases hlow with
          | start => exact absurd hy.symm (by omega)
          | child hlen' _ _ _ =>
              refine .inr ⟨by rw [heq, List.length_append, hlen']; rfl, ?_⟩
              rw [heq]
              exact List.getLast?_append_of_ne_nil _ (by decide)
          | deeper _ hk hp _ =>
              obtain rfl := hT.distinct _ i hk hu hy.symm
              omega
        · exact .inl ⟨hd, hne, .inl (by rw [heq]; exact hlen)⟩
    | true =>
        rw [hd, if_pos rfl, walk_cons] at hw
        obtain ⟨x, ha, hw⟩ := Option.bind_eq_some_iff.mp hw
        have hcut : takeComponent (vfsNameMax - 1) (slash :: leafOf path)
            = ([], slash :: leafOf path) :=
          if_pos rfl
        have hskip : skipSlash (slash :: leafOf path) = leafOf path := by rw [skipSlash, if_pos rfl]
        unfold afterComponent at hw
        rw [hcut] at ha hw
        dsimp only at ha hw
        rw [hskip] at hw
        refine .inr ⟨hd, ?_⟩
        by_cases hne : leafOf path = []
        · exact .inl hne
        · -- the first step went down to a file without a name
          obtain ⟨k, hk, hki, hkp, hlt⟩ : ∃ k, (v.nodes k).used = true ∧ (v.nodes k).inode = x
              ∧ (v.nodes k).parent = (v.nodes i).parent ∧ (v.nodes i).parent < x := by
            rcases advance_cases hT hroot (by simp) ha with ⟨_, h | h⟩ | ⟨_, _, _, h⟩ | ⟨k, hk, hi,
              hp, _, hlt⟩
            · cases h
            · cases h
            · cases h
            · exact ⟨k, hk, hi, hp, hlt⟩
          obtain ⟨pre, c, heq, _, ⟨rfl, hlow⟩ | ⟨_, hx⟩⟩ := hlast (Nat.le_of_lt hlt) hne hw
          · generalize hy : (v.nodes i).inode = y at hlow
            cases hlow with
            | start => exact .inr heq
            | child _ hj hp _ =>
                obtain rfl := hT.distinct _ i hj hu hy.symm
                omega
            | deeper _ hj hp _ =>
                obtain rfl := hT.distinct _ i hj hu hy.symm
                omega
          · omega
  have hstep : (v.nodes i).name = stepOf path ∧ stepOf path ≠ dot := by
    rw [walk_tail hfits] at hw
    have hne : (v.nodes i).inode ≠ (v.nodes i).parent := Ne.symm hself
    rcases advance_to_leaf hT hroot hu hleaf (noSlash_stepOf path) hw with ⟨h, _⟩ | ⟨_, hn, _⟩
    · exact absurd h hne
    · refine ⟨hn, fun hdot => ?_⟩
      rw [hdot] at hw
      exact hne (Option.some.inj ((if_pos rfl).symm.trans hw)).symm
  refine ⟨hfits, fun hd hleaf => hstep.2 ?_, hstep.1⟩
  unfold stepOf
  rw [hd, hleaf]
  rfl

end Below

/-! ## A node more -/

section Added

variable {v v' : Vfs σ} {i cur next : Nat} {n : VFSNode} {c s : CStr}

/-- A step leads from a node that is there to one that is there, and from elsewhere nowhere. -/
theorem advance_alive (hT : TreeInv v) (ha : advance v cur c = some next) :
    ((nodeGet v cur).isSome = true → (nodeGet v next).isSome = true)
      ∧ (nodeGet v cur = none → next = cur) := by
  unfold advance at ha
  split at ha
  · cases ha
    exact ⟨id, fun _ => rfl⟩
  · split at ha
    · cases hg : nodeGet v cur with
      | none =>
          rw [hg] at ha
          cases ha
          exact ⟨fun h => absurd h (by simp), fun _ => rfl⟩
      | some j =>
          rw [hg] at ha
          cases ha
          refine ⟨fun _ => ?_, fun h => absurd h (by simp)⟩
          obtain ⟨_, hu, _⟩ := nodeGet_some hg
          by_cases hj : j = 0
          · rw [hj, hT.root.2.2.2, ← hT.root.2.2.1, hT.nodeGet_self hT.root.1]
            rfl
          · obtain ⟨p, hp, _, hpi, _⟩ := hT.attached j hu hj
            rw [← hpi, hT.nodeGet_self hp]
            rfl
    · obtain ⟨j, hf, rfl⟩ := Option.map_eq_some_iff.mp ha
      obtain ⟨_, hu, hpar, _⟩ := findChild_some hf
      refine ⟨fun _ => by rw [hT.nodeGet_self hu]; rfl, fun hnone => ?_⟩
      -- a child of what is not there
      exfalso
      by_cases hj : j = 0
      · rw [hj, hT.root.2.2.2, ← hT.root.2.2.1] at hpar
        rw [← hpar, hT.nodeGet_self hT.root.1] at hnone
        exact absurd hnone (by simp)
      · obtain ⟨p, hp, _, hpi, _⟩ := hT.attached j hu hj
        rw [← hpar, ← hpi, hT.nodeGet_self hp] at hnone
        exact absurd hnone (by simp)

/-- A node in a free slot, with a new number, that no directory had under its name. -/
structure Fresh (v : Vfs σ) (i : Nat) (n : VFSNode) : Prop where
  alloc : nodeAlloc v = some i
  used : n.used = true
  number : n.inode = v.nextInode
  absent : findChild v n.parent n.name = none

theorem Fresh.nodeGet_eq (h : Fresh v i n) (hT : TreeInv v) (hcur : (nodeGet v cur).isSome = true) :
    nodeGet (addNode v i n) cur = nodeGet v cur := by
  obtain ⟨_, hfree⟩ := nodeAlloc_some h.alloc
  obtain ⟨j, hj⟩ := Option.isSome_iff_exists.mp hcur
  obtain ⟨_, hu, hji⟩ := nodeGet_some hj
  have hlt := hT.below j hu
  refine Scan.first_congr fun k _ _ => ?_
  by_cases hk : k = i
  · rw [hk, show (addNode v i n).nodes i = n from Vfs.setNode_self n, hfree, h.used, h.number]
    simp
    omega
  · rw [show (addNode v i n).nodes k = v.nodes k from Vfs.setNode_ne n hk]

theorem Fresh.findChild_eq (h : Fresh v i n) (hc : ¬ (cur = n.parent ∧ c = n.name)) :
    findChild (addNode v i n) cur c = findChild v cur c := by
  obtain ⟨_, hfree⟩ := nodeAlloc_some h.alloc
  refine Scan.first_congr fun k _ _ => ?_
  by_cases hk : k = i
  · rw [hk, show (addNode v i n).nodes i = n from Vfs.setNode_self n, hfree, h.used]
    simp only [Bool.true_and, Bool.false_and, Bool.and_eq_false_iff, decide_eq_false_iff_not]
    by_contra hboth
    rw [not_or, not_not, not_not] at hboth
    exact hc ⟨hboth.1.symm, hboth.2.symm⟩
  · rw [show (addNode v i n).nodes k = v.nodes k from Vfs.setNode_ne n hk]

/-- The new node is found in its directory. -/
theorem Fresh.findChild_self (h : Fresh v i n) :
    findChild (addNode v i n) n.parent n.name = some i := by
  obtain ⟨hlt, _⟩ := nodeAlloc_some h.alloc
  have hself : (addNode v i n).nodes i = n := Vfs.setNode_self n
  refine Scan.first_unique hlt ?_ fun k hk hp => ?_
  · rw [hself, h.used]
    simp
  · by_contra hki
    rw [show (addNode v i n).nodes k = v.nodes k from Vfs.setNode_ne n hki] at hp
    simp only [Bool.and_eq_true, decide_eq_true_eq] at hp
    exact findChild_none h.absent hk hp.1.1 hp.1.2 hp.2

/-- Steps between nodes that are there lead where they led. -/
theorem Fresh.advance_eq (h : Fresh v i n) (hT : TreeInv v) (hcur : (nodeGet v cur).isSome = true)
    (ha : advance v cur c = some next) : advance (addNode v i n) cur c = some next := by
  unfold advance at ha ⊢
  split at ha
  · next hdot => rw [if_pos hdot]; exact ha
  · next hdot =>
    rw [if_neg hdot]
    split at ha
    · next hdd =>
      rw [if_pos hdd, h.nodeGet_eq hT hcur]
      cases hg : nodeGet v cur with
      | none => rw [hg] at ha; exact ha
      | some j =>
          rw [hg] at ha
          obtain ⟨_, hu, _⟩ := nodeGet_some hg
          have hji : j ≠ i := by
            rintro rfl
            rw [(nodeAlloc_some h.alloc).2] at hu
            exact absurd hu (by simp)
          show some ((addNode v i n).nodes j).parent = some next
          rw [show (addNode v i n).nodes j = v.nodes j from Vfs.setNode_ne n hji]
          exact ha
    · next hdd =>
      rw [if_neg hdd]
      obtain ⟨j, hf, rfl⟩ := Option.map_eq_some_iff.mp ha
      have hc : ¬ (cur = n.parent ∧ c = n.name) := by
        rintro ⟨rfl, rfl⟩
        rw [h.absent] at hf
        exact absurd hf (by simp)
      have hji : j ≠ i := by
        rintro rfl
        have hu := (findChild_some hf).2.1
        rw [(nodeAlloc_some h.alloc).2] at hu
        exact absurd hu (by simp)
      rw [h.findChild_eq hc, hf, Option.map_some,
        show (addNode v i n).nodes j = v.nodes j from Vfs.setNode_ne n hji]

/-- A walk that ends at a node that is there began at one. -/
theorem walk_alive (hT : TreeInv v) : ∀ (k : Nat) (s : CStr) (cur : Nat), s.length ≤ k →
    walk v cur s = some next → (nodeGet v next).isSome = true → (nodeGet v cur).isSome = true
  | _, [], cur, _, hw, hn => by
      rw [walk, resolveLoop_nil] at hw
      cases hw
      exact hn
  | k + 1, c :: s, cur, hk, hw, hn => by
      rw [walk_cons] at hw
      obtain ⟨mid, ha, hw⟩ := Option.bind_eq_some_iff.mp hw
      have hlen := afterComponent_length c s
      rw [List.length_cons] at hk
      have hmid := walk_alive hT k _ mid (by omega) hw hn
      cases hg : nodeGet v cur with
      | none =>
          rw [(advance_alive hT ha).2 hg, hg] at hmid
          exact hmid
      | some j => rfl

/-- **Walks to nodes that are there lead where they led.** -/
theorem Fresh.walk_eq (h : Fresh v i n) (hT : TreeInv v) (hn : (nodeGet v next).isSome = true) :
    ∀ (k : Nat) (s : CStr) (cur : Nat), s.length ≤ k → walk v cur s = some next →
      walk (addNode v i n) cur s = some next
  | _, [], cur, _, hw => by
      rw [walk, resolveLoop_nil] at hw ⊢
      exact hw
  | k + 1, c :: s, cur, hk, hw => by
      have hcur := walk_alive hT (k + 1) (c :: s) cur hk hw hn
      rw [walk_cons] at hw ⊢
      obtain ⟨mid, ha, hw⟩ := Option.bind_eq_some_iff.mp hw
      have hlen := afterComponent_length c s
      rw [List.length_cons] at hk
      rw [h.advance_eq hT hcur ha, Option.bind_some]
      exact h.walk_eq hT hn k _ mid (by omega) hw

end Added

end VnlKernel
