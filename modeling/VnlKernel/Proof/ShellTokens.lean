import VnlKernel.Shell.TokensBytes
import VnlKernel.Proof.ShellReturns

/-!
# When `tokenize` leaves strings

All that `tokenize` writes is inside its arrays. A token that begins inside `strbuf` ends inside
it too, with its NUL, for characters are put out only where the NUL still has room. But the NUL
itself may take the last byte, and the next token then begins behind the buffer: nothing of it
is written, and `argv` points to what is not a string. The other way to fail is `expand_word`,
which `tokenize` calls for what is quoted or begins with a dollar or a backquote.
-/

namespace VnlKernel

variable {ε : Type} {env : ShEnv ε} {exec : Command ε}

/-! ## Strings in a row -/

/-- Strings one behind the other, each with its NUL. -/
def packed (toks : List CStr) : CStr := toks.flatMap (· ++ [0])

/-- Where they begin, the first of them at `k`. -/
def offsets : Nat → List CStr → List Nat
  | _, [] => []
  | k, t :: toks => k :: offsets (k + t.length + 1) toks

/-- `argv` and `strbuf` when `tokenize` has returned: the pointers are fewer than `maxargs`, so that
the null pointer has room, and each is the start of a string that ends inside `strbuf`, where the
next one begins. -/
structure ArgvFormed (maxargs bufsz : Nat) (buf : CStr) (argv : List Nat) : Prop where
  count : argv.length < maxargs
  size : buf.length ≤ bufsz
  first : ∀ a, argv.head? = some a → a = 0
  strings : ∀ i a, argv[i]? = some a →
    ∃ j : Nat, a ≤ j ∧ buf[j]? = some 0 ∧ (argv ++ [buf.length])[i + 1]? = some (j + 1)

/-- A string ends inside what was written, so it begins there too. -/
theorem ArgvFormed.inside {maxargs bufsz a : Nat} {buf : CStr} {argv : List Nat}
    (h : ArgvFormed maxargs bufsz buf argv) (ha : a ∈ argv) : a < bufsz := by
  obtain ⟨i, hi⟩ := List.mem_iff_getElem?.mp ha
  obtain ⟨j, h1, h2, _⟩ := h.strings i a hi
  obtain ⟨hj, _⟩ := List.getElem?_eq_some_iff.mp h2
  have := h.size
  omega

theorem packed_append (toks : List CStr) (t : CStr) :
    packed (toks ++ [t]) = packed toks ++ (t ++ [0]) := by
  simp [packed]

theorem offsets_append : ∀ (toks : List CStr) (k : Nat) (t : CStr),
    offsets k (toks ++ [t]) = offsets k toks ++ [k + (packed toks).length]
  | [], k, t => rfl
  | u :: toks, k, t => by
      rw [List.cons_append, offsets, offsets, offsets_append toks, List.cons_append, packed, packed,
        List.flatMap_cons, List.length_append, List.length_append, List.length_singleton]
      congr 3
      omega

/-- Strings in a row are strings, and each begins where the one before ended. -/
theorem offsets_strings : ∀ (toks : List CStr) (k i a : Nat), (offsets k toks)[i]? = some a →
    ∃ j : Nat, a ≤ k + j ∧ (packed toks)[j]? = some 0 ∧
      (offsets k toks ++ [k + (packed toks).length])[i + 1]? = some (k + j + 1)
  | [], k, i, a, h => by
      rw [offsets, List.getElem?_nil] at h
      cases h
  | t :: toks, k, 0, a, h => by
      rw [offsets, List.getElem?_cons_zero] at h
      cases h
      refine ⟨t.length, Nat.le_add_right _ _, ?_, ?_⟩
      · simp [packed]
      · rw [offsets, List.cons_append, List.getElem?_cons_succ]
        cases toks with
        | nil => simp [offsets, packed, Nat.add_assoc]
        | cons u toks => rfl
  | t :: toks, k, i + 1, a, h => by
      rw [offsets, List.getElem?_cons_succ] at h
      obtain ⟨j, h1, h2, h3⟩ := offsets_strings toks (k + t.length + 1) i a h
      refine ⟨t.length + 1 + j, by omega, ?_, ?_⟩
      · have hlen : (t ++ [(0 : UInt8)]).length = t.length + 1 := List.length_append
        rw [packed, List.flatMap_cons, List.getElem?_append_right (by omega), hlen,
          Nat.add_sub_cancel_left]
        exact h2
      · rw [offsets, List.cons_append, List.getElem?_cons_succ]
        have hlen : k + (packed (t :: toks)).length = k + t.length + 1 + (packed toks).length := by
          rw [packed, List.flatMap_cons, List.length_append, List.length_append,
            List.length_singleton, ← packed]
          omega
        rw [hlen, h3]
        congr 1
        omega

namespace TokenNote

variable {bufsz fuel : Nat} {s : Sh (ShWorld ε)} {buf p : CStr}

/-- The accesses among the notes are in bounds. -/
def InBounds : TokenNote ε → Prop
  | .access a => a.InBounds
  | _ => True

/-- An access in bounds, or a call. -/
def Plain : TokenNote ε → Prop
  | .access a => a.InBounds
  | .token _ => False
  | .call _ _ => True

theorem Plain.inBounds : ∀ {e : TokenNote ε}, e.Plain → e.InBounds
  | .access _, h => h
  | .token _, h => h.elim
  | .call _ _, _ => trivial

/-- An access in bounds, and nothing else. -/
def Bounded : TokenNote ε → Prop
  | .access a => a.InBounds
  | _ => False

/-- The token, if it is one, begins inside the buffer. -/
def Inside (bufsz : Nat) : TokenNote ε → Prop
  | .token bi => bi < bufsz
  | _ => True

/-- The call of `expand_word`, if it is one, returns with a string. -/
def Returns (env : ShEnv ε) (exec : Command ε) : TokenNote ε → Prop
  | .call s src => ∃ a, expandWord env exec shExpandMax s src = .done a
  | _ => True

theorem Plain.inside : ∀ {e : TokenNote ε}, e.Plain → e.Inside bufsz
  | .access _, _ => trivial
  | .token _, h => h.elim
  | .call _ _, _ => trivial

theorem Bounded.plain : ∀ {e : TokenNote ε}, e.Bounded → e.Plain ∧ e.Returns env exec
  | .access _, h => ⟨h, trivial⟩
  | .token _, h => h.elim
  | .call _ _, h => h.elim

theorem Bounded.inBounds : ∀ {e : TokenNote ε}, e.Bounded → e.InBounds ∧ e.Returns env exec
  | .access _, h => ⟨h, trivial⟩
  | .token _, h => h.elim
  | .call _ _, h => h.elim

/-! ## What one token does -/

theorem squoteCopy_comes : ∀ (p buf : CStr), (squoteCopy (ε := ε) bufsz buf p).Comes Bounded
    (buf ++ (p.takeWhile (· ≠ squote)).take (bufsz - 1 - buf.length), p.dropWhile (· ≠ squote))
  | [], buf => by
      rw [squoteCopy, List.takeWhile_nil, List.take_nil, List.append_nil, List.dropWhile_nil]
      exact .pure _
  | c :: p, buf => by
      rw [squoteCopy]
      by_cases hc : c = squote
      · rw [if_pos hc, List.takeWhile_cons_of_neg (by simp [hc]),
          List.dropWhile_cons_of_neg (by simp [hc]),
          List.take_nil, List.append_nil]
        exact .pure _
      · rw [if_neg hc, List.takeWhile_cons_of_pos (by simp [hc]),
          List.dropWhile_cons_of_pos (by simp [hc])]
        split
        · next hroom =>
          have ih := squoteCopy_comes p (buf ++ [c])
          rw [List.length_append, List.length_singleton, List.append_assoc,
            List.singleton_append] at ih
          rw [show bufsz - 1 - buf.length
            = bufsz - 1 - (buf.length + 1) + 1 by omega, List.take_succ_cons]
          exact .bind (.note (Nat.le_of_lt hroom)) ih
        · next hroom =>
          have ih := squoteCopy_comes p buf
          rw [show bufsz - 1 - buf.length = 0 by omega, List.take_zero] at ih ⊢
          exact ih

theorem append_comes (buf text : CStr) : (append (ε := ε) bufsz buf text).Comes Bounded
    (if buf.length + text.length < bufsz then buf ++ text else buf) := by
  rw [append]
  split
  · next hfit =>
    exact .bind (.note (Nat.le_of_lt hfit)) (.pure _)
  · exact .pure _

theorem terminate_comes (buf : CStr) : (terminate (ε := ε) bufsz buf).Comes Bounded
    (if buf.length < bufsz then buf ++ [0] else buf) := by
  rw [terminate]
  split
  · next hfit =>
    exact .bind (.note hfit) (.pure _)
  · exact .pure _

theorem quotedSpan_le (p : CStr) : quotedSpan p ≤ p.length := by
  fun_induction quotedSpan p with
  | case1 => exact Nat.le_refl _
  | case2 => exact Nat.zero_le _
  | case3 => exact Nat.le_refl _
  | case4 d q hc ih =>
      rw [List.length_cons, List.length_cons]
      omega
  | case5 c hq d q hc ih =>
      rw [List.length_cons (a := c)]
      omega

theorem pieceSpan_le (c : UInt8) (p : CStr) :
    0 < pieceSpan (c :: p) ∧ pieceSpan (c :: p) ≤ p.length + 1 := by
  have htake : ∀ (f : UInt8 → Bool) (l : CStr), (l.takeWhile f).length ≤ l.length :=
    fun f l => (List.takeWhile_sublist f).length_le
  rw [pieceSpan.eq_def]
  dsimp only
  split
  · cases p with
    | nil => exact ⟨Nat.one_pos, Nat.le_refl _⟩
    | cons d q =>
        dsimp only
        rw [List.length_cons]
        split_ifs
        · have := Expansion.parenSpan_le 1 q
          omega
        · omega
        · have := htake
            (fun c => isNameChar c || c = 0x3F || c = hash || c = 0x2A || c = 0x40 || c
              = dollarSign)
            (d :: q)
          rw [List.length_cons] at this
          omega
  · have := htake (fun c => decide (c ≠ backquote)) p
    omega

/-- A piece of the line is copied and expanded. -/
theorem expandPiece_out {cap n : Nat} : (expandPiece env exec cap s p n).out =
    expandWord env exec shExpandMax s ((p.take n).take (cap - 1)) := by
  rw [List.take_take, Nat.min_comm (cap - 1), expandPiece, Expansion.clip_nat]
  rfl

theorem expandPiece_settles {cap n : Nat} {enough : Prop} (hcap : 0 < cap) (hn : n ≤ p.length + 1) :
    (expandPiece env exec cap s p n).Settles Plain (Returns env exec) enough fun _ _ => True := by
  rw [expandPiece, Expansion.clip_nat]
  refine .after (a := p.take (min n (cap - 1))) ⟨?_, rfl⟩ ?_
  · intro e he
    rcases List.mem_pair.mp he with rfl | rfl
    · exact ⟨show min n (cap - 1) ≤ p.length + 1 by omega, trivial⟩
    · exact ⟨show min n (cap - 1) + 1 ≤ cap by omega, trivial⟩
  · refine ⟨fun e he => ?_, fun a ha => ⟨trivial, fun e he => ?_⟩, fun _ hcalls => ?_⟩
    · rw [List.mem_singleton.mp he]
      trivial
    · rw [List.mem_singleton.mp he]
      exact ⟨a, ha⟩
    · exact hcalls _ (List.mem_singleton_self _)

/-- What is put into the buffer for one token: nothing of it may be left out, but all of it leaves
room for the NUL. -/
def Holds (bufsz : Nat) (buf buf' : CStr) : Prop := buf <+: buf' ∧ (buf' = buf ∨ buf'.length < bufsz)

theorem Holds.refl (buf : CStr) : Holds bufsz buf buf := ⟨List.prefix_rfl, .inl rfl⟩

theorem Holds.trans {b b' b'' : CStr} (h : Holds bufsz b b') (h' : Holds bufsz b' b'') :
    Holds bufsz b b'' := by
  refine ⟨h.1.trans h'.1, ?_⟩
  rcases h'.2 with rfl | h3
  · exact h.2
  · exact .inr h3

theorem Holds.char {c : UInt8} (h : buf.length + 1 < bufsz) : Holds bufsz buf (buf ++ [c]) :=
  ⟨List.prefix_append _ _, .inr (by rw [List.length_append]; exact h)⟩

theorem Holds.taken (t : CStr) : Holds bufsz buf (buf ++ t.take (bufsz - 1 - buf.length)) := by
  refine ⟨List.prefix_append _ _, ?_⟩
  by_cases h : buf.length < bufsz - 1
  · refine .inr ?_
    rw [List.length_append, List.length_take]
    omega
  · rw [show bufsz - 1 - buf.length = 0 by omega, List.take_zero, List.append_nil]
    exact .inl rfl

theorem Holds.appended (t : CStr) : Holds bufsz buf
    (if buf.length + t.length < bufsz then buf ++ t else buf) := by
  split
  · next h => exact ⟨List.prefix_append _ _, .inr (by rw [List.length_append]; exact h)⟩
  · exact .refl _

/-- **One token**: what is put into the buffer leaves room for the NUL. By induction on the fuel, of
which the text that is left is a measure. -/
theorem collect_settles (fuel : Nat) : ∀ (s : Sh (ShWorld ε)) (buf p : CStr),
    (collect env exec bufsz fuel s buf p).Settles Plain (Returns env exec) (p.length < fuel)
      fun _ r => Holds bufsz buf r.2.1 := by
  induction fuel with
  | zero => exact fun _ _ _ => .timeout (Nat.not_lt_zero _)
  | succ fuel ih =>
      intro s buf p
      cases p with
      | nil =>
          rw [collect]
          exact .pure (.refl _)
      | cons c p =>
          -- the rest of the token, which never gives back what is in the buffer
          have hrest : ∀ (s : Sh (ShWorld ε)) (buf' q : CStr), Holds bufsz buf buf'
            → q.length ≤ p.length →
              (collect env exec bufsz fuel s buf' q).Settles Plain (Returns env exec)
                ((c :: p).length < fuel + 1)
                fun _ r => Holds bufsz buf r.2.1 := by
            intro s buf' q hbuf hq
            refine (ih s buf' q).mono (fun _ h => h) ?_ fun _ r hr => hbuf.trans hr
            rw [List.length_cons]
            omega
          have hdrop : ∀ (n : Nat) (q : CStr), q.length ≤ p.length
              → (q.drop n).length ≤ p.length := by
            intro n q hq
            rw [List.length_drop]
            omega
          rw [collect]
          split_ifs with hend hs hd hspecial hroom
          · exact .pure (.refl _)
          · -- the text in single quotes, which is cut to the room there is
            refine .after ((squoteCopy_comes p buf).mono fun _ h => h.plain) ?_
            exact hrest _ _ _ (.taken _) (hdrop _ _ (List.dropWhile_sublist _).length_le)
          · refine (expandPiece_settles (by decide) ?_).bind fun _ r _ => ?_
            · have := quotedSpan_le p
              rw [List.length_cons]
              omega
            · refine .after ((append_comes buf r.2).mono fun _ h => h.plain) ?_
              exact hrest _ _ _ (.appended _) (hdrop _ _ (Nat.le_refl _))
          · have hspan := pieceSpan_le c p
            refine (expandPiece_settles (by decide) ?_).bind fun _ r _ => ?_
            · rw [List.length_cons]
              omega
            · refine .after ((append_comes buf r.2).mono fun _ h => h.plain) ?_
              refine hrest _ _ _ (.appended _) ?_
              rw [List.length_drop, List.length_cons]
              omega
          · -- a character is stored while there is room, and dropped after that
            exact .after (.note ⟨Nat.le_of_lt hroom, trivial⟩)
              (hrest _ _ _ (.char hroom) (Nat.le_refl _))
          · exact hrest _ _ _ (.refl _) (Nat.le_refl _)

/-! ## All tokens -/

section Loop

variable {maxargs : Nat}

/-- **The loop over the tokens**: `argv` gets longer, and not beyond the room there is. By induction
on that room. -/
theorem loop_settles (left : Nat) : ∀ (s : Sh (ShWorld ε)) (buf : CStr) (argv : List Nat)
    (p : CStr),
    argv.length + left < maxargs →
    (loop env exec maxargs bufsz left s buf argv p).Settles InBounds (Returns env exec) True
      fun _ r => argv <+: r.2.2 ∧ r.2.2.length ≤ argv.length + left := by
  induction left with
  | zero =>
      intro s buf argv p _
      rw [loop]
      exact .pure ⟨List.prefix_rfl, Nat.le_refl _⟩
  | succ left ih =>
      intro s buf argv p hargs
      rw [loop]
      split
      · exact .pure ⟨List.prefix_rfl, Nat.le_add_right _ _⟩
      · next c q _ =>
        split
        · exact .pure ⟨List.prefix_rfl, Nat.le_add_right _ _⟩
        · have hroom : argv.length + 1 ≤ maxargs := by omega
          refine .after (.note ⟨hroom, trivial⟩) (.after (.note ⟨trivial, trivial⟩) ?_)
          have hcollect : (collect env exec bufsz (q.length + 2) s buf (c :: q)).Settles InBounds
            (Returns env exec) True
              fun _ r => Holds bufsz buf r.2.1 :=
            (collect_settles _ _ _ _).mono (fun _ h => h.inBounds)
              (fun _ => Nat.lt_succ_self _) fun _ _ hr => hr
          refine hcollect.bind fun _ r _ =>
            .after ((terminate_comes r.2.1).mono fun _ h => h.inBounds) ?_
          refine (ih r.1 _ (argv ++ [buf.length]) r.2.2 ?_).mono (fun _ h => h)
            (fun h => h) fun _ r hr => ?_
          · rw [List.length_append, List.length_singleton]
            omega
          · rw [List.length_append, List.length_singleton] at hr
            exact ⟨(List.prefix_append _ _).trans hr.1, by omega⟩

/-- A turn of the loop: a token begins, is collected and terminated. -/
theorem loop_token {left : Nat} {argv : List Nat} {c : UInt8} {q : CStr}
    (hp : skipBlanks p = c :: q)
    (hc : ¬ (c = hash ∨ c = newline ∨ c = semicolon)) {r : Sh (ShWorld ε) × CStr × List Nat}
    (h : (loop env exec maxargs bufsz (left + 1) s buf argv p).out = .done r) :
    ∃ (a : Sh (ShWorld ε) × CStr × CStr) (buf' : CStr),
      (collect env exec bufsz (q.length + 2) s buf (c :: q)).out = .done a ∧ Holds bufsz buf a.2.1 ∧
      buf' = (if a.2.1.length < bufsz then a.2.1 ++ [0] else a.2.1) ∧
      (loop env exec maxargs bufsz left a.1 buf' (argv ++ [buf.length]) a.2.2).out = .done r ∧
      ∀ bi, .token bi ∈ (loop env exec maxargs bufsz (left + 1) s buf argv p).log
        ↔ bi = buf.length ∨
        .token bi ∈ (loop env exec maxargs bufsz left a.1 buf'
          (argv ++ [buf.length]) a.2.2).log := by
  rw [loop, hp] at h ⊢
  dsimp only at h ⊢
  rw [if_neg hc] at h ⊢
  have hcollect : (collect env exec bufsz (q.length + 2) s buf (c :: q)).Settles Plain
    (Returns env exec) _
    fun _ r => Holds bufsz buf r.2.1 := collect_settles _ _ _ _
  simp only [Logged.bind_out, Logged.note_out, Outcome.bind_done] at h
  obtain ⟨a, ha, h⟩ := Outcome.bind_eq_done h
  have hterminate : (terminate (ε := ε) bufsz a.2.1).Comes Bounded _ := terminate_comes a.2.1
  obtain ⟨hterm, hterm'⟩ := hterminate
  rw [hterm', Outcome.bind_done] at h
  refine ⟨a, _, ha, (hcollect.done a ha).1, rfl, h, fun bi => ?_⟩
  constructor
  · intro hbi
    rcases Logged.mem_bind.mp hbi with hbi | ⟨_, _, hbi⟩
    · cases List.mem_singleton.mp hbi
    rcases Logged.mem_bind.mp hbi with hbi | ⟨_, _, hbi⟩
    · exact .inl (by cases List.mem_singleton.mp hbi; rfl)
    rcases Logged.mem_bind.mp hbi with hbi | ⟨a', ha', hbi⟩
    · exact (hcollect.notes _ hbi).elim
    rw [ha] at ha'
    cases ha'
    rcases Logged.mem_bind.mp hbi with hbi | ⟨b, hb, hbi⟩
    · exact (hterm _ hbi).elim
    rw [hterm'] at hb
    cases hb
    exact .inr hbi
  · intro hbi
    refine Logged.mem_bind.mpr (.inr ⟨(), rfl, Logged.mem_bind.mpr ?_⟩)
    rcases hbi with rfl | hbi
    · exact .inl (List.mem_singleton_self _)
    · exact .inr ⟨(), rfl, Logged.mem_bind.mpr
        (.inr ⟨a, ha, Logged.mem_bind.mpr (.inr ⟨_, hterm', hbi⟩)⟩)⟩

/-- `argv` points to where the tokens began. -/
theorem loop_tokens (left : Nat) : ∀ {s : Sh (ShWorld ε)} {buf : CStr} {argv : List Nat} {p : CStr}
    {r : Sh (ShWorld ε) × CStr × List Nat}, argv.length + left < maxargs →
    (loop env exec maxargs bufsz left s buf argv p).out = .done r →
    ∀ bi, .token bi ∈ (loop env exec maxargs bufsz left s buf argv p).log → bi ∈ r.2.2 := by
  induction left with
  | zero =>
      intro s buf argv p r _ _ bi hbi
      rw [loop] at hbi
      cases hbi
  | succ left ih =>
      intro s buf argv p r hargs h bi hbi
      cases hp : skipBlanks p with
      | nil =>
          rw [loop, hp] at hbi
          cases hbi
      | cons c q =>
          by_cases hc : c = hash ∨ c = newline ∨ c = semicolon
          · rw [loop, hp] at hbi
            dsimp only at hbi
            rw [if_pos hc] at hbi
            cases hbi
          · obtain ⟨a, buf', _, _, _, hr, htoken⟩ := loop_token hp hc h
            have hargs' : (argv ++ [buf.length]).length + left < maxargs := by
              rw [List.length_append, List.length_singleton]
              omega
            rcases (htoken bi).mp hbi with rfl | hbi
            · exact (((loop_settles left a.1 buf' _ a.2.2 hargs').done r hr).1.1).subset (by simp)
            · exact ih hargs' hr bi hbi

/-- **Where every token begins inside the buffer, they are strings in a row.** -/
theorem loop_packed (left : Nat) : ∀ {s : Sh (ShWorld ε)} {toks : List CStr} {p : CStr}
    {r : Sh (ShWorld ε) × CStr × List Nat}, (packed toks).length ≤ bufsz →
    (loop env exec maxargs bufsz left s (packed toks) (offsets 0 toks) p).out = .done r →
    (∀ bi, .token bi ∈ (loop env exec maxargs bufsz left s (packed toks) (offsets 0 toks) p).log
      → bi < bufsz) →
    ∃ toks', r.2.1 = packed toks' ∧ r.2.2 = offsets 0 toks' ∧ (packed toks').length ≤ bufsz := by
  induction left with
  | zero =>
      intro s toks p r hlen h _
      rw [loop] at h
      cases h
      exact ⟨toks, rfl, rfl, hlen⟩
  | succ left ih =>
      intro s toks p r hlen h hinside
      have hstop : loop env exec maxargs bufsz (left + 1) s (packed toks) (offsets 0 toks) p =
          pure (s, packed toks, offsets 0 toks) →
          ∃ toks', r.2.1 = packed toks' ∧ r.2.2 = offsets 0 toks'
              ∧ (packed toks').length ≤ bufsz := by
        intro he
        rw [he] at h
        cases h
        exact ⟨toks, rfl, rfl, hlen⟩
      cases hp : skipBlanks p with
      | nil => exact hstop (by rw [loop, hp])
      | cons c q =>
          by_cases hc : c = hash ∨ c = newline ∨ c = semicolon
          · exact hstop (by rw [loop, hp]; dsimp only; rw [if_pos hc])
          · obtain ⟨a, buf', _, hholds, rfl, hr, htoken⟩ := loop_token hp hc h
            have hbi := hinside _ ((htoken _).mpr (.inl rfl))
            have hroom : a.2.1.length < bufsz := by
              rcases hholds.2 with he | hlt
              · rw [he]
                exact hbi
              · exact hlt
            obtain ⟨tok, htok⟩ := hholds.1
            rw [if_pos hroom] at hr htoken
            have hbuf : a.2.1 ++ [0] = packed (toks ++ [tok]) := by
              rw [packed_append, ← List.append_assoc, htok]
            have hargv : offsets 0 toks ++ [(packed toks).length] = offsets 0 (toks ++ [tok]) := by
              rw [offsets_append, Nat.zero_add]
            rw [hbuf, hargv] at hr htoken
            refine ih ?_ hr fun bi hbi => hinside bi ((htoken bi).mpr (.inr hbi))
            rw [← hbuf, List.length_append]
            exact hroom

end Loop

end TokenNote

open TokenNote

theorem tokenizeBytes_settles {maxargs bufsz : Nat} (hargs : 0 < maxargs) (s : Sh (ShWorld ε))
    (line : CStr) :
    (tokenizeBytes env exec maxargs bufsz s line).Settles InBounds (Returns env exec) True
      fun _ r => r.2.2.length < maxargs := by
  refine (loop_settles (maxargs - 1) s [] [] line (by rw [List.length_nil]; omega)).bind
    fun _ r hr => ?_
  have hcount : r.2.2.length + 1 ≤ maxargs := by
    have := hr.2
    rw [List.length_nil] at this
    omega
  exact .after (.note ⟨hcount, trivial⟩) (.pure hcount)

theorem tokenizeBytes_done {maxargs bufsz : Nat} {s : Sh (ShWorld ε)} {line : CStr}
    {r : Sh (ShWorld ε) × CStr × List Nat} :
    (tokenizeBytes env exec maxargs bufsz s line).out = .done r ↔
      (loop env exec maxargs bufsz (maxargs - 1) s [] [] line).out = .done r := by
  rw [tokenizeBytes, Logged.bind_out]
  cases (loop env exec maxargs bufsz (maxargs - 1) s [] [] line).out with
  | done a => exact Iff.rfl
  | panic msg => exact Iff.rfl
  | timeout => exact Iff.rfl

theorem tokenizeBytes_token {maxargs bufsz : Nat} {s : Sh (ShWorld ε)} {line : CStr} {bi : Nat} :
    .token bi ∈ (tokenizeBytes env exec maxargs bufsz s line).log ↔
      .token bi ∈ (loop env exec maxargs bufsz (maxargs - 1) s [] [] line).log := by
  rw [tokenizeBytes]
  constructor
  · intro h
    rcases Logged.mem_bind.mp h with h | ⟨r, _, h⟩
    · exact h
    · cases List.mem_singleton.mp h
  · exact fun h => Logged.mem_bind.mpr (.inl h)

/-! ## Room for the tokens -/

/-- **Every token fits**, of those that there are from `p` on: the tokens before it leave a byte of
`strbuf`, and `expand_word` returns with a string from each of its pieces. -/
def TokensFit (env : ShEnv ε) (exec : Command ε) (bufsz : Nat) : Nat → Sh (ShWorld ε) → CStr → CStr → Prop
  | 0, _, _, _ => True
  | left + 1, s, buf, p =>
      match skipBlanks p with
      | [] => True
      | c :: q =>
          (c = hash ∨ c = newline ∨ c = semicolon) ∨ buf.length < bufsz
            ∧ (∀ e ∈ (collect env exec bufsz (q.length + 2) s buf (c :: q)).log, e.Returns env exec)
            ∧ ∀ r, (collect env exec bufsz (q.length + 2) s buf (c :: q)).out = .done r →
              TokensFit env exec bufsz left r.1 (if r.2.1.length < bufsz then r.2.1 ++ [0] else r.2.1) r.2.2

theorem loop_fits_iff {maxargs bufsz : Nat} (left : Nat) :
    ∀ (s : Sh (ShWorld ε)) (buf p : CStr) (argv : List Nat),
    (∀ e ∈ (loop env exec maxargs bufsz left s buf argv p).log, e.Inside bufsz ∧ e.Returns env exec)
      ↔ TokensFit env exec bufsz left s buf p := by
  induction left with
  | zero =>
      intro s buf p argv
      rw [loop, TokensFit]
      exact ⟨fun _ => trivial, fun _ e he => absurd he List.not_mem_nil⟩
  | succ left ih =>
      intro s buf p argv
      rw [loop, TokensFit]
      cases skipBlanks p with
      | nil => exact ⟨fun _ => trivial, fun _ e he => absurd he List.not_mem_nil⟩
      | cons c q =>
          dsimp only
          split
          · next hc => exact ⟨fun _ => .inl hc, fun _ e he => absurd he List.not_mem_nil⟩
          · next hc =>
              have hplain : ∀ e ∈ (collect env exec bufsz (q.length + 2) s buf (c :: q)).log,
                  e.Inside bufsz := by
                intro e he
                exact ((collect_settles _ _ _ _).notes e he).inside
              have hrest : ∀ r : Sh (ShWorld ε) × CStr × CStr,
                  (∀ e ∈ (terminate bufsz r.2.1 >>= fun buf' =>
                    loop env exec maxargs bufsz left r.1 buf' (argv ++ [buf.length]) r.2.2).log,
                      e.Inside bufsz ∧ e.Returns env exec)
                    ↔ TokensFit env exec bufsz left r.1
                        (if r.2.1.length < bufsz then r.2.1 ++ [0] else r.2.1) r.2.2 := by
                intro r
                have hend : (terminate (ε := ε) bufsz r.2.1).Comes Bounded _ :=
                  terminate_comes r.2.1
                rw [Logged.forall_mem_bind, ← ih]
                constructor
                · exact fun h => h.2 _ hend.2
                · refine fun h => ⟨fun e he => ?_, fun a ha => ?_⟩
                  · have hplain : e.Plain ∧ e.Returns env exec := (hend.1 e he).plain
                    exact ⟨hplain.1.inside, hplain.2⟩
                  cases hend.2.symm.trans ha
                  exact h
              rw [or_iff_right hc, Logged.forall_mem_bind]
              constructor
              · rintro ⟨-, h⟩
                have htoken := Logged.forall_mem_bind.mp (h () rfl)
                have hcollect := Logged.forall_mem_bind.mp (htoken.2 () rfl)
                exact ⟨(htoken.1 _ List.mem_cons_self).1, fun e he => (hcollect.1 e he).2,
                  fun r hr => (hrest r).mp (hcollect.2 r hr)⟩
              · rintro ⟨hroom, hpieces, hnext⟩
                refine ⟨fun e he => ?_, fun _ _ =>
                    Logged.forall_mem_bind.mpr ⟨fun e he => ?_, fun _ _ =>
                  Logged.forall_mem_bind.mpr ⟨fun e he => ⟨hplain e he, hpieces e he⟩,
                    fun r hr => (hrest r).mpr (hnext r hr)⟩⟩⟩
                · cases List.mem_singleton.mp he
                  exact ⟨trivial, trivial⟩
                · cases List.mem_singleton.mp he
                  exact ⟨hroom, trivial⟩

theorem tokenizeBytes_fits_iff {maxargs bufsz : Nat} {s : Sh (ShWorld ε)} {line : CStr} :
    (∀ e ∈ (tokenizeBytes env exec maxargs bufsz s line).log, e.Inside bufsz ∧ e.Returns env exec)
      ↔ TokensFit env exec bufsz (maxargs - 1) s [] line := by
  rw [tokenizeBytes, Logged.forall_mem_bind, loop_fits_iff]
  refine and_iff_left fun r _ e he => ?_
  cases List.mem_singleton.mp he
  exact ⟨trivial, trivial⟩

/-- **`tokenize` keeps inside its arrays, returns and leaves strings exactly if every token fits.**
-/
theorem tokenize_formed_iff (env : ShEnv ε) (exec : Command ε) {maxargs : Nat} (hargs : 0 < maxargs) (bufsz : Nat)
    (s : Sh (ShWorld ε)) (line : CStr) :
    ((∀ e ∈ (tokenizeBytes env exec maxargs bufsz s line).log, e.InBounds) ∧
        ∃ r, (tokenizeBytes env exec maxargs bufsz s line).out = .done r ∧ ArgvFormed maxargs bufsz r.2.1 r.2.2) ↔
      TokensFit env exec bufsz (maxargs - 1) s [] line := by
  have hfits : (∀ e ∈ (tokenizeBytes env exec maxargs bufsz s line).log,
    e.Inside bufsz ∧ e.Returns env exec)
      ↔ TokensFit env exec bufsz (maxargs - 1) s [] line := tokenizeBytes_fits_iff
  rw [← hfits]
  have hsettles : (tokenizeBytes env exec maxargs bufsz s line).Settles InBounds
      (Returns env exec) True _ :=
    tokenizeBytes_settles hargs s line
  constructor
  · intro h e he
    obtain ⟨_, r, hr, hformed⟩ := h
    refine ⟨?_, (hsettles.done r hr).2 e he⟩
    cases e with
    | access a => trivial
    | call s src => trivial
    | token bi =>
        exact hformed.inside (loop_tokens (maxargs - 1) (by rw [List.length_nil]; omega)
          (tokenizeBytes_done.mp hr) bi
          (tokenizeBytes_token.mp he))
  · intro h
    refine ⟨hsettles.notes, ?_⟩
    obtain ⟨r, hr⟩ := hsettles.returns trivial fun e he => (h e he).2
    have hloop : (loop env exec maxargs bufsz (maxargs - 1) s (packed []) (offsets 0 []) line).out
        = .done r :=
      tokenizeBytes_done.mp hr
    obtain ⟨toks, hbuf, hargv, hsize⟩ := loop_packed (maxargs - 1)
      (Nat.zero_le _) hloop fun bi hbi => (h _ (tokenizeBytes_token.mpr hbi)).1
    refine ⟨r, hr, (hsettles.done r hr).1, by rw [hbuf]; exact hsize, ?_, ?_⟩
    · intro a ha
      rw [hargv] at ha
      cases toks with
      | nil => cases ha
      | cons t toks => cases ha; rfl
    · intro i a ha
      rw [hargv] at ha
      obtain ⟨j, h1, h2, h3⟩ := offsets_strings toks 0 i a ha
      simp only [Nat.zero_add] at h1 h3
      rw [hbuf, hargv]
      exact ⟨j, h1, h2, h3⟩

/-! ## The tokens as texts -/

section Text

variable {bufsz : Nat}

/-- One token in the buffer is one token. -/
theorem collect_out (b : CStr) (fuel : Nat) : ∀ (s : Sh (ShWorld ε)) (tok p : CStr),
    (collect env exec bufsz fuel s (b ++ tok) p).out =
      tokenLoop env exec bufsz b.length fuel s tok p >>= fun r =>
        .done (r.1, b ++ r.2.1, r.2.2) := by
  induction fuel with
  | zero => exact fun _ _ _ => rfl
  | succ fuel ih =>
      intro s tok p
      have happend : ∀ text : CStr, (append (ε := ε) bufsz (b ++ tok) text).out =
          .done (b ++ if b.length + tok.length + text.length < bufsz then tok
              ++ text else tok) := by
        intro text
        rw [(append_comes (b ++ tok) text).2, List.length_append]
        split
        · rw [List.append_assoc]
        · rfl
      cases p with
      | nil => rfl
      | cons c p =>
          have hlen : (b ++ tok).length = b.length + tok.length := List.length_append
          rw [collect, tokenLoop]
          simp only [hlen]
          split_ifs with hend hs hd hspecial hroom
          · rfl
          · rw [Logged.bind_out, (squoteCopy_comes p (b ++ tok)).2, Outcome.bind_done,
              List.append_assoc, Expansion.drop_behind, List.length_append]
            exact ih s _ _
          · simp only [Logged.bind_out, expandPiece_out, List.take_succ_cons]
            rw [Outcome.bind_assoc]
            refine Outcome.bind_congr fun r _ => ?_
            rw [happend, Outcome.bind_done]
            exact ih r.1 _ _
          · simp only [Logged.bind_out, expandPiece_out]
            rw [Outcome.bind_assoc]
            refine Outcome.bind_congr fun r _ => ?_
            rw [happend, Outcome.bind_done]
            exact ih r.1 _ _
          · rw [Logged.bind_out, Logged.note_out, Outcome.bind_done, List.append_assoc]
            exact ih s _ _
          · exact ih s _ _

/-- **The tokens in the buffer are the tokens**, by induction on the room in `argv`. -/
theorem loop_out (maxargs left : Nat) : ∀ (s s' : Sh (ShWorld ε)) (p : CStr)
    (toks toks' : List CStr),
    tokenizeLoop env exec bufsz left s p (packed toks).length = .done (s', toks') →
    (loop env exec maxargs bufsz left s (packed toks) (offsets 0 toks) p).out =
      .done (s', packed (toks ++ toks'), offsets 0 (toks ++ toks')) := by
  induction left with
  | zero =>
      intro s s' p toks toks' h
      cases h
      rw [loop, List.append_nil]
      rfl
  | succ left ih =>
      intro s s' p toks toks' h
      rw [tokenizeLoop] at h
      rw [loop]
      cases hp : skipBlanks p with
      | nil =>
        rw [hp] at h
        cases h
        rw [List.append_nil]
        rfl
      | cons c q =>
        rw [hp] at h
        dsimp only at h ⊢
        -- a comment or the end of the command: nothing more is written
        by_cases hc : c = hash ∨ c = newline ∨ c = semicolon
        · rw [if_pos hc] at h
          cases h
          rw [if_pos hc, List.append_nil]
          rfl
        · rw [if_neg hc] at h
          rw [if_neg hc]
          by_cases hfull : bufsz ≤ (packed toks).length
          · rw [if_pos hfull] at h
            cases h
          rw [if_neg hfull] at h
          obtain ⟨a, ha, h⟩ := Outcome.bind_eq_done h
          obtain ⟨b, hb, h⟩ := Outcome.bind_eq_done h
          cases h
          have hcollect : (collect env exec bufsz (q.length + 2) s (packed toks ++ []) (c :: q)).out
              = _ :=
            collect_out (packed toks) (q.length + 2) s [] (c :: q)
          rw [ha, List.append_nil, Outcome.bind_done] at hcollect
          simp only [Logged.bind_out, Logged.note_out, Outcome.bind_done]
          rw [hcollect, Outcome.bind_done]
          dsimp only
          have hholds := ((collect_settles _ _ _ _).done _ hcollect).1
          -- the token leaves room for its NUL
          have hroom : (packed toks ++ a.2.1).length < bufsz := by
            rcases hholds.2 with he | hlt
            · exact Nat.lt_of_le_of_lt (Nat.le_of_eq (congrArg List.length he))
                (Nat.lt_of_not_le hfull)
            · exact hlt
          rw [(terminate_comes _).2, if_pos hroom, Outcome.bind_done]
          -- so the buffer and `argv` hold one token more
          have hbuf : packed toks ++ a.2.1 ++ [0] = packed (toks ++ [a.2.1]) := by
            rw [packed_append, List.append_assoc]
          have hargv : offsets 0 toks ++ [(packed toks).length] = offsets 0 (toks ++ [a.2.1]) := by
            rw [offsets_append, Nat.zero_add]
          have hlen : (packed toks).length + a.2.1.length + 1
              = (packed (toks ++ [a.2.1])).length := by
            rw [← hbuf, List.length_append, List.length_append, List.length_singleton]
          rw [hlen] at hb
          have hrest := ih a.1 b.1 a.2.2 (toks ++ [a.2.1]) b.2 hb
          rw [List.append_assoc, List.singleton_append] at hrest
          rw [hbuf, hargv, hrest]

theorem tokenize_out {s s' : Sh (ShWorld ε)} {line : CStr} {toks : List CStr}
    (h : tokenize env exec bufsz s line = .done (s', toks)) :
    (tokenizeBytes env exec shMaxArgs bufsz s line).out = .done (s', packed toks, offsets 0 toks) :=
  tokenizeBytes_done.mpr (loop_out shMaxArgs (shMaxArgs - 1) s s' line [] toks h)

/-- Two tokens and a comment, in the buffer of the `for` loop. -/
theorem tokenize_formed_iff_two :
    TokensFit stillEnv idleExec 1024 63 stillShell [] (cstr "a 'b c' # d")
      ∧ (∀ e ∈ (tokenizeBytes stillEnv idleExec 64 1024 stillShell (cstr "a 'b c' # d")).log, e.InBounds)
      ∧ ∃ r, (tokenizeBytes stillEnv idleExec 64 1024 stillShell (cstr "a 'b c' # d")).out = .done r
        ∧ ArgvFormed 64 1024 r.2.1 r.2.2 := by
  have hfits : TokensFit stillEnv idleExec 1024 63 stillShell [] (cstr "a 'b c' # d") := by
    refine .inr ⟨by decide, fun e he => ?_, fun r hr => ?_⟩
    · have hlog : e ∈ [(.access (.span 1 1024) : TokenNote Unit)] := he
      rw [List.mem_singleton.mp hlog]
      trivial
    · cases hr
      refine .inr ⟨by decide, fun e he => ?_, fun r hr => ?_⟩
      · have hlog : e ∈ [(.access (.span 3 1024) : TokenNote Unit), .access (.span 4 1024),
          .access (.span 5 1024)] := he
        rcases List.mem_cons.mp hlog with rfl | hlog
        · trivial
        · rcases List.mem_cons.mp hlog with rfl | hlog
          · trivial
          · rw [List.mem_singleton.mp hlog]
            trivial
      · cases hr
        exact .inl (.inl rfl)
  exact ⟨hfits, (tokenize_formed_iff stillEnv idleExec (by decide) 1024 stillShell
    (cstr "a 'b c' # d")).mpr hfits⟩

/-- The NUL of the first token takes the last byte of the buffer of the `for` loop, and `argv[1]`
points behind it. -/
theorem token_behind_buffer :
    ¬ ((∀ e ∈ (tokenizeBytes stillEnv idleExec 64 1024 stillShell (List.replicate 1023 0x61 ++ cstr " b")).log,
          e.InBounds) ∧
        ∃ r, (tokenizeBytes stillEnv idleExec 64 1024 stillShell (List.replicate 1023 0x61 ++ cstr " b")).out = .done r ∧
          ArgvFormed 64 1024 r.2.1 r.2.2) := by
  intro h
  obtain ⟨_, r, hr, hformed⟩ := h
  have hloop := tokenizeBytes_done.mp hr
  have hcons : List.replicate 1023 (0x61 : UInt8) ++ cstr " b"
    = 0x61 :: (List.replicate 1022 0x61 ++ cstr " b") := rfl
  have hskip : skipBlanks (List.replicate 1023 (0x61 : UInt8) ++ cstr " b") =
      0x61 :: (List.replicate 1022 0x61 ++ cstr " b") := by
    rw [hcons, skipBlanks, List.dropWhile_cons]
    rfl
  -- the first token takes 1023 bytes
  have htok : (collect stillEnv idleExec 1024
    ((List.replicate 1022 (0x61 : UInt8) ++ cstr " b").length + 2) stillShell
      ([] ++ []) (List.replicate 1023 0x61 ++ cstr " b")).out = _ := collect_out []
    ((List.replicate 1022 (0x61 : UInt8) ++ cstr " b").length + 2) stillShell []
      (List.replicate 1023 0x61 ++ cstr " b")
  have hchars : ∀ c ∈ List.replicate 1023 (0x61 : UInt8), TokenByte c := by
    intro c hc
    rw [List.eq_of_mem_replicate hc]
    decide
  have hlen : (List.replicate 1022 (0x61 : UInt8) ++ cstr " b").length + 2 =
      (List.replicate 1023 (0x61 : UInt8)).length + 2 + 1 := by
    rw [List.length_append, List.length_replicate, List.length_replicate]
    rfl
  have hroom : 0 + ([] : CStr).length + (List.replicate 1023 (0x61 : UInt8)).length < 1024 := by
    rw [List.length_replicate]
    decide
  have hloopTok : tokenLoop stillEnv idleExec 1024 0
    ((List.replicate 1023 (0x61 : UInt8)).length + 2 + 1) stillShell []
      (List.replicate 1023 0x61 ++ cstr " b")
          = .done (stillShell, [] ++ List.replicate 1023 0x61, cstr " b") :=
    tokenLoop_token hchars hroom (by decide)
  rw [hlen, List.nil_append, List.length_nil, hloopTok, Outcome.bind_done, List.nil_append] at htok
  obtain ⟨a, buf, ha, _, hbuf, hrest, htoken⟩ := loop_token hskip (by decide) hloop
  rw [← hcons, hlen, htok] at ha
  cases ha
  have hfull : buf.length = 1024 := by
    rw [hbuf]
    dsimp only
    rw [List.nil_append, List.length_replicate, if_pos (by decide), List.length_append,
      List.length_replicate]
    rfl
  -- and the second begins behind them
  obtain ⟨_, _, _, _, _, _, htoken'⟩ := loop_token (p := cstr " b") (c := 0x62)
    (q := []) rfl (by decide) hrest
  have hin : 1024 ∈ r.2.2 := by
    refine loop_tokens 63 (by decide) hloop 1024
      ((htoken 1024).mpr (.inr ((htoken' 1024).mpr (.inl ?_))))
    exact hfull.symm
  exact absurd (hformed.inside hin) (by decide)

end Text

end VnlKernel
