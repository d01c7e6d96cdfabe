import VnlKernel.Proof.ShellCapture
import VnlKernel.Proof.ShellWords

/-!
# Redirected lines

A line `cmd > f` or `cmd >> f` of a script goes through every pass before the redirect scanner
without being changed, and what is left of it is the command, run while its output is captured.
With that, what was shown of captures is said of runs: of every capture in them, and of the file
that a redirected line leaves.
-/

namespace VnlKernel

variable {ε : Type}

/-! ## The line -/

/-- `cmd > f`, or `cmd >> f`. -/
def redirectLine (trunc : Bool) (cmd f : CStr) : CStr :=
  cmd ++ (if trunc then cstr " > " else cstr " >> ") ++ f

/-- A command and the name of a file: words without quoting, the first of them no keyword, and a
name that is one word. Both fit. -/
structure Redirectable (cmd f : CStr) : Prop where
  simple : SimpleLine cmd
  ordinary : backslash ∉ cmd
  first : (cmd.takeWhile (· ≠ space)).length < shVarNamsz
  file : f ≠ [] ∧ ∀ c ∈ f, c ∉ specialBytes ∧ c ≠ backslash ∧ isBlank c = false
  name : f.length ≤ 127
  fits : cmd.length + f.length + 5 < shLineMax

/-- The state in which the command of such a line is run. -/
def redirectReady (s : Sh (ShWorld ε)) (trunc : Bool) (cmd f : CStr) : Sh (ShWorld ε) :=
  let w := s.world
  { s with
    flow := .none
    world := { w with
      stages := fun i => [redirectLine trunc cmd f].getD i (w.stages i)
      outName := if trunc then f else w.outName
      appName := if trunc then w.appName else f } }

theorem redirectLine_eq (trunc : Bool) (cmd f : CStr) :
    ∃ r, redirectLine trunc cmd f = cmd ++ space :: r := by
  cases trunc
  · exact ⟨cstr ">> " ++ f, by simp [redirectLine, cstr, space]⟩
  · exact ⟨cstr "> " ++ f, by simp [redirectLine, cstr, space]⟩

namespace Redirectable

variable {cmd f : CStr} (h : Redirectable cmd f) (trunc : Bool)

include h

theorem not_mem_line {c : UInt8} (hc : c ∈ specialBytes) (hgt : c ≠ greater) :
    c ∉ redirectLine trunc cmd f := by
  have hsign : ∀ b : Bool, ∀ d ∈ (if b then cstr " > " else cstr " >> "), d = space
    ∨ d = greater := by decide
  rw [redirectLine, List.mem_append, List.mem_append]
  rintro ((hm | hm) | hm)
  · exact h.simple.not_mem hc hm
  · rcases hsign trunc c hm with rfl | rfl
    · exact absurd hc (by decide)
    · exact hgt rfl
  · exact (h.file.2 c hm).1 hc

/-- A keyword in front of the line would be in front of the command. -/
theorem unkeyed : Unkeyed (redirectLine trunc cmd f) := by
  intro k hk hp
  refine h.simple.unkeyed k hk ?_
  have hblank : ∀ k ∈ shellKeywords, space ∉ k := by decide
  obtain ⟨r, hr⟩ := redirectLine_eq trunc cmd f
  rw [hr] at hp
  exact prefix_of_prefix_cut (fun x hx he => hblank k hk (by rwa [← he])) hp

theorem length_line : (redirectLine trunc cmd f).length + 1 < shLineMax := by
  have := h.fits
  cases trunc <;> simp [redirectLine, cstr] <;> omega

theorem oneLine : OneLine (redirectLine trunc cmd f) := by
  refine ⟨?_, ?_, ?_⟩
  · intro c hc
    have hne : ∀ d ∈ specialBytes, d ≠ greater → c ≠ d :=
      fun d hd hgt he => h.not_mem_line trunc hd hgt (he ▸ hc)
    exact ⟨hne _ (by decide) (by decide), hne _ (by decide) (by decide),
      hne _ (by decide) (by decide)⟩
  · obtain ⟨c, r, rfl, hc⟩ := h.simple.first
    exact ⟨c, _, by rw [redirectLine, List.append_assoc]; rfl, hc⟩
  · obtain ⟨r, c, hf⟩ := (List.eq_nil_or_concat f).resolve_left h.file.1
    rw [List.concat_eq_append] at hf
    obtain ⟨_, hslash, hblank⟩ := h.file.2 c (by rw [hf]; simp)
    exact ⟨_, c, by rw [redirectLine, hf, ← List.append_assoc], hblank, hslash⟩

theorem plain : ∀ c ∈ redirectLine trunc cmd f, Ordinary c := by
  intro c hc
  have hne : ∀ d ∈ specialBytes, d ≠ greater → c ≠ d :=
    fun d hd hgt he => h.not_mem_line trunc hd hgt (he ▸ hc)
  refine ⟨?_, hne _ (by decide) (by decide), hne _ (by decide) (by decide),
    hne _ (by decide) (by decide), hne _ (by decide) (by decide)⟩
  rintro rfl
  rw [redirectLine, List.mem_append, List.mem_append] at hc
  rcases hc with (hc | hc) | hc
  · exact h.ordinary hc
  · revert hc
    cases trunc <;> decide
  · exact (h.file.2 _ hc).2.1 rfl

theorem splitStages_line : splitStages (redirectLine trunc cmd f) = [redirectLine trunc cmd f] := by
  refine splitStages_uncut ?_ (by have := h.length_line trunc; omega)
  intro a c b he
  have hc : c ≠ pipeSign := by
    rintro rfl
    exact h.not_mem_line trunc (c := pipeSign) (by decide) (by decide) (by rw [he]; simp)
  simp [Split.cuts, hc]

/-- The name of the file is what is behind the sign. -/
theorem redirName_file : redirName (space :: f) = f ∧ redirRest (space :: f) = [] := by
  obtain ⟨hne, hf⟩ := h.file
  have hsp : ∀ c ∈ f, c ≠ space := by
    intro c hc he
    have := (hf c hc).2.2
    rw [he] at this
    exact absurd this (by decide)
  have hskip : skipSpaces (space :: f) = f := by
    cases f with
    | nil => exact absurd rfl hne
    | cons c f => simp [skipSpaces, hsp c]
  have hname : redirName (space :: f) = f := by
    rw [redirName, hskip, List.takeWhile_eq_self_iff.mpr (by simpa using hsp),
      List.take_of_length_le h.name]
  exact ⟨hname, by rw [redirRest, hname, hskip, List.drop_length]⟩

/-- The scanner finds one sign. -/
theorem scanRedirects_line : scanRedirects ((redirectLine trunc cmd f).length + 1)
    (redirectLine trunc cmd f) ([], ⟨none, none, none⟩)
      = (cmd ++ [space], ⟨if trunc then some f else none, if trunc then none else some f,
        none⟩) := by
  have hcmd : ∀ c ∈ cmd, c ≠ greater ∧ c ≠ less := fun c hc =>
    ⟨fun he => h.simple.not_mem (c := greater) (by decide) (he ▸ hc),
      fun he => h.simple.not_mem (c := less) (by decide) (he ▸ hc)⟩
  obtain ⟨hname, hrest⟩ := h.redirName_file
  -- the sign has a blank in front of it
  have hsign : ∀ (fuel : Nat) (p : CStr),
    scanRedirects (cmd.length + (fuel + 1)) (cmd ++ space :: p)
      ([], ⟨none, none, none⟩) = scanRedirects fuel p (cmd ++ [space], ⟨none, none, none⟩) := by
    intro fuel p
    rw [scanRedirects_plain hcmd _ _ _ (fun he => absurd he (by simp [space, greater])),
      scanRedirects_other (by decide) (by simp [space])]
    rfl
  cases trunc
  · have hline : redirectLine false cmd f = cmd ++ space :: greater :: greater :: space :: f := by
      simp [redirectLine, cstr, space, greater]
    have hlen : (redirectLine false cmd f).length + 1 = cmd.length + (f.length + 3 + 1 + 1) := by
      rw [hline, List.length_append]
      simp only [List.length_cons]
      omega
    rw [hlen, hline, hsign, scanRedirects, if_pos rfl, List.drop_one, List.tail_cons, hname, hrest,
      scanRedirects.eq_def]
    rfl
  · have hline : redirectLine true cmd f = cmd ++ space :: greater :: space :: f := by
      simp [redirectLine, cstr, space, greater]
    have hlen : (redirectLine true cmd f).length + 1 = cmd.length + (f.length + 2 + 1 + 1) := by
      rw [hline, List.length_append]
      simp only [List.length_cons]
      omega
    have happ : startsWith [greater, greater] (greater :: space :: f) = false := rfl
    have herr : startsWith (cstr "2>&1") (greater :: space :: f) = false
        ∧ startsWith (cstr "2>") (greater :: space :: f) = false := ⟨rfl, rfl⟩
    rw [hlen, hline, hsign, scanRedirects, happ, herr.1, herr.2, if_neg Bool.false_ne_true,
      if_neg Bool.false_ne_true, if_neg Bool.false_ne_true, if_pos rfl, hname, hrest,
        scanRedirects.eq_def]
    rfl

/-- **The command of a redirected line is captured, and nothing else is done.** -/
theorem shScript_line {env : ShEnv ε} {simple : Simple ε} (fuel : Nat) (s : Sh (ShWorld ε)) :
    shScript env simple (fuel + 2) s (redirectLine trunc cmd f ++ [newline]) = (do
      let (s, r) ← redirOut env (shExec env simple (fuel + 2)) trunc (redirectReady s trunc cmd f)
        (cmd ++ [space])
      pure ({ s with lastStatus := r }, r)) := by
  have hlen := h.length_line trunc
  have hne : redirectLine trunc cmd f ≠ [] := by
    obtain ⟨c, r, he, _⟩ := (h.oneLine trunc).first
    rw [he]
    exact List.cons_ne_nil _ _
  have hname : functionName (redirectLine trunc cmd f) = .done none := by
    refine functionName_words (h.oneLine trunc).first (h.not_mem_line trunc (by decide) (by decide))
      ((h.unkeyed trunc).startsWith_false (k := cstr "function") (by decide) (by decide)) ?_
    obtain ⟨r, hr⟩ := redirectLine_eq trunc cmd f
    rw [hr, List.takeWhile_append]
    split
    · next hall =>
      rw [List.takeWhile_cons, if_neg (by simp), List.length_append, ← hall]
      exact h.first
    · exact h.first
  have hand : findAndOr (redirectLine trunc cmd f) = none :=
    findAndOr_words (h.not_mem_line trunc (by decide) (by decide))
      (h.not_mem_line trunc (by decide) (by decide))
  have hblock := @shExecBlock_oneLine _ (shRunner env (shExec env simple (fuel + 2))) (fuel + 1)
    [] _ [] (fun c hc => by cases hc) (h.oneLine trunc) (by omega) { s with flow := .none } true 0
  rw [List.nil_append] at hblock
  rw [shScript, shRunString, hblock, execLine_command (h.unkeyed trunc) hname hand, if_pos rfl]
  dsimp only [shRunner]
  rw [expandWord_plain (h.plain trunc) hne (by omega), Outcome.bind_done]
  dsimp only
  rw [shRunPipeline, h.splitStages_line trunc]
  dsimp only
  rw [runStage, if_neg (by omega), h.scanRedirects_line trunc]
  dsimp only
  rw [Outcome.bind_assoc]
  cases trunc
  all_goals
    refine Outcome.bind_congr ?_
    rintro ⟨s', r⟩ _
    rfl

end Redirectable

/-! ## Captures of a run -/

section Runs

variable {env : ShEnv ε} (henv : env.Nests) {fuel : Nat} {s s₁ : Sh (ShWorld ε)} {cmd : CStr} {r : Int}

include henv

/-- What is captured soundly goes to the file that was named last. -/
theorem redirOut_sound (trunc : Bool)
    (h : shExec env (shRunSimple env) fuel (s.setKout (s.kout.redirect .redir)) cmd = .done
      (s₁, r)) :
    ∃! n : Nest, s₁.kout = n.play (s.kout.redirect .redir)
      ∧ (Nest.Sound .redir n (s.kout.bufs .redir) →
      ∃ s', redirOut env (shExec env (shRunSimple env) fuel) trunc s cmd = .done (s', r)
        ∧ s'.world.ext = env.spill s₁.world.ext
          (if trunc then s.world.outName else s.world.appName) trunc
            (n.own.take (shPipeBuf - 1))) := by
  obtain ⟨n, hn⟩ := shExec_nests henv fuel _ cmd s₁ r h
  refine ⟨n, ⟨hn.kout, ?_⟩, fun m hm => Nest.play_inj (hm.1.symm.trans hn.kout)⟩
  intro hsound
  have htext : s₁.kout.bufs .redir = n.own.take (shPipeBuf - 1) := by
    rw [← hsound.yields]
    exact congrArg (fun k : Kout => k.bufs .redir) hn.kout
  have hnames := hn.names hsound.avoids
  have hname : (if trunc then s₁.world.outName else s₁.world.appName)
      = if trunc then s.world.outName else s.world.appName := by
    rw [hnames.1, hnames.2]
    rfl
  rw [redirOut, capture, h, Outcome.bind_done]
  refine ⟨_, rfl, ?_⟩
  show env.spill s₁.world.ext (if trunc then s₁.world.outName else s₁.world.appName) trunc
    (s₁.kout.bufs .redir) = _
  rw [htext, hname]

end Runs

/-- **Output is captured as it should be in an orderly run.** What a run does to the output hook is
exactly one nest. If the nest is orderly, every capture in it, of whatever kind and however deep,
yields what was printed directly inside it, as much of it as fits, and the screen gets the rest. A
redirection whose command is so writes that text to the file it names, with `>` and with `>>`, and
so does a line `cmd > f` or `cmd >> f` of a script. -/
theorem captures_exact {env : ShEnv ε} (henv : env.Nests) (fuel : Nat) (s : Sh (ShWorld ε)) :
    (∀ script s' r, shScript env (shRunSimple env) fuel s script = .done (s', r) →
      ∃! n : Nest, s'.kout = n.play s.kout ∧ (n.Orderly s.kout → s.kout.buf = none →
        s'.kout.yields = s.kout.yields ++ n.captured ∧ s'.kout.screen = s.kout.screen ++ n.own
          ∧ s'.kout.buf = none))
    ∧ (∀ trunc cmd s₁ r,
      shExec env (shRunSimple env) fuel (s.setKout (s.kout.redirect .redir)) cmd = .done (s₁, r) →
      ∃! n : Nest, s₁.kout = n.play (s.kout.redirect .redir)
        ∧ (Nest.Sound .redir n (s.kout.bufs .redir) →
        ∃ s', redirOut env (shExec env (shRunSimple env) fuel) trunc s cmd = .done (s', r)
          ∧ s'.world.ext
            = env.spill s₁.world.ext (if trunc then s.world.outName else s.world.appName)
              trunc (n.own.take (shPipeBuf - 1))))
    ∧ (∀ trunc cmd f s₁ r, Redirectable cmd f →
      shExec env (shRunSimple env) (fuel + 2)
        ((redirectReady s trunc cmd f).setKout (s.kout.redirect .redir)) (cmd ++ [space])
        = .done (s₁, r) →
      ∃! n : Nest, s₁.kout = n.play (s.kout.redirect .redir)
        ∧ (Nest.Sound .redir n (s.kout.bufs .redir) →
        ∃ s', shScript env (shRunSimple env) (fuel + 2) s (redirectLine trunc cmd f ++ [newline])
            = .done (s', r)
          ∧ s'.world.ext = env.spill s₁.world.ext f trunc (n.own.take (shPipeBuf - 1)))) := by
  refine ⟨?_, ?_, ?_⟩
  · intro script s' r h
    obtain ⟨n, hn⟩ := shScript_nests henv fuel s script s' r h
    refine ⟨n, ⟨hn.kout, ?_⟩, fun m hm => Nest.play_inj (hm.1.symm.trans hn.kout)⟩
    intro hord hbuf
    have hexact := hord.exact
    have hkout : s'.kout = n.play s.kout := hn.kout
    rw [hkout]
    exact ⟨hexact.yields, hexact.screen hbuf⟩
  · intro trunc cmd s₁ r h
    exact redirOut_sound henv trunc h
  · intro trunc cmd f s₁ r hline h
    obtain ⟨n, ⟨hkout, hsound⟩, huniq⟩ := redirOut_sound henv trunc
      (s := redirectReady s trunc cmd f) h
    refine ⟨n, ⟨hkout, ?_⟩, fun m hm => Nest.play_inj (hm.1.symm.trans hkout)⟩
    intro hs
    obtain ⟨s', hdone, hext⟩ := hsound hs
    have hname : (if trunc then (redirectReady s trunc cmd f).world.outName
        else (redirectReady s trunc cmd f).world.appName) = f := by
      cases trunc <;> rfl
    rw [hname] at hext
    rw [hline.shScript_line trunc fuel s, hdone, Outcome.bind_done]
    exact ⟨_, rfl, hext⟩

/-! ## One that is not orderly -/

theorem fileEnv_nests : fileEnv.Nests :=
  ⟨fun _ _ => Within.done (nested_onWorld.refl _) _,
    fun _ _ _ _ => Within.done (nested_onWorld.refl _) _⟩

/-- What `f` prints and captures. -/
def printingNest : Nest :=
  .put 0x61 (.put newline (.capture .dollar (.put 0x62 (.put newline .nil)) (.strip .dollar .nil)))

theorem printingNest_sound {old : CStr} : Nest.Sound .redir printingNest old :=
  ⟨rfl, ⟨by decide, trivial, by decide, trivial⟩, fun h => by cases h⟩

theorem printingNest_orderly {k : Kout} : (Nest.capture .redir printingNest .nil).Orderly k :=
  ⟨printingNest_sound, ⟨⟨trivial, trivial, fun h => by cases h⟩, trivial, trivial⟩, trivial⟩

/-- The shell in which `f` does that. -/
def printingShell : Sh (ShWorld (List (CStr × CStr))) :=
  { fileShell with
    world := { fileShell.world with funcs := [(cstr "f", cstr "echo a\nx=$(echo b)\n")] } }

/-- A function that prints, and then captures: the run is orderly, and what the function printed
itself is in the file, behind `>` in the script that defines it and behind `>>` later. -/
theorem captures_exact_function : ∃ (s' : Sh (ShWorld (List (CStr × CStr)))) (r : Int),
    shScript fileEnv (shRunSimple fileEnv) 6 fileShell
        (cstr "f() \x7b\necho a\nx=$(echo b)\n\x7d\nf > g\n") = .done (s', r)
      ∧ (s'.world.ext, s'.kout.yields) = ([(cstr "g", cstr "a\n")], [cstr "b\n", cstr "a\n"])
      ∧ (∃ n : Nest, n.Orderly fileShell.kout ∧ s'.kout = n.play fileShell.kout
        ∧ s'.kout.yields = n.captured ∧ s'.kout.screen = n.own)
      ∧ (∃ s'' r',
        shScript fileEnv (shRunSimple fileEnv) 6 printingShell (cstr "f >> g\n") = .done (s'', r')
        ∧ s''.world.ext = [(cstr "g", cstr "a\n")]) := by
  have hrun : (shScript fileEnv (shRunSimple fileEnv) 6 fileShell
      (cstr "f() \x7b\necho a\nx=$(echo b)\n\x7d\nf > g\n")).get?.map
        (fun x => (x.1.world.ext, x.1.kout.yields, x.1.kout.calls))
      = some ([(cstr "g", cstr "a\n")], [cstr "b\n", cstr "a\n"],
        (Nest.capture .redir printingNest .nil).calls) := by decide +kernel
  obtain ⟨⟨s', r⟩, hdone, hres⟩ := Outcome.of_get? hrun
  obtain ⟨hext, hcalls⟩ := Prod.mk.inj hres
  obtain ⟨hyields, hcalls⟩ := Prod.mk.inj hcalls
  obtain ⟨n, ⟨hkout, hord⟩, _⟩ := (captures_exact fileEnv_nests 6 fileShell).1 _ s' r hdone
  obtain rfl : n = .capture .redir printingNest .nil :=
    Nest.eq_of_calls (k := fileShell.kout) (by rw [← hkout]; exact hcalls)
  obtain ⟨hcaptured, hscreen, _⟩ := hord printingNest_orderly rfl
  refine ⟨s', r, hdone, Prod.mk.injEq .. ▸ ⟨hext, hyields⟩,
    ⟨_, printingNest_orderly, hkout, hcaptured, hscreen⟩, ?_⟩
  -- the line with `>>`, in the shell in which the function is
  have hcmd : (shExec fileEnv (shRunSimple fileEnv) 6
      ((redirectReady printingShell false (cstr "f") (cstr "g")).setKout
        (printingShell.kout.redirect .redir)) (cstr "f" ++ [space])).get?.map
          (fun x => (x.1.world.ext, x.1.kout.calls))
      = some ([], (printingShell.kout.redirect .redir).calls
        ++ printingNest.calls) := by decide +kernel
  have hline : Redirectable (cstr "f") (cstr "g") :=
    ⟨⟨⟨by decide, ⟨_, _, rfl, by decide⟩,
      ⟨[], _, rfl, by decide, by decide⟩⟩, by decide⟩, by decide, by decide,
      by decide, by decide, by decide⟩
  obtain ⟨⟨s₁, r₁⟩, hdone₁, hres₁⟩ := Outcome.of_get? hcmd
  obtain ⟨hext₁, hcalls₁⟩ := Prod.mk.inj hres₁
  obtain ⟨m, ⟨hkout₁, hsound⟩, _⟩ :=
    (captures_exact fileEnv_nests 4 printingShell).2.2 false _ _ s₁ r₁ hline hdone₁
  obtain rfl : m = printingNest := Nest.eq_of_calls (by rw [← hkout₁]; exact hcalls₁)
  obtain ⟨s'', hdone'', hext''⟩ := hsound printingNest_sound
  refine ⟨s'', r₁, hdone'', ?_⟩
  rw [hext'', hext₁]
  rfl

/-- A function that captures, and then prints: the file stays empty, and the output is on the
screen. -/
theorem output_behind_capture_escapes :
    (shScript fileEnv (shRunSimple fileEnv) 6 fileShell (cstr "f() \x7b\nx=$(echo b)\necho a\n\x7d\nf > g\n")).get?.map
        (fun x => (x.1.world.ext, x.1.kout.screen))
      = some ([(cstr "g", [])], cstr "a\n") := by
  decide +kernel

end VnlKernel
