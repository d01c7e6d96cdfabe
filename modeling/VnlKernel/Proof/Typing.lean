import VnlKernel.Proof.LineEditor
import VnlKernel.Proof.Ps2Run

/-!
# Typing

A typist presses keys, holds a Shift while typing as much as needs it, locks the capitals and lets
go of keys whenever it pleases. The keyboard's interrupt takes the scan codes, programs look for
keys meanwhile, and the shell's `readline` gets what was typed: the line editor makes of it what it
would make of the keys themselves. -/

namespace VnlKernel

open LineZipper Ps2Event

/-- What comes out with Caps Lock, or without. -/
def shown (caps : Bool) (c : UInt8) : UInt8 :=
  if caps ∧ c ≥ 0x61 ∧ c ≤ 0x7A then c - 0x61 + 0x41 else c

/-- The characters that a keyboard is asked for, and the scan codes that it sends, from a time on
when the Shift key `held` is held, if one is, and Caps Lock is on or off. One Shift is used at a
time. -/
inductive Typing : Option UInt8 → Bool → List UInt8 → List UInt8 → Prop
  | nil {held : Option UInt8} {caps : Bool} : Typing held caps [] []
  /-- A key that has a character. -/
  | plain {caps : Bool} {code : UInt8} {text wire : List UInt8} : scLower code ≠ 0 →
      Typing none caps text wire →
      Typing none caps (shown caps (scLower code) :: text) (code :: wire)
  | shifted {shift : UInt8} {caps : Bool} {code : UInt8} {text wire : List UInt8} :
      scUpper code ≠ 0 → Typing (some shift) caps text wire →
      Typing (some shift) caps (scUpper code :: text) (code :: wire)
  /-- A key that has a code of its own. -/
  | ext {held : Option UInt8} {caps : Bool} {code : UInt8} {text wire : List UInt8} :
      extKey code ≠ 0 → Typing held caps text wire →
      Typing held caps (extKey code :: text) (0xE0 :: code :: wire)
  /-- A Shift is pressed, or is held so long that its code comes again. -/
  | hold {held : Option UInt8} {shift : UInt8} {caps : Bool} {text wire : List UInt8} :
      shift = 0x2A ∨ shift = 0x36 → (∀ b, held = some b → b = shift) →
      Typing (some shift) caps text wire → Typing held caps text (shift :: wire)
  | letGo {shift : UInt8} {caps : Bool} {text wire : List UInt8} : shift = 0x2A ∨ shift = 0x36 →
      Typing none caps text wire → Typing (some shift) caps text ((shift ||| 0x80) :: wire)
  | capsLock {held : Option UInt8} {caps : Bool} {text wire : List UInt8} :
      Typing held (!caps) text wire → Typing held caps text (0x3A :: wire)
  /-- Another key is let go of. -/
  | release {held : Option UInt8} {caps : Bool} {b : UInt8} {text wire : List UInt8} :
      b &&& 0x80 ≠ 0 → b ≠ 0xE0 → b ≠ 0xAA → b ≠ 0xB6 → Typing held caps text wire →
      Typing held caps text (b :: wire)
  /-- A key behind `0xE0` is let go of, or has no code. -/
  | extNothing {held : Option UInt8} {caps : Bool} {b : UInt8} {text wire : List UInt8} :
      b ≠ 0xE0 → b &&& 0x80 ≠ 0 ∨ extKey (b &&& 0x7F) = 0 → Typing held caps text wire →
      Typing held caps text (0xE0 :: b :: wire)

namespace Keymap

/-- A key that has a character types it. -/
theorem decode_plain (caps : Bool) (b : UInt8) : scLower b ≠ 0 →
    decode ⟨false, caps, false⟩ b = (⟨false, caps, false⟩, some (shown caps (scLower b))) := by
  revert b
  cases caps with
  | false => exact forall_byte (by decide +kernel)
  | true => exact forall_byte (by decide +kernel)

/-- With Shift it types the other one, Caps Lock or not. -/
theorem decode_shifted (caps : Bool) (b : UInt8) : scUpper b ≠ 0 →
    decode ⟨true, caps, false⟩ b = (⟨true, caps, false⟩, some (scUpper b)) := by
  revert b
  cases caps with
  | false => exact forall_byte (by decide +kernel)
  | true => exact forall_byte (by decide +kernel)

theorem decode_behind (shift caps : Bool) :
    decode ⟨shift, caps, false⟩ 0xE0 = (⟨shift, caps, true⟩, none) := by
  cases shift <;> cases caps <;> decide

/-- A key without a character types its code. -/
theorem decode_ext (shift caps : Bool) (b : UInt8) : extKey b ≠ 0 →
    decode ⟨shift, caps, true⟩ b = (⟨shift, caps, false⟩, some (extKey b)) := by
  revert b
  cases shift <;> cases caps <;> exact forall_byte (by decide +kernel)

theorem decode_extNothing (shift caps : Bool) (b : UInt8) :
    b ≠ 0xE0 → b &&& 0x80 ≠ 0 ∨ extKey (b &&& 0x7F) = 0 →
    decode ⟨shift, caps, true⟩ b = (⟨shift, caps, false⟩, none) := by
  revert b
  cases shift <;> cases caps <;> exact forall_byte (by decide +kernel)

theorem decode_hold (shift caps : Bool) {b : UInt8} (hb : b = 0x2A ∨ b = 0x36) :
    decode ⟨shift, caps, false⟩ b = (⟨true, caps, false⟩, none)
      ∧ decode ⟨shift, caps, false⟩ (b ||| 0x80) = (⟨false, caps, false⟩, none) := by
  rcases hb with rfl | rfl <;> cases shift <;> cases caps <;> decide

theorem decode_capsLock (shift caps : Bool) :
    decode ⟨shift, caps, false⟩ 0x3A = (⟨shift, !caps, false⟩, none) := by
  cases shift <;> cases caps <;> decide

/-- Letting go of a key types nothing. -/
theorem decode_release (shift caps : Bool) (b : UInt8) :
    b &&& 0x80 ≠ 0 → b ≠ 0xE0 → b ≠ 0xAA → b ≠ 0xB6 →
    decode ⟨shift, caps, false⟩ b = (⟨shift, caps, false⟩, none) := by
  revert b
  cases shift <;> cases caps <;> exact forall_byte (by decide +kernel)

/-- What a byte types, and what the rest types behind it. -/
theorem types_cons {km km' : Keymap} {b : UInt8} {o : Option UInt8} (h : km.decode b = (km', o))
    (wire : List UInt8) : km.types (b :: wire) = o.toList ++ km'.types wire := by
  rw [types, h]

end Keymap

open Keymap in
/-- **The scan codes of a text type the text.** -/
theorem Typing.types {held : Option UInt8} {caps : Bool} {text wire : List UInt8}
    (h : Typing held caps text wire) : Keymap.types ⟨held.isSome, caps, false⟩ wire = text := by
  induction h with
  | nil => rfl
  | plain hc _ ih =>
      rw [Option.isSome_none, types_cons (decode_plain _ _ hc), ← ih]
      rfl
  | shifted hc _ ih =>
      rw [Option.isSome_some, types_cons (decode_shifted _ _ hc), ← ih]
      rfl
  | ext hc _ ih => rw [types_cons (decode_behind _ _), types_cons (decode_ext _ _ _ hc), ← ih]; rfl
  | hold hb _ _ ih => rw [types_cons (decode_hold _ _ hb).1, ← ih]; rfl
  | letGo hb _ ih => rw [types_cons (decode_hold _ _ hb).2, ← ih]; rfl
  | capsLock _ ih => rw [types_cons (decode_capsLock _ _), ← ih]; rfl
  | release h1 h2 h3 h4 _ ih => rw [types_cons (decode_release _ _ _ h1 h2 h3 h4), ← ih]; rfl
  | extNothing h1 h2 _ ih =>
      rw [types_cons (decode_behind _ _), types_cons (decode_extNothing _ _ _ h1 h2), ← ih]
      rfl

/-! ## To the line editor -/

/-- **A line that is typed is the line that is read**, however its keys, the interrupts and the
looks for keys follow each other: what `readline` is given is the text up to Enter, each key once
and in the order in which they were pressed, and it returns what the editor makes of them. No more
than 255 keys have ever to wait. -/
theorem typed_line_is_read {s0 s : Ps2} {log : List Ps2Event} (h0 : s0.Booted)
    (hrun : Run.Trace Ps2.Step s0 log s) {line later : List UInt8}
    (htext : Typing none false (line ++ 0x0A :: later) (log.filterMap scan?))
    (hline : (0x0A : UInt8) ∉ line)
    (hroom : ∀ p, p <+: log → (typedKeys p).length ≤ (p.filterMap key?).length + 255)
    (hread : line.length < (log.filterMap key?).length) (h : History)
    (hrows : ∀ i, (0 : UInt8) ∉ h.row i) (v : Vga) (buf : ByteMem.Mem) {maxlen : Nat}
    (hmax : 2 ≤ maxlen) :
    ∃ p v₀ r, (startLine v maxlen).out = .done (p, v₀)
      ∧ (readline h v buf maxlen ((log.filterMap key?).map .key)).out = .done r
      ∧ CString.StrAt r.buf 0 (editorRun (recallText h p.limit) p.limit h.count ⟨.empty, h.count⟩
          (line.map .key)).line.text := by
  -- what the shell was given is the text, as far as it has got
  have hkeys := (ps2_keys h0 hrun).whole hroom
  have htyped : typedKeys log = line ++ 0x0A :: later := htext.types
  rw [htyped] at hkeys
  obtain ⟨rest, hgot⟩ : ∃ rest, log.filterMap key? = line ++ 0x0A :: rest := by
    have hpre : line ++ [0x0A] <+: log.filterMap key? := by
      have hline : line ++ [0x0A] <+: line ++ 0x0A :: later := ⟨later, by simp⟩
      refine List.prefix_of_prefix_length_le hline ⟨_, hkeys⟩ ?_
      rw [List.length_append, List.length_singleton]
      omega
    obtain ⟨rest, hrest⟩ := hpre
    exact ⟨rest, by rw [← hrest]; simp⟩
  have hplain : ∀ i ∈ line.map Input.key, ¬ i.IsEnter := by
    intro i hi
    obtain ⟨c, hc, rfl⟩ := List.mem_map.mp hi
    intro he
    have hall : ∀ c : UInt8, (Input.key c).IsEnter → c = 0x0A := forall_byte (by decide +kernel)
    exact hline (hall c he ▸ hc)
  obtain ⟨p, v₀, hreads⟩ := readline_reads v buf (rest.map .key) hmax hrows hplain
    (show (Input.key 0x0A).IsEnter by decide)
  obtain ⟨r, hr, -, hstr⟩ := hreads.returns
  refine ⟨p, v₀, r, hreads.start, ?_, hstr⟩
  rw [hgot, List.map_append, List.map_cons]
  exact hr

/-- `A` and `B` with one Shift, which is let go of before the second key is; `c` with Caps Lock; and
Enter. A byte of the mouse comes between, and keys are looked for before all have come. -/
def typedActs : List Ps2Act :=
  struck 0x2A ++ struck 0x1E ++ struck 0x9E ++ [.poll] ++ struck 0x30 ++ struck 0xAA ++ struck 0xB0
    ++ [.arrive ⟨true, 0x08⟩] ++ struck 0x3A ++ [.poll, .poll] ++ struck 0xBA ++ struck 0x2E
    ++ struck 0x1C ++ [.poll, .poll]

theorem typed_line_is_read_capitals : ∃ s log, Run.Trace Ps2.Step ps2Boot log s
    ∧ log.filterMap scan? = [0x2A, 0x1E, 0x9E, 0x30, 0xAA, 0xB0, 0x3A, 0xBA, 0x2E, 0x1C]
    ∧ log.filterMap key? = [0x41, 0x42, 0x43, 0x0A]
    ∧ ∃ p v₀ r, (startLine blankVga cmdMax).out = .done (p, v₀)
      ∧ (readline ⟨fun _ => [], 0⟩ blankVga (fun _ => 0) cmdMax ((log.filterMap key?).map .key)).out
        = .done r
      ∧ CString.StrAt r.buf 0 (editorRun (recallText ⟨fun _ => [], 0⟩ p.limit) p.limit 0 ⟨.empty, 0⟩
          ([0x41, 0x42, 0x43].map .key)).line.text := by
  have hscan : (ps2Boot.acts typedActs).1.filterMap scan?
      = [0x2A, 0x1E, 0x9E, 0x30, 0xAA, 0xB0, 0x3A, 0xBA, 0x2E, 0x1C] := by decide +kernel
  have hkeys : (ps2Boot.acts typedActs).1.filterMap key? = [0x41, 0x42, 0x43, 0x0A] := by
    decide +kernel
  have hrun := ps2Boot.acts_trace typedActs
  have htext : Typing none false ([0x41, 0x42, 0x43] ++ 0x0A :: [])
      [0x2A, 0x1E, 0x9E, 0x30, 0xAA, 0xB0, 0x3A, 0xBA, 0x2E, 0x1C] :=
    .hold (Or.inl rfl) (fun b hb => by cases hb) (.shifted (show scUpper 0x1E ≠ 0 by decide)
      (.release (by decide) (by decide) (by decide) (by decide)
        (.shifted (show scUpper 0x30 ≠ 0 by decide)
        (.letGo (Or.inl rfl) (.release (by decide) (by decide) (by decide) (by decide)
          (.capsLock (.release (by decide) (by decide) (by decide) (by decide)
            (.plain (show scLower 0x2E ≠ 0 by decide)
              (.plain (show scLower 0x1C ≠ 0 by decide) .nil)))))))))
  refine ⟨_, _, hrun, hscan, hkeys, typed_line_is_read ps2Boot_booted hrun 
    (hscan.symm ▸ htext) (by decide) (fun p hp => ?_) (by rw [hkeys]; decide) ⟨fun _ => [], 0⟩
    (fun _ => List.not_mem_nil) blankVga (fun _ => 0) (show 2 ≤ cmdMax by decide)⟩
  have hlen : p.length ≤ 27 := hp.length_le
  have htypes := Keymap.idle.length_types (p.filterMap scan?)
  have hle := List.length_filterMap_le scan? p
  change (Keymap.idle.types (p.filterMap scan?)).length ≤ _
  omega

end VnlKernel
