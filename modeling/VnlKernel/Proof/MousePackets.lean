import VnlKernel.Proof.Ps2Run

/-!
# The mouse's packets

The driver tells where a packet begins by bit 3 of its first byte alone. Bytes that it is not
given, because the keyboard's interrupt took them, put it out of step, and it cannot see that:
what it then takes for the buttons is the end of one packet or the middle. It falls back into
step at a packet whose other bytes do not have that bit.
-/

namespace VnlKernel

open Ps2Event Mailbox

/-- What the mouse sends. -/
structure WirePacket where
  flags : UInt8
  dx : UInt8
  dy : UInt8
  /-- Bit 3 is always set. -/
  sync : flags &&& 0x08 ≠ 0

namespace WirePacket

def wire (w : WirePacket) : List UInt8 := [w.flags, w.dx, w.dy]

/-- What it means. -/
def meaning (w : WirePacket) : MouseMove := ⟨toInt8 w.dx, toInt8 w.dy, w.flags &&& 7⟩

/-- Nothing but its first byte looks like one. -/
structure Quiet (w : WirePacket) : Prop where
  dx : w.dx &&& 0x08 = 0
  dy : w.dy &&& 0x08 = 0

/-- The bytes of some packets. -/
def wires (ws : List WirePacket) : List UInt8 := ws.flatMap wire

end WirePacket

open WirePacket

/-- A packet that is taken from its beginning. -/
theorem packets_wire (w : WirePacket) (bytes : List UInt8) :
    packets [] (w.wire ++ bytes) = w.meaning :: packets [] bytes := by
  have h1 : assemble [] w.flags = ([w.flags], none) := by
    rw [assemble, if_neg fun h => w.sync h.2]
    rfl
  have h2 : assemble [w.flags] w.dx = ([w.flags, w.dx], none) := by
    rw [assemble, if_neg (by simp)]
    rfl
  have h3 : assemble [w.flags, w.dx] w.dy = ([], some w.meaning) := by
    rw [assemble, if_neg (by simp)]
    rfl
  rw [wire, List.cons_append, packets, h1, List.cons_append, packets, h2, List.cons_append, packets,
    h3]
  rfl

/-- **Packets that are taken whole are told apart.** -/
theorem packets_wires (ws : List WirePacket) : packets [] (wires ws) = ws.map meaning := by
  induction ws with
  | nil => rfl
  | cons w ws ih =>
      rw [wires, List.flatMap_cons, packets_wire]
      exact congrArg (w.meaning :: ·) ih

/-- A packet is never more than begun. -/
theorem length_leftOver {pkt : List UInt8} (hpkt : pkt.length < 3) (bytes : List UInt8) :
    (leftOver pkt bytes).length < 3 := by
  induction bytes generalizing pkt with
  | nil => exact hpkt
  | cons b bytes ih =>
      change (leftOver (assemble pkt b).1 bytes).length < 3
      refine ih ?_
      unfold assemble
      split
      · exact hpkt
      · split
        · next h => exact h
        · exact Nat.zero_lt_succ 2

/-- A byte that cannot be a first one is skipped. -/
theorem packets_skip {b : UInt8} (hb : b &&& 0x08 = 0) (bytes : List UInt8) :
    packets [] (b :: bytes) = packets [] bytes := by
  have h1 : assemble [] b = ([], none) := by rw [assemble, if_pos ⟨rfl, hb⟩]
  rw [packets, h1]
  rfl

/-- **Whatever is left over, a quiet packet puts the driver back in step**: at most one packet comes
of it, and the next byte is taken for a first one. -/
theorem packets_quiet {w : WirePacket} (hw : w.Quiet) {pkt : List UInt8} (hpkt : pkt.length < 3)
    (bytes : List UInt8) :
    ∃ p, packets pkt (w.wire ++ bytes) = p :: packets [] bytes := by
  match pkt, hpkt with
  | [], _ => exact ⟨w.meaning, packets_wire w bytes⟩
  | [a], _ =>
      -- the packet begun is ended by `dx`, and `dy` is skipped
      have h1 : assemble [a] w.flags = ([a, w.flags], none) := by
        rw [assemble, if_neg (by simp)]
        rfl
      have h2 : assemble [a, w.flags] w.dx = ([], some ⟨toInt8 w.flags, toInt8 w.dx, a &&& 7⟩) := by
        rw [assemble, if_neg (by simp)]
        rfl
      refine ⟨⟨toInt8 w.flags, toInt8 w.dx, a &&& 7⟩, ?_⟩
      rw [wire, List.cons_append, packets, h1, List.cons_append, packets, h2, List.cons_append,
        packets_skip hw.dy]
      rfl
  | [a, a'], _ =>
      -- the packet begun is ended by the buttons, and the rest is skipped
      have h1 : assemble [a, a'] w.flags = ([], some ⟨toInt8 a', toInt8 w.flags, a &&& 7⟩) := by
        rw [assemble, if_neg (by simp)]
        rfl
      refine ⟨⟨toInt8 a', toInt8 w.flags, a &&& 7⟩, ?_⟩
      rw [wire, List.cons_append, packets, h1, List.cons_append, packets_skip hw.dx,
        List.cons_append, packets_skip hw.dy]
      rfl

/-- A packet takes three bytes. -/
theorem length_packets {pkt : List UInt8} (hpkt : pkt.length < 3) (bytes : List UInt8) :
    3 * (packets pkt bytes).length ≤ pkt.length + bytes.length := by
  induction bytes generalizing pkt with
  | nil => simp [packets]
  | cons b bytes ih =>
      rw [packets, List.length_append, List.length_cons]
      unfold assemble
      split
      · have hrest := ih hpkt
        simp only [Option.toList_none, List.length_nil]
        omega
      · split
        · next h =>
            have hrest := ih h
            rw [List.length_append] at hrest
            simp only [Option.toList_none, List.length_nil, List.length_singleton] at hrest ⊢
            omega
        · next h =>
            have hrest := ih (show ([] : List UInt8).length < 3 by decide)
            rw [List.length_append, List.length_singleton] at h
            simp only [Option.toList_some, List.length_singleton, List.length_nil] at hrest ⊢
            omega

/-! ## Runs -/

section Logs

variable {log : List Ps2Event}

/-- A byte of the mouse that its interrupt took. -/
def mouseByte? : Ps2Event → Option UInt8
  | .mouseTook b => if b.aux then some b.data else none
  | _ => none

/-- The packets that the driver made out. What is begun is given up when the driver is flushed. -/
def madeOut (pkt : List UInt8) : List Ps2Event → List MouseMove
  | [] => []
  | .mouseTook b :: log =>
      if b.aux then (assemble pkt b.data).2.toList ++ madeOut (assemble pkt b.data).1 log
      else madeOut pkt log
  | .flush :: log => madeOut [] log
  | _ :: log => madeOut pkt log

theorem puts_moveFeed (pkt : List UInt8) : puts (feed moveFeed pkt log) = madeOut pkt log := by
  refine puts_feed madeOut (fun _ => rfl) fun pkt e es => ?_
  cases e with
  | mouseTook b =>
      rw [moveFeed, madeOut]
      split
      · change _ = puts ((assemble pkt b.data).2.map Event.put).toList ++ _
        cases (assemble pkt b.data).2 with
        | none => rfl
        | some p => rfl
      · rfl
  | _ => rfl

theorem takes_moveFeed (pkt : List UInt8) :
    takes (feed moveFeed pkt log) = log.filterMap move? := by
  refine takes_feed fun pkt e => ?_
  cases e with
  | mouseTook b =>
      unfold moveFeed move?
      dsimp only
      split
      · cases (assemble pkt b.data).2 with
        | none => rfl
        | some p => rfl
      · rfl
  | move o =>
      change o.toList ++ [] = o.toList
      rw [List.append_nil]
  | _ => rfl

theorem clear_moveFeed (hflush : Ps2Event.flush ∉ log) (pkt : List UInt8) :
    Event.clear ∉ feed moveFeed pkt log := by
  refine clear_not_mem_feed fun pkt e he => ?_
  cases e with
  | mouseTook b =>
      rw [moveFeed]
      split
      · cases (assemble pkt b.data).2 <;> simp
      · simp
  | flush => exact absurd he hflush
  | _ => simp [moveFeed]

/-- Where the driver is not flushed, the bytes are all that counts. -/
theorem madeOut_eq (hflush : Ps2Event.flush ∉ log) (pkt : List UInt8) :
    madeOut pkt log = packets pkt (log.filterMap mouseByte?) := by
  induction log generalizing pkt with
  | nil => rfl
  | cons e log ih =>
      rw [List.mem_cons, not_or] at hflush
      rw [List.filterMap_cons]
      cases e with
      | mouseTook b =>
          rw [madeOut, mouseByte?]
          split
          · rw [packets, ih hflush.2]
          · exact ih hflush.2 pkt
      | flush => exact absurd rfl hflush.1
      | _ => exact ih hflush.2 pkt

theorem length_madeOut (hflush : Ps2Event.flush ∉ log) : (madeOut [] log).length ≤ log.length := by
  have hlen := length_packets (show [].length < 3 by decide) (log.filterMap mouseByte?)
  have hle := List.length_filterMap_le mouseByte? log
  rw [madeOut_eq hflush]
  simp only [List.length_nil] at hlen
  omega

end Logs

/-- The mouse's ring in a run. -/
theorem ps2_moves {s0 s : Ps2} {log : List Ps2Event} (h0 : s0.Booted)
    (h : Run.Trace Ps2.Step s0 log s) :
    (log.filterMap move? ++ s.mouse.q.toList).Sublist (madeOut [] log)
      ∧ (Ps2Event.flush ∉ log → InOrder 63 (madeOut [])
      (List.filterMap move?) log s.mouse.q.toList) := by
  have hinv := h0.run h
  have hs := hinv.moves.sublist
  rw [takes_moveFeed, puts_moveFeed] at hs
  refine ⟨hs, fun hflush => ⟨hs, fun hroom => ?_⟩⟩
  have he := hinv.moves.eq_of_ample (ample_feed (clear_moveFeed hflush _) fun p hp => by
    rw [takes_moveFeed, puts_moveFeed]
    exact hroom p hp)
  rw [takes_moveFeed, puts_moveFeed] at he
  exact he

/-- **The moves that programs are given are those that the mouse made**, in order and nothing twice,
where its packets are taken whole by its own interrupt; and none is missing unless 63 of them wait
or the driver is flushed. -/
theorem ps2_moves_in_order {s0 s : Ps2} {log : List Ps2Event} (h0 : s0.Booted)
    (h : Run.Trace Ps2.Step s0 log s) (hflush : Ps2Event.flush ∉ log) {ws : List WirePacket}
    (hws : log.filterMap mouseByte? = wires ws) :
    (log.filterMap move? ++ s.mouse.q.toList).Sublist (ws.map meaning)
      ∧ ((∀ p, p <+: log → (madeOut [] p).length ≤ (p.filterMap move?).length + 63) →
        log.filterMap move? ++ s.mouse.q.toList = ws.map meaning) := by
  obtain ⟨hpart, hwhole⟩ := (ps2_moves h0 h).2 hflush
  rw [madeOut_eq hflush, hws, packets_wires] at hpart hwhole
  exact ⟨hpart, hwhole⟩

/-- The mouse goes to the right, with a button held. -/
def rightPacket : WirePacket := ⟨0x09, 3, 0, by decide⟩

/-- Its bytes arrive between two of the keyboard's. -/
theorem ps2_moves_in_order_right : ∃ s log, Run.Trace Ps2.Step ps2Boot log s
    ∧ (log.filterMap move? ++ s.mouse.q.toList).Sublist [⟨3, 0, 1⟩] := by
  have h := ((((Run.Trace.one (Ps2.Step.arrive ps2Boot ⟨true, 0x09⟩)).snoc
    (.arrive _ ⟨false, 0x1E⟩)).snoc
    (.arrive _ ⟨true, 3⟩)).snoc (.arrive _ ⟨true, 0⟩)).snoc (.mouseIrq _)
  exact ⟨_, _, h, (ps2_moves_in_order ps2Boot_booted h (by simp [ps2Boot])
    (show _ = wires [rightPacket] from rfl)).1⟩

/-- Nothing has been flushed since. -/
structure SinceFlush (pre post : List Ps2Event) : Prop where
  begins : pre = [] ∨ ∃ p, pre = p ++ [.flush]
  quiet : Ps2Event.flush ∉ post

/-- The driver and its ring are empty behind a flush. -/
theorem SinceFlush.empty {pre post : List Ps2Event} (h : SinceFlush pre post) :
    feedState moveFeed [] pre = [] ∧ (feed moveFeed [] pre).foldl (after (mouseQueue - 1)) []
      = [] := by
  rcases h.begins with rfl | ⟨p, rfl⟩
  · exact ⟨rfl, rfl⟩
  · rw [feed_append, feedState, List.foldl_append, List.foldl_append]
    exact ⟨rfl, rfl⟩

/-- **Out of step, the driver finds its way back**: whatever bytes it was given since it was last
flushed, and of whatever packets they were torn, behind the first quiet packet all are made out
again; and programs are given what was made out. -/
theorem ps2_moves_resync {s0 s : Ps2} {pre post : List Ps2Event} (h0 : s0.Booted)
    (h : Run.Trace Ps2.Step s0 (pre ++ post) s) (hsince : SinceFlush pre post)
    {torn : List UInt8} {w : WirePacket} {ws : List WirePacket} (hw : w.Quiet)
    (hbytes : post.filterMap mouseByte? = torn ++ w.wire ++ wires ws) :
    ∃ before, madeOut [] post = before ++ ws.map meaning ∧ 3 * before.length ≤ torn.length + 3
      ∧ (post.filterMap move? ++ s.mouse.q.toList).Sublist (before ++ ws.map meaning)
      ∧ ((∀ p, p <+: post → (madeOut [] p).length ≤ (p.filterMap move?).length + 63) →
        post.filterMap move? ++ s.mouse.q.toList = before ++ ws.map meaning) := by
  obtain ⟨p, hp⟩ := packets_quiet hw (length_leftOver (show [].length < 3 by decide) torn)
    (wires ws)
  have hmade : madeOut [] post = (packets [] torn ++ [p]) ++ ws.map meaning := by
    rw [madeOut_eq hsince.quiet, hbytes, List.append_assoc, packets_append, hp, packets_wires,
      List.append_assoc]
    rfl
  have hring := (h0.run h).moves.since hsince.empty.1 hsince.empty.2
  refine ⟨packets [] torn ++ [p], hmade, ?_, ?_, fun hroom => ?_⟩
  · have hlen := length_packets (show [].length < 3 by decide) torn
    rw [List.length_append, List.length_singleton]
    simp only [List.length_nil] at hlen
    omega
  · have hs := hring.sublist
    rw [takes_moveFeed, puts_moveFeed, hmade] at hs
    exact hs
  · have he := hring.eq_of_ample (ample_feed (clear_moveFeed hsince.quiet _) fun p hp => by
      rw [takes_moveFeed, puts_moveFeed]
      exact hroom p hp)
    rw [takes_moveFeed, puts_moveFeed, hmade] at he
    exact he

/-- The driver is flushed with a packet begun. -/
def flushLog : List Ps2Event := [.arrive ⟨true, 0x08⟩, .mouseTook ⟨true, 0x08⟩, .flush]

def flushed : Ps2 :=
  { ps2Boot with mouse := (Mouse.flush [] (Mouse.irq [⟨true, 0x08⟩] ps2Boot.mouse).2).2 }

theorem flushLog_run : Run.Trace Ps2.Step ps2Boot flushLog flushed :=
  ((Run.Trace.one (Ps2.Step.arrive ps2Boot ⟨true, 0x08⟩)).snoc (.mouseIrq _)).snoc (.flush _)

/-- The keyboard's interrupt takes the first byte of a packet; two more packets come. -/
def tornActs : List Ps2Act :=
  [.arrive ⟨true, 0x08⟩, .kbdIrq] ++ ([0xFF, 0xFF, 0x09, 3, 0, 0x09, 3, 0].map fun b => .arrive ⟨true, b⟩)
    ++ [.mouseIrq, .readMouse 3]

theorem ps2_moves_resync_torn : ∃ s post, Run.Trace Ps2.Step ps2Boot (flushLog ++ post) s
    ∧ ∃ before, 3 * before.length ≤ [(0xFF : UInt8), 0xFF].length + 3
      ∧ post.filterMap move? ++ s.mouse.q.toList = before ++ [⟨3, 0, 1⟩] := by
  have h := flushLog_run.append (flushed.acts_trace tornActs)
  have hsince : SinceFlush flushLog (flushed.acts tornActs).1 :=
    ⟨Or.inr ⟨[.arrive ⟨true, 0x08⟩, .mouseTook ⟨true, 0x08⟩], rfl⟩, by decide⟩
  obtain ⟨before, -, hlen, -, hall⟩ := ps2_moves_resync ps2Boot_booted h hsince
    (show rightPacket.Quiet from ⟨rfl, rfl⟩)
    (show _ = [0xFF, 0xFF] ++ rightPacket.wire ++ wires [rightPacket] from rfl)
  refine ⟨_, _, h, before, hlen, hall fun p hp => ?_⟩
  have hflush : Ps2Event.flush ∉ p := fun hc => hsince.quiet (hp.subset hc)
  have hlen : p.length ≤ 19 := hp.length_le
  exact Nat.le_trans (length_madeOut hflush) (by omega)

end VnlKernel
