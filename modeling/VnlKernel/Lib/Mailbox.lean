import VnlKernel.Lib.RingBuf
import VnlKernel.Lib.Run
import Mathlib.Data.List.Infix

/-!
# Mailboxes

A queue of so much room. What is put into it while there is room waits there, what is put into
it when there is none is lost, and what is taken out is what has waited longest. A ring that is
stored to and taken from is one, with room for as many elements as it has slots, but one.

What happened at a mailbox is written down in a log. The log alone says what is lost.
-/

namespace Mailbox

variable {α : Type}

/-- What happens at a mailbox. -/
inductive Event (α : Type) where
  | put (a : α)
  /-- Somebody looks, and takes what is there. -/
  | take (o : Option α)
  /-- What waits is thrown away. -/
  | clear

/-- What waits after an event. -/
def after (room : Nat) (q : List α) : Event α → List α
  | .put a => if q.length < room then q ++ [a] else q
  | .take _ => q.tail
  | .clear => []

/-- Nothing but what has waited longest is taken. -/
def Allowed (q : List α) : Event α → Prop
  | .put _ => True
  | .take o => o = q.head?
  | .clear => True

/-- What was put in, whether there was room or not. -/
def puts : List (Event α) → List α
  | [] => []
  | .put a :: log => a :: puts log
  | .take _ :: log => puts log
  | .clear :: log => puts log

/-- What was taken out. -/
def takes : List (Event α) → List α
  | [] => []
  | .put _ :: log => takes log
  | .take o :: log => o.toList ++ takes log
  | .clear :: log => takes log

variable {room : Nat} {q : List α} {log log' : List (Event α)}

theorem puts_append : puts (log ++ log') = puts log ++ puts log' := by
  induction log with
  | nil => rfl
  | cons e log ih =>
      cases e with
      | put a => simp only [List.cons_append, puts, ih]
      | take o => simp only [List.cons_append, puts, ih]
      | clear => simp only [List.cons_append, puts, ih]

theorem takes_append : takes (log ++ log') = takes log ++ takes log' := by
  induction log with
  | nil => rfl
  | cons e log ih =>
      cases e with
      | put a => simp only [List.cons_append, takes, ih]
      | take o => simp only [List.cons_append, takes, ih, List.append_assoc]
      | clear => simp only [List.cons_append, takes, ih]

/-- **Nothing is made up, doubled or put out of order**: what was taken and what waits is what was
put in, or part of it. -/
theorem takes_append_sublist (h : Run.Allowed (after room) Allowed q log) :
    (takes log ++ log.foldl (after room) q).Sublist (q ++ puts log) := by
  induction log generalizing q with
  | nil => simp [takes, puts]
  | cons e log ih =>
      obtain ⟨hok, hrest⟩ := h
      have ih := ih hrest
      cases e with
      | put a =>
          rw [List.foldl_cons, takes, puts]
          refine ih.trans ?_
          rw [after]
          split
          · rw [List.append_assoc, List.singleton_append]
          · exact List.Sublist.append_left (List.sublist_cons_self a _) q
      | take o =>
          rw [List.foldl_cons, takes, puts, hok, List.append_assoc]
          rw [after] at ih ⊢
          cases q with
          | nil => exact ih
          | cons a q => exact ih.cons_cons a
      | clear =>
          rw [List.foldl_cons, takes, puts]
          exact ih.trans (List.sublist_append_right q (puts log))

/-- There was room for all that was put in, and nothing was thrown away. -/
structure Ample (room : Nat) (log : List (Event α)) : Prop where
  kept : Event.clear ∉ log
  roomy : ∀ p a, p ++ [.put a] <+: log → (puts p).length < (takes p).length + room

/-- **Nothing is lost but for want of room.** -/
theorem takes_append_eq (h : Run.Allowed (after room) Allowed q log) (hkept : Event.clear ∉ log)
    (hroomy : ∀ p a, p ++ [.put a] <+: log → q.length + (puts p).length < (takes p).length + room) :
    takes log ++ log.foldl (after room) q = q ++ puts log := by
  induction log generalizing q with
  | nil => simp [takes, puts]
  | cons e log ih =>
      obtain ⟨hok, hrest⟩ := h
      rw [List.mem_cons, not_or] at hkept
      -- what comes later is an event of the whole log too
      have hlater : ∀ p a, p ++ [.put a] <+: log → q.length + (puts (e :: p)).length
          < (takes (e :: p)).length + room := fun p a hp =>
        hroomy (e :: p) a (by rw [List.cons_append]; exact (List.prefix_cons_inj e).mpr hp)
      cases e with
      | put a =>
          have hroom : q.length < room := by
            have hlt := hroomy [] a (by simp)
            simpa [puts, takes] using hlt
          rw [List.foldl_cons, takes, puts]
          rw [after, if_pos hroom] at hrest ⊢
          rw [ih hrest hkept.2 ?_, List.append_assoc, List.singleton_append]
          intro p b hp
          have hlt := hlater p b hp
          simp only [puts, takes, List.length_cons, List.length_append, List.length_nil] at hlt ⊢
          omega
      | take o =>
          rw [List.foldl_cons, takes, puts, hok, List.append_assoc]
          rw [after] at hrest ⊢
          rw [ih hrest hkept.2 ?_]
          · cases q with
            | nil => rfl
            | cons a q => rfl
          · intro p b hp
            have hlt := hlater p b hp
            rw [puts, takes, hok] at hlt
            cases q with
            | nil => simpa using hlt
            | cons a q =>
                simp only [List.head?_cons, Option.toList_some, List.length_append,
                  List.length_cons, List.length_nil, List.tail_cons] at hlt ⊢
                omega
      | clear => exact absurd rfl hkept.1

/-- What was taken and what waits is all that was put in. -/
theorem Ample.takes_append (h : Ample room log) (hok : Run.Allowed (after room) Allowed [] log) :
    takes log ++ log.foldl (after room) [] = puts log := by
  refine takes_append_eq hok h.kept fun p a hp => ?_
  have hlt := h.roomy p a hp
  simpa using hlt

/-! ## Logs of other things

A system with a mailbox in it keeps a log of what happens everywhere. What it means for the
mailbox is read off one entry after the other, and what came before may matter. -/

variable {E G : Type}

/-- What the entries of a log mean for a mailbox. -/
def feed (f : G → E → G × Option (Event α)) (g : G) : List E → List (Event α)
  | [] => []
  | e :: log => (f g e).2.toList ++ feed f (f g e).1 log

/-- What is kept in mind behind the entries. -/
def feedState (f : G → E → G × Option (Event α)) (g : G) (log : List E) : G :=
  log.foldl (fun g e => (f g e).1) g

variable {f : G → E → G × Option (Event α)} {g g0 : G} {es es' : List E}

theorem feed_append : feed f g (es ++ es') = feed f g es ++ feed f (feedState f g es) es' := by
  induction es generalizing g with
  | nil => rfl
  | cons e es ih => rw [List.cons_append, feed, feed, ih, List.append_assoc]; rfl

theorem feed_singleton (e : E) : feed f g [e] = (f g e).2.toList := by
  rw [feed, feed, List.append_nil]

/-- What is put in, entry by entry. -/
theorem puts_feed (made : G → List E → List α) (h0 : ∀ g, made g [] = [])
    (h : ∀ g e es, made g (e :: es) = puts (f g e).2.toList ++ made (f g e).1 es) :
    puts (feed f g es) = made g es := by
  induction es generalizing g with
  | nil => exact (h0 g).symm
  | cons e es ih => rw [feed, puts_append, ih, h]

/-- What is taken out, entry by entry. -/
theorem takes_feed {got : E → Option α} (h : ∀ g e, takes (f g e).2.toList = (got e).toList) :
    takes (feed f g es) = es.filterMap got := by
  induction es generalizing g with
  | nil => rfl
  | cons e es ih =>
      rw [feed, takes_append, ih, h, List.filterMap_cons]
      cases got e with
      | none => rfl
      | some a => rfl

theorem clear_not_mem_feed (h : ∀ g, ∀ e ∈ es, (f g e).2 ≠ some .clear) :
    Event.clear ∉ feed f g es := by
  induction es generalizing g with
  | nil => simp [feed]
  | cons e es ih =>
      rw [feed, List.mem_append, not_or]
      refine ⟨fun hc => h g e List.mem_cons_self (Option.mem_toList.mp hc), ih fun g e he => ?_⟩
      exact h g e (List.mem_cons_of_mem _ he)

/-- Behind the entries, `g` is kept in mind, and `q` waits in the mailbox. -/
structure Follows (room : Nat) (f : G → E → G × Option (Event α)) (g0 : G) (log : List E) (g : G)
    (q : List α) : Prop where
  state : feedState f g0 log = g
  allowed : Run.Allowed (after room) Allowed [] (feed f g0 log)
  waits : (feed f g0 log).foldl (after room) [] = q

theorem Follows.nil (g0 : G) : Follows room f g0 [] g0 [] := ⟨rfl, trivial, rfl⟩

/-- **One entry more.** -/
theorem Follows.snoc (h : Follows room f g0 es g q) (e : E)
    (hok : ∀ x, (f g e).2 = some x → Allowed q x) :
    Follows room f g0 (es ++ [e]) (f g e).1 ((f g e).2.toList.foldl (after room) q) where
  state := by
    rw [feedState, List.foldl_append]
    change (f (feedState f g0 es) e).1 = _
    rw [h.state]
  allowed := by
    rw [feed_append, h.state, feed_singleton, Run.allowed_append, h.waits]
    refine ⟨h.allowed, ?_⟩
    cases hx : (f g e).2 with
    | none => trivial
    | some x => exact ⟨hok x hx, trivial⟩
  waits := by rw [feed_append, h.state, feed_singleton, List.foldl_append, h.waits]

/-- An entry that means nothing for the mailbox. -/
theorem Follows.skip (h : Follows room f g0 es g q) (e : E) (he : f g e = (g, none)) :
    Follows room f g0 (es ++ [e]) g q := by
  have hs := h.snoc e (by rw [he]; simp)
  rw [he] at hs
  exact hs

theorem Follows.as (h : Follows room f g0 es g q) {g' : G} {q' : List α} (hg : g' = g)
    (hq : q' = q) : Follows room f g0 es g' q' := by rw [hg, hq]; exact h

/-- From where nothing waits on, the rest of the log is a log of its own. -/
theorem Follows.since (h : Follows room f g0 (es ++ es') g q) {g' : G} (hg : feedState f g0 es = g')
    (hempty : (feed f g0 es).foldl (after room) [] = []) : Follows room f g' es' g q where
  state := by
    have hs := h.state
    rw [feedState, List.foldl_append] at hs
    rw [← hg]
    exact hs
  allowed := by
    have ha := h.allowed
    rw [feed_append, hg, Run.allowed_append, hempty] at ha
    exact ha.2
  waits := by
    have hw := h.waits
    rw [feed_append, hg, List.foldl_append, hempty] at hw
    exact hw

/-- What was taken and what waits is what was put in, or part of it. -/
theorem Follows.sublist (h : Follows room f g0 es g q) :
    (takes (feed f g0 es) ++ q).Sublist (puts (feed f g0 es)) := by
  have hs := takes_append_sublist h.allowed
  rw [h.waits] at hs
  exact hs

/-- A put is the meaning of one entry, and all before it is that of the entries before. -/
theorem exists_entry : ∀ {es : List E} {g : G} {p : List (Event α)} {a : α},
    p ++ [.put a] <+: feed f g es → ∃ p', p' <+: es ∧ feed f g p' = p ++ [.put a]
  | [], g, p, a, hp => by
      rw [feed, List.prefix_nil] at hp
      exact absurd hp (by simp)
  | e :: es, g, p, a, hp => by
      rw [feed] at hp
      cases he : (f g e).2 with
      | none =>
          rw [he, Option.toList_none, List.nil_append] at hp
          obtain ⟨p', h1, h2⟩ := exists_entry hp
          exact ⟨e :: p', (List.prefix_cons_inj e).mpr h1, by rw [feed, he, h2]; rfl⟩
      | some x =>
          rw [he, Option.toList_some, List.singleton_append] at hp
          cases p with
          | nil =>
              obtain ⟨hx, -⟩ := List.cons_prefix_cons.mp hp
              exact ⟨[e], (List.prefix_cons_inj e).mpr
                List.nil_prefix, by rw [feed_singleton, he, ← hx]; rfl⟩
          | cons y p =>
              obtain ⟨hx, hp⟩ := List.cons_prefix_cons.mp hp
              obtain ⟨p', h1, h2⟩ := exists_entry hp
              exact ⟨e :: p', (List.prefix_cons_inj e).mpr h1, by rw [feed, he, h2, hx]; rfl⟩

/-- At no time was more put in and not taken than there is room for. -/
theorem ample_feed (hkept : Event.clear ∉ feed f g es)
    (hroom : ∀ p, p <+: es → (puts (feed f g p)).length ≤ (takes (feed f g p)).length + room) :
    Ample room (feed f g es) where
  kept := hkept
  roomy := by
    intro p a hp
    obtain ⟨p', h1, h2⟩ := exists_entry hp
    have hle := hroom p' h1
    rw [h2, puts_append, takes_append, List.length_append, List.length_append] at hle
    simp only [puts, takes, List.length_cons, List.length_nil] at hle
    omega

theorem Follows.eq_of_ample (h : Follows room f g0 es g q) (ha : Ample room (feed f g0 es)) :
    takes (feed f g0 es) ++ q = puts (feed f g0 es) := by
  have he := ha.takes_append h.allowed
  rw [h.waits] at he
  exact he

end Mailbox

/-! ## Rings -/

namespace RingBuf

variable {α : Type} {cap : Nat} [NeZero cap]

/-- Store one element, or lose it if the ring is full. -/
def offer (r : RingBuf α cap) (a : α) : RingBuf α cap := (r.push a).getD r

/-- Take one element, if there is any. -/
def poll (r : RingBuf α cap) : Option α × RingBuf α cap :=
  match r.pop with
  | none => (none, r)
  | some (a, r) => (some a, r)

/-- **A ring is a mailbox.** -/
theorem toList_offer (r : RingBuf α cap) (a : α) :
    (r.offer a).toList = Mailbox.after (cap - 1) r.toList (.put a) := by
  have hlt := r.length_lt
  unfold offer
  rw [Mailbox.after]
  cases hp : r.push a with
  | none =>
      have hfull := r.push_none.mp hp
      rw [← length_toList] at hfull
      rw [if_neg (by omega)]
      rfl
  | some r' =>
      have hfull : ¬ r.count + 1 = cap := fun h => by
        rw [r.push_none.mpr h] at hp
        cases hp
      rw [← length_toList] at hfull
      rw [if_pos (by omega)]
      exact toList_push hp

theorem poll_fst (r : RingBuf α cap) : r.poll.1 = r.toList.head? := by
  unfold poll
  cases hp : r.pop with
  | none => rw [r.pop_none.mp hp]; rfl
  | some x => rw [toList_pop hp]; rfl

theorem toList_poll (r : RingBuf α cap) (o : Option α) :
    r.poll.2.toList = Mailbox.after (cap - 1) r.toList (.take o) := by
  rw [Mailbox.after]
  unfold poll
  cases hp : r.pop with
  | none =>
      dsimp only
      rw [r.pop_none.mp hp]
      rfl
  | some x =>
      rw [toList_pop hp]
      rfl

end RingBuf
