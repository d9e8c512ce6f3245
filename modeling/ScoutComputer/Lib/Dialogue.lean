import ScoutComputer.Lib.Lively
import ScoutComputer.Lib.Steps

/-!
# Dialogues between a program and a peer

A dialogue lists the bytes (of any type) that two parties say to each other, in order. A
program follows it when it only says what is next, and waits only while the next byte is
the peer's. The peer keeps to the dialogue in any pieces; what is under way in either
direction has been said and not yet heard. If the program is live against its dialogue,
the exchange can be completed from wherever it has got to.
-/

namespace Interact

/-- One byte of a dialogue, seen from one of its sides. -/
inductive Turn (β : Type) where
  | say (b : β)
  | hear (b : β)
  deriving DecidableEq

namespace Turn

variable {β : Type}

def saying (bs : List β) : List (Turn β) := bs.map say

def hearing (bs : List β) : List (Turn β) := bs.map hear

/-- The same byte, seen from the other side. -/
def dual : Turn β → Turn β
  | say b => hear b
  | hear b => say b

/-- A dialogue seen from the other side. -/
def dualAll (d : List (Turn β)) : List (Turn β) := d.map dual

variable {bs cs : List β} {d e : List (Turn β)}

@[simp] theorem hearing_nil : hearing ([] : List β) = [] := rfl

@[simp] theorem saying_length : (saying bs).length = bs.length := List.length_map _
@[simp] theorem hearing_length : (hearing bs).length = bs.length := List.length_map _

theorem hearing_append : hearing (bs ++ cs) = hearing bs ++ hearing cs := List.map_append

@[simp] theorem hearing_eq_nil : hearing bs = [] ↔ bs = [] := List.map_eq_nil_iff

@[simp] theorem dualAll_nil : dualAll ([] : List (Turn β)) = [] := rfl
theorem dualAll_append : dualAll (d ++ e) = dualAll d ++ dualAll e := List.map_append

@[simp] theorem dualAll_saying : dualAll (saying bs) = hearing bs := by
  simp [dualAll, saying, hearing, dual]

@[simp] theorem dualAll_dualAll (d : List (Turn β)) : dualAll (dualAll d) = d := by
  have hdual : (dual : Turn β → Turn β) ∘ dual = id := by
    funext t
    cases t <;> rfl
  rw [dualAll, dualAll, List.map_map, hdual, List.map_id]

theorem dualAll_eq_nil : dualAll d = [] ↔ d = [] := List.map_eq_nil_iff

/-- What is heard next, when that much is still to be heard. -/
theorem hearing_prefix (h : hearing bs <+: hearing cs ++ d) (hlen : bs.length ≤ cs.length) :
    bs <+: cs := by
  have hle : hearing bs <+: hearing cs :=
    List.prefix_of_prefix_length_le h (List.prefix_append _ _) (by simpa using hlen)
  have hinj : Function.Injective (hear : β → Turn β) := fun a b hab => by
    cases hab
    rfl
  exact (List.prefix_map_iff_of_injective hinj).mp hle

/-- Where the next byte is heard, nothing is said. -/
theorem saying_prefix_hearing (h : saying bs <+: hearing cs ++ d) : bs = [] ∨ cs = [] := by
  cases bs with
  | nil => exact Or.inl rfl
  | cons b bs =>
      cases cs with
      | nil => exact Or.inr rfl
      | cons c cs =>
          obtain ⟨t, ht⟩ := h
          simp [saying, hearing] at ht

end Turn

open Turn

/--
What the calls of an interface do to a connection, which answers are to be reckoned with
when nothing goes wrong, and which of them bring a program on.
-/
structure Wiring (I : Interface) (β : Type) where
  taken : (c : I.Call) → I.Res c → List β
  given : (c : I.Call) → I.Res c → List β
  fine : (c : I.Call) → I.Res c → Prop
  work : (c : I.Call) → I.Res c → Prop
  one_way : ∀ c r, taken c r = [] ∨ given c r = []

namespace Wiring

variable {I : Interface} {α β : Type} (W : Wiring I β)

/-- A call that can be answered at once, or once any of the bytes to be heard next has come. -/
def Served (d : List (Turn β)) (c : I.Call) : Prop :=
  (∃ r, W.fine c r ∧ W.work c r ∧ W.taken c r = []) ∨
    (∃ b e, d = .hear b :: e) ∧
      ∀ b bs, ∃ r, W.fine c r ∧ W.work c r ∧ W.taken c r ≠ [] ∧ W.taken c r <+: b :: bs

/-- What is left of its dialogue is remembered of a program that keeps to it. -/
def pace : Pace I (List (Turn β)) where
  allow d c r := W.fine c r ∧ hearing (W.taken c r) <+: d
  next d c r := d.drop ((W.taken c r).length + (W.given c r).length)
  asks d c := (∀ r, W.fine c r → saying (W.given c r) <+: d) ∧ W.Served d c
  work := W.work

/-- `p` keeps to the dialogue `d` and can end where `e` is left of it, with `post`. -/
def Follows (p : Prog I α) (d e : List (Turn β)) (post : α → Prop) : Prop :=
  Live W.pace p d fun d' a => d' = e ∧ post a

variable {W}

theorem Follows.ret {a : α} {d : List (Turn β)} {post : α → Prop} (h : post a) :
    W.Follows (.ret a) d d post := Live.ret ⟨rfl, h⟩

/-- Sequencing: the second program takes the dialogue up where the first has left it. -/
theorem Follows.bind {γ : Type} {p : Prog I α} {f : α → Prog I γ} {d e e' : List (Turn β)}
    {mid : α → Prop} {post : γ → Prop} (hp : W.Follows p d e mid)
    (hf : ∀ a, mid a → W.Follows (f a) e e' post) : W.Follows (p.bind f) d e' post := by
  refine Live.bind hp ?_
  rintro _ a ⟨rfl, ha⟩
  exact hf a ha

theorem Follows.mono {p : Prog I α} {d e : List (Turn β)} {post post' : α → Prop}
    (h : ∀ a, post a → post' a) (hp : W.Follows p d e post) : W.Follows p d e post' :=
  Live.mono (fun _ _ hx => ⟨hx.1, h _ hx.2⟩) hp

end Wiring

/-! ## A program and its peer -/

/-- A program, what its peer has left of the dialogue, and the bytes under way. -/
structure Exchange (I : Interface) (α β : Type) where
  prog : Prog I α
  peer : List (Turn β)
  /-- From the peer to the program. -/
  up : List β
  /-- From the program to the peer. -/
  down : List β

inductive Move (I : Interface) (β : Type) where
  /-- A call of the program is answered. -/
  | call (e : Event I)
  | speaks (bs : List β)
  | listens (bs : List β)

namespace Exchange

variable {I : Interface} {α β : Type} [DecidableEq I.Call] [DecidableEq β] (W : Wiring I β)

/-- The peer says and hears what is next for it, and only bytes that are under way are taken. -/
def step (s : Exchange I α β) : Move I β → Option (Exchange I α β)
  | .call e =>
      if W.taken e.1 e.2 <+: s.up then
        (s.prog.feed e).map fun prog =>
          { s with
            prog := prog
            up := s.up.drop (W.taken e.1 e.2).length
            down := s.down ++ W.given e.1 e.2 }
      else none
  | .speaks bs =>
      if saying bs <+: s.peer then
        some { s with peer := s.peer.drop bs.length, up := s.up ++ bs }
      else none
  | .listens bs =>
      if bs <+: s.down ∧ hearing bs <+: s.peer then
        some { s with peer := s.peer.drop bs.length, down := s.down.drop bs.length }
      else none

/-- Nothing goes wrong. -/
def Fine (_ : Exchange I α β) : Move I β → Prop
  | .call e => W.fine e.1 e.2
  | _ => True

/-- The two sides at the start of a dialogue. -/
def start (p : Prog I α) (d : List (Turn β)) : Exchange I α β := ⟨p, dualAll d, [], []⟩

/-- The states reached from `s` in runs in which nothing goes wrong. -/
abbrev Reached (s : Exchange I α β) : Exchange I α β → Prop :=
  Steps.Run (Exchange.step W) (Exchange.Fine W) s

/--
Where the two sides are. The one that is ahead has said what is under way, and nothing is
under way from the other.
-/
def Aligned (d peer : List (Turn β)) (up down : List β) : Prop :=
  peer = hearing down ++ dualAll d ∧ up = [] ∨ d = hearing up ++ dualAll peer ∧ down = []

variable {W}

section Aligned

variable {d peer : List (Turn β)} {up down bs : List β}

omit [DecidableEq β]

theorem Aligned.start (d : List (Turn β)) : Aligned d (dualAll d) [] [] := Or.inl ⟨rfl, rfl⟩

/-- What is under way to the program is what it is to hear next. -/
theorem Aligned.up_prefix (h : Aligned d peer up down) : hearing up <+: d := by
  rcases h with ⟨-, rfl⟩ | ⟨rfl, -⟩
  · exact List.nil_prefix
  · exact List.prefix_append _ _

theorem Aligned.symm (h : Aligned d peer up down) : Aligned peer d down up := by
  rcases h with ⟨rfl, rfl⟩ | ⟨rfl, rfl⟩
  · exact Or.inr ⟨rfl, rfl⟩
  · exact Or.inl ⟨rfl, rfl⟩

/-- One side hears some of what is under way to it. -/
theorem Aligned.hear (h : Aligned d peer up down) (hbs : bs <+: up) :
    Aligned (d.drop bs.length) peer (up.drop bs.length) down := by
  obtain ⟨rest, rfl⟩ := hbs
  rcases h with ⟨rfl, hup⟩ | ⟨rfl, rfl⟩
  · obtain ⟨rfl, rfl⟩ := List.append_eq_nil_iff.mp hup
    exact Or.inl ⟨rfl, rfl⟩
  · refine Or.inr ⟨?_, rfl⟩
    rw [hearing_append, List.append_assoc, List.drop_left' hearing_length, List.drop_left]

/-- One side says what is next for it. -/
theorem Aligned.say (h : Aligned d peer up down) (hbs : saying bs <+: d) :
    Aligned (d.drop bs.length) peer up (down ++ bs) := by
  obtain ⟨e, rfl⟩ := hbs
  rw [List.drop_left' saying_length]
  rcases h with ⟨rfl, rfl⟩ | ⟨hd, rfl⟩
  · refine Or.inl ⟨?_, rfl⟩
    rw [dualAll_append, dualAll_saying, hearing_append, List.append_assoc]
  · have hor := saying_prefix_hearing (hd ▸ List.prefix_append (saying bs) e)
    rcases hor with rfl | rfl
    · exact Or.inr ⟨hd, rfl⟩
    · refine Or.inl ⟨?_, rfl⟩
      have hpeer : dualAll (saying bs ++ e) = peer := by
        rw [hd, hearing_nil, List.nil_append, dualAll_dualAll]
      rw [← hpeer, dualAll_append, dualAll_saying, List.nil_append]

end Aligned

/-- The program keeps to `d`, and the two sides are where they should be. -/
structure Inv (W : Wiring I β) (post : α → Prop) (d : List (Turn β)) (s : Exchange I α β) : Prop where
  follows : W.Follows s.prog d [] post
  aligned : Aligned d s.peer s.up s.down

theorem step_call {s s' : Exchange I α β} {e : Event I} :
    s.step W (.call e) = some s' ↔ W.taken e.1 e.2 <+: s.up ∧ ∃ q, s.prog.feed e = some q ∧
      s' = ⟨q, s.peer, s.up.drop (W.taken e.1 e.2).length, s.down ++ W.given e.1 e.2⟩ := by
  by_cases h : W.taken e.1 e.2 <+: s.up
  · rw [step, if_pos h, Option.map_eq_some_iff]
    simp only [h, true_and, eq_comm]
  · simp [step, h]

theorem step_speaks {s s' : Exchange I α β} {bs : List β} :
    s.step W (.speaks bs) = some s' ↔ saying bs <+: s.peer ∧
      s' = ⟨s.prog, s.peer.drop bs.length, s.up ++ bs, s.down⟩ := by
  by_cases h : saying bs <+: s.peer <;> simp [step, h, eq_comm]

theorem step_listens {s s' : Exchange I α β} {bs : List β} :
    s.step W (.listens bs) = some s' ↔ (bs <+: s.down ∧ hearing bs <+: s.peer) ∧
      s' = ⟨s.prog, s.peer.drop bs.length, s.up, s.down.drop bs.length⟩ := by
  by_cases h : bs <+: s.down ∧ hearing bs <+: s.peer <;> simp [step, h, eq_comm]

/-- A call of the program is answered with bytes that are under way. -/
theorem Inv.call {post : α → Prop} {d : List (Turn β)} {s s' : Exchange I α β} {e : Event I}
    (h : Inv W post d s) (he : W.fine e.1 e.2) (hs : s.step W (.call e) = some s') :
    Inv W post (d.drop ((W.taken e.1 e.2).length + (W.given e.1 e.2).length)) s' := by
  obtain ⟨htaken, q, hq, rfl⟩ := step_call.mp hs
  have hhear : hearing (W.taken e.1 e.2) <+: d :=
    List.IsPrefix.trans (htaken.map Turn.hear) h.aligned.up_prefix
  refine ⟨h.follows.feed hq ⟨he, hhear⟩, ?_⟩
  obtain ⟨k, hk, -⟩ := Prog.feed_eq_some.mp hq
  have hsay : saying (W.given e.1 e.2) <+: d := (h.follows.swift.asks_of hk).1 e.2 he
  rcases W.one_way e.1 e.2 with hnil | hnil
  · rw [hnil, List.length_nil, Nat.zero_add, List.drop_zero]
    exact h.aligned.say hsay
  · rw [hnil, List.length_nil, Nat.add_zero, List.append_nil]
    exact h.aligned.hear htaken

/-- **Preserved by every step** in which nothing goes wrong. -/
theorem Inv.step {post : α → Prop} {d : List (Turn β)} {s s' : Exchange I α β} {a : Move I β}
    (h : Inv W post d s) (ha : s.Fine W a) (hs : s.step W a = some s') :
    ∃ d', Inv W post d' s' := by
  cases a with
  | call e => exact ⟨_, h.call ha hs⟩
  | speaks bs =>
      obtain ⟨hsay, rfl⟩ := step_speaks.mp hs
      exact ⟨d, h.follows, (h.aligned.symm.say hsay).symm⟩
  | listens bs =>
      obtain ⟨⟨hdown, -⟩, rfl⟩ := step_listens.mp hs
      exact ⟨d, h.follows, (h.aligned.symm.hear hdown).symm⟩

theorem inv_reached {post : α → Prop} {p : Prog I α} {d : List (Turn β)} {s : Exchange I α β}
    (hp : W.Follows p d [] post) (hs : Reached W (start p d) s) : ∃ d', Inv W post d' s :=
  Steps.Run.invariant (J := fun s => ∃ d', Inv W post d' s) hs ⟨d, hp, .start d⟩
    fun _ _ _ ⟨_, hi⟩ ha hs => hi.step ha hs

/-- Both sides have said and heard everything, and `a` is what the program returns. -/
structure Over (s : Exchange I α β) (a : α) : Prop where
  prog : s.prog = .ret a
  peer : s.peer = []
  up : s.up = []
  down : s.down = []

omit [DecidableEq I.Call] [DecidableEq β] in
/-- When the program has returned, only what it said last may still be under way. -/
theorem Inv.returned {post : α → Prop} {d : List (Turn β)} {s : Exchange I α β} {a : α}
    (h : Inv W post d s) (ha : s.prog = .ret a) :
    post a ∧ s.up = [] ∧ s.peer = hearing s.down := by
  have hswift := h.follows.swift
  rw [ha] at hswift
  obtain ⟨rfl, hpost⟩ := hswift.post_of
  rcases h.aligned with ⟨hpeer, hup⟩ | ⟨hd, hdown⟩
  · exact ⟨hpost, hup, by rw [hpeer, dualAll_nil, List.append_nil]⟩
  · obtain ⟨hup, hpeer⟩ := List.append_eq_nil_iff.mp hd.symm
    refine ⟨hpost, hearing_eq_nil.mp hup, ?_⟩
    rw [hdown, hearing_nil]
    exact dualAll_eq_nil.mp hpeer

/-- The peer can always be brought to where it has to wait for the program. -/
theorem Inv.peer_catches_up {post : α → Prop} {d : List (Turn β)} {s : Exchange I α β}
    (h : Inv W post d s) : ∃ s', Reached W s s' ∧ s'.prog = s.prog ∧ Inv W post d s' ∧
      s'.down = [] ∧ ∀ b e, d = .hear b :: e → s'.up ≠ [] := by
  -- first it hears all that is under way
  obtain ⟨s₁, hs₁, hprog₁, hinv₁, hdown₁⟩ : ∃ s₁, Reached W s s₁ ∧ s₁.prog = s.prog ∧
      Inv W post d s₁ ∧ s₁.down = [] := by
    have hhear : hearing s.down <+: s.peer := h.aligned.symm.up_prefix
    exact ⟨_, Steps.Run.init.step (a := .listens s.down) trivial (step_listens.mpr ⟨⟨List.prefix_refl _, hhear⟩, rfl⟩),
      rfl, ⟨h.follows, (h.aligned.symm.hear (List.prefix_refl _)).symm⟩, List.drop_length⟩
  by_cases hup : ∀ b e, d = .hear b :: e → s₁.up ≠ []
  · exact ⟨s₁, hs₁, hprog₁, hinv₁, hdown₁, hup⟩
  -- then it says what the program waits for
  push Not at hup
  obtain ⟨b, e, hd, hup⟩ := hup
  have hpeer : s₁.peer = .say b :: dualAll e := by
    rcases hinv₁.aligned with ⟨hpeer, -⟩ | ⟨hd', -⟩
    · rw [hpeer, hdown₁, hd]
      rfl
    · rw [hup, hearing_nil, List.nil_append, hd] at hd'
      rw [← dualAll_dualAll s₁.peer, ← hd']
      rfl
  have hsay : saying [b] <+: s₁.peer := by
    rw [hpeer]
    exact ⟨dualAll e, rfl⟩
  refine ⟨_, hs₁.step (a := .speaks [b]) trivial (step_speaks.mpr ⟨hsay, rfl⟩), hprog₁,
    ⟨hinv₁.follows, (hinv₁.aligned.symm.say hsay).symm⟩, hdown₁, fun _ _ _ => ?_⟩
  simp

omit [DecidableEq I.Call] [DecidableEq β] in
/-- A call that is served can be answered with what is under way. -/
theorem answer_of_served {d : List (Turn β)} {c : I.Call} (h : W.Served d c) {up : List β}
    (hup : ∀ b e, d = .hear b :: e → up ≠ []) :
    ∃ r, W.fine c r ∧ W.work c r ∧ W.taken c r <+: up := by
  rcases h with ⟨r, hfine, hwork, hnil⟩ | ⟨⟨b, e, hd⟩, hserve⟩
  · exact ⟨r, hfine, hwork, hnil ▸ List.nil_prefix⟩
  · obtain ⟨c', cs, rfl⟩ := List.exists_cons_of_ne_nil (hup b e hd)
    obtain ⟨r, hfine, hwork, -, hle⟩ := hserve c' cs
    exact ⟨r, hfine, hwork, hle⟩

theorem Reached.trans {s₁ s₂ s₃ : Exchange I α β} (h : Reached W s₁ s₂) (h' : Reached W s₂ s₃) :
    Reached W s₁ s₃ := by
  induction h' with
  | init => exact h
  | step _ ha hs ih => exact ih.step ha hs

/-- **From wherever the two sides are, the dialogue can be brought to its end.** -/
theorem Inv.completes {post : α → Prop} {d : List (Turn β)} {s : Exchange I α β}
    (h : Inv W post d s) : ∃ s' a, Reached W s s' ∧ s'.Over a ∧ post a := by
  -- by induction on what the program has to do when it is always brought on
  have hgo : ∀ (p : Prog I α) d, Swift W.pace (fun d' a => d' = [] ∧ post a) p d →
      ∀ s : Exchange I α β, s.prog = p → Inv W post d s →
        ∃ s' a, Reached W s s' ∧ s'.Over a ∧ post a := by
    intro p d hswift
    induction hswift with
    | @ret a d hd =>
        intro s hs hinv
        obtain ⟨rfl, ha⟩ := hd
        obtain ⟨s₁, hs₁, hprog₁, hinv₁, hdown₁, -⟩ := hinv.peer_catches_up
        have hret : s₁.prog = .ret a := hprog₁.trans hs
        obtain ⟨-, hup, hpeer⟩ := hinv₁.returned hret
        rw [hdown₁, hearing_nil] at hpeer
        exact ⟨s₁, a, hs₁, ⟨hret, hpeer, hup, hdown₁⟩, ha⟩
    | @call p d c k hp hask _ ih =>
        intro s hs hinv
        obtain ⟨s₁, hs₁, hprog₁, hinv₁, -, hup₁⟩ := hinv.peer_catches_up
        obtain ⟨r, hfine, hwork, htaken⟩ := answer_of_served hask.2 hup₁
        have hfeed : s₁.prog.feed ⟨c, r⟩ = some (k r) := by
          rw [hprog₁, hs]
          exact Prog.feed_eq_some.mpr ⟨k, hp, rfl⟩
        have hstep := step_call.mpr ⟨htaken, k r, hfeed, rfl⟩
        have hallow : hearing (W.taken c r) <+: d :=
          List.IsPrefix.trans (htaken.map Turn.hear) hinv₁.aligned.up_prefix
        obtain ⟨s', a, hs', hover, ha⟩ := ih r ⟨hfine, hallow⟩ hwork _ rfl
          (hinv₁.call (e := ⟨c, r⟩) hfine hstep)
        exact ⟨s', a, Reached.trans (hs₁.step (a := .call ⟨c, r⟩) hfine hstep) hs', hover, ha⟩
  exact hgo s.prog d h.follows.swift s rfl h

/-- **The rule for dialogues**: from every state the two sides reach they can finish. -/
theorem completes {post : α → Prop} {p : Prog I α} {d : List (Turn β)}
    (hp : W.Follows p d [] post) {s : Exchange I α β} (hs : Reached W (start p d) s) :
    ∃ s' a, Reached W s s' ∧ s'.Over a ∧ post a := by
  obtain ⟨_, hinv⟩ := inv_reached hp hs
  exact hinv.completes

end Exchange

end Interact
