import ScoutComputer.Bluetooth.TransferProof
import ScoutComputer.Lib.Steps

/-!
# `internalRead` against `internalWrite`

A tablet that has sent its transaction code waits for the ACK of the code and then runs
the routine the computer itself sends with. What one side has given and the other has
not taken is in flight. The computer gets the payload, but the tablet waits for a third
ACK, and `internalRead` sends two.
-/

namespace ScoutComputer

open Interact Endian

/-- The sending side of a read transaction, from the ACK of its code on. -/
def tabletSends (payload : List Byte) : Job (Option (List Byte) × Bool) := do
  let acked : Bool ← readAck
  if acked = false then return (none, false)
  else internalWrite payload

/-- A side, with what it has taken and given so far. -/
structure Party where
  prog : Job (Option (List Byte) × Bool)
  wire : Wire

/-- The two sides of a read transaction. -/
structure Pair where
  computer : Party
  tablet : Party

inductive Side where
  | computer
  | tablet
  deriving DecidableEq

/-- What `sender` has given and `receiver` has not taken. -/
def inFlight (sender receiver : Party) : List Byte := sender.wire.out.drop receiver.wire.inp.length

/-- A call returns, and takes no bytes but those that are in flight. -/
def Party.step (p other : Party) (e : Event winsock) : Option Party :=
  if taken e.1 e.2 <+: inFlight other p then
    (p.prog.feed e).map fun prog => ⟨prog, p.wire.next e.1 e.2⟩
  else none

def Pair.step (s : Pair) : Side × Event winsock → Option Pair
  | (.computer, e) => (s.computer.step s.tablet e).map fun p => { s with computer := p }
  | (.tablet, e) => (s.tablet.step s.computer e).map fun p => { s with tablet := p }

def Pair.start (payload : List Byte) : Pair where
  computer := ⟨internalRead, .init⟩
  tablet := ⟨tabletSends payload, .init⟩

/-- No timeout, no error, no failing allocation. -/
def Calm (a : Side × Event winsock) : Prop :=
  Permitted a.2.1 a.2.2 ∧ disturbs a.2.1 a.2.2 = false

/-- The states reached from `s` in runs in which nothing goes wrong. -/
abbrev PairRun (s : Pair) : Pair → Prop := Steps.Run Pair.step (fun _ a => Calm a) s

/-- Both sides have returned with success, and nothing is in flight. -/
def Pair.Fits (payload : List Byte) (s : Pair) : Prop :=
  s.computer.prog.result? = some (some payload, true) ∧
    (∃ r, s.tablet.prog.result? = some (r, true)) ∧
    inFlight s.tablet s.computer = [] ∧ inFlight s.computer s.tablet = []

/-! ## The sending side -/

/-- What the sending side has given so far. -/
def SendInv (payload : List Byte) (o : Wire) : Prop := o.out <+: le32 payload.length ++ payload

/-- How the sending side ends. -/
inductive SendOutcome (payload : List Byte) (o : Wire) : Option (List Byte) × Bool → Prop where
  | done : o.inp = ack ++ (ack ++ ack) → SendOutcome payload o (none, true)
  /-- Three bytes came where an ACK was due, and they were something else. -/
  | refused {r d : List Byte} : o.inp = r ++ d → d.length = 3 → d ≠ ack →
      r = [] ∨ r = ack ∨ r = ack ++ ack → SendOutcome payload o (none, false)
  | failed : o.clean = false → SendOutcome payload o (none, false)

theorem tabletSends_spec (payload : List Byte) :
    Spec wire (tabletSends payload) .init (SendInv payload) (SendOutcome payload) := by
  have hack : ∀ o, Reading 3 .init o → SendInv payload o := by
    intro o ⟨d, hm, _⟩
    unfold SendInv
    rw [hm.out]
    exact List.nil_prefix
  refine Spec.bind ((readAck_spec .init).mono hack fun _ _ _ h => h) fun o b hb => ?_
  cases hb with
  | failed hr hc => exact Spec.ret (hack o hr) (.failed hc)
  | refused hm hlen hne =>
      exact Spec.ret (hack o ⟨_, hm, Nat.le_of_eq hlen⟩) (.refused (r := []) hm.inp hlen hne (Or.inl rfl))
  | acked hm =>
      refine (internalWrite_spec payload o).mono ?_ ?_
      · intro o' ⟨r, s, hm', hprog⟩
        unfold SendInv
        rw [(hm.trans hm').out]
        exact hprog.isPrefix
      · intro o' res _ hres
        cases hres with
        | done hm' => exact .done (hm.trans hm').inp
        | @refused r d s hm' hlen hne hr =>
            have hinp : o'.inp = (ack ++ r) ++ d :=
              (hm.trans hm').inp.trans (List.append_assoc ack r d).symm
            refine .refused hinp hlen hne (Or.inr (hr.imp (fun h => ?_) fun h => ?_))
            · rw [h]
              rfl
            · rw [h]
        | failed hc => exact .failed hc

/-! ## The two together -/

/-- **The invariant of the pair.** -/
structure PairInv (payload : List Byte) (s : Pair) : Prop where
  computer : Spec wire s.computer.prog s.computer.wire (ReadInv .init) (ReadOutcome .init)
  tablet : Spec wire s.tablet.prog s.tablet.wire (SendInv payload) (SendOutcome payload)
  calm : s.computer.wire.clean = true ∧ s.tablet.wire.clean = true
  /-- What one side has taken the other has given. -/
  up : s.computer.wire.inp <+: s.tablet.wire.out
  down : s.tablet.wire.inp <+: s.computer.wire.out

theorem pairInv_start (payload : List Byte) : PairInv payload (Pair.start payload) where
  computer := internalRead_spec .init
  tablet := tabletSends_spec payload
  calm := ⟨rfl, rfl⟩
  up := List.nil_prefix
  down := List.nil_prefix

/-- What is taken out of what is in flight has been given. -/
theorem taken_prefix {sent got bs : List Byte} (h : got <+: sent)
    (hbs : bs <+: sent.drop got.length) : got ++ bs <+: sent := by
  obtain ⟨rest, rfl⟩ := h
  rw [List.drop_left] at hbs
  exact (List.prefix_append_right_inj got).mpr hbs

theorem Party.step_eq_some {p other p' : Party} {e : Event winsock}
    (h : p.step other e = some p') : taken e.1 e.2 <+: inFlight other p ∧
      p.prog.feed e = some p'.prog ∧ p'.wire = p.wire.next e.1 e.2 := by
  unfold Party.step at h
  split at h
  · rename_i hle
    obtain ⟨prog, hprog, rfl⟩ := Option.map_eq_some_iff.mp h
    exact ⟨hle, hprog, rfl⟩
  · exact absurd h (by simp)

theorem next_clean {o : Wire} {c : Call} {r : c.Res} (ho : o.clean = true)
    (hr : disturbs c r = false) : (o.next c r).clean = true := by
  show (o.clean && !disturbs c r) = true
  rw [ho, hr]
  rfl

/-- **Preserved by every step** in which nothing goes wrong. -/
theorem PairInv.step {payload : List Byte} {s s' : Pair} {a : Side × Event winsock}
    (h : PairInv payload s) (ha : Calm a) (hs : s.step a = some s') : PairInv payload s' := by
  obtain ⟨side, e⟩ := a
  obtain ⟨hperm, hcalm⟩ := ha
  cases side with
  | computer =>
      obtain ⟨p, hp, rfl⟩ := Option.map_eq_some_iff.mp hs
      obtain ⟨htaken, hprog, hwire⟩ := Party.step_eq_some hp
      refine ⟨?_, h.tablet, ⟨?_, h.calm.2⟩, ?_, ?_⟩
      · rw [hwire]
        exact h.computer.feed hprog hperm
      · rw [hwire]
        exact next_clean h.calm.1 hcalm
      · rw [hwire]
        exact taken_prefix h.up htaken
      · rw [hwire]
        exact h.down.trans (List.prefix_append _ _)
  | tablet =>
      obtain ⟨p, hp, rfl⟩ := Option.map_eq_some_iff.mp hs
      obtain ⟨htaken, hprog, hwire⟩ := Party.step_eq_some hp
      refine ⟨h.computer, ?_, ⟨h.calm.1, ?_⟩, ?_, ?_⟩
      · rw [hwire]
        exact h.tablet.feed hprog hperm
      · rw [hwire]
        exact next_clean h.calm.2 hcalm
      · rw [hwire]
        exact h.up.trans (List.prefix_append _ _)
      · rw [hwire]
        exact taken_prefix h.down htaken

theorem pairInv_run {payload : List Byte} {s : Pair} (h : PairRun (.start payload) s) :
    PairInv payload s :=
  Steps.Run.invariant h (pairInv_start payload) fun _ _ _ hi ha hs => hi.step ha hs

/-- `internalRead` sends two ACKs. -/
theorem ReadProgress.given {r s : List Byte} (h : ReadProgress r s) : s <+: ack ++ ack := by
  cases h with
  | leading hs => exact hs.trans (List.prefix_append ack ack)
  | size _ => exact List.prefix_append ack ack
  | sizeAck _ hs => exact (List.prefix_append_right_inj ack).mpr hs
  | payload _ _ => exact List.prefix_refl _

theorem PairInv.two_acks {payload : List Byte} {s : Pair} (h : PairInv payload s) :
    s.computer.wire.out <+: ack ++ ack := by
  obtain ⟨r, g, hm, hprog⟩ := h.computer.inv_of
  have hout : s.computer.wire.out = g := hm.out
  rw [hout]
  exact (hprog h.calm.1).given

/-- Of two lists that agree, the parts up to the same place agree. -/
theorem eq_of_isPrefix {a b c d : List Byte} (h : a ++ b <+: c ++ d) (hlen : a.length = c.length) :
    a = c :=
  (List.prefix_of_prefix_length_le ((List.prefix_append a b).trans h) (List.prefix_append c d)
    (Nat.le_of_eq hlen)).eq_of_length hlen

theorem eq_ack {d xs : List Byte} (h : d <+: ack ++ xs) (hlen : d.length = 3) : d = ack := by
  rw [← List.append_nil d] at h
  exact eq_of_isPrefix h hlen

/-- **The tablet never returns**: it waits for an ACK that is not sent. -/
theorem PairInv.tablet_waits {payload : List Byte} {s : Pair} (h : PairInv payload s) :
    s.tablet.prog.result? = none := by
  by_contra hres
  obtain ⟨res, hres⟩ := Option.ne_none_iff_exists'.mp hres
  have htablet := h.tablet
  rw [Prog.result?_eq_some.mp hres] at htablet
  have hle := h.down.trans h.two_acks
  cases htablet.post_of with
  | done hinp =>
      rw [hinp] at hle
      exact absurd hle.length_le (by decide)
  | @refused r d hinp hlen hne hr =>
      rw [hinp] at hle
      rcases hr with rfl | rfl | rfl
      · exact hne (eq_ack hle hlen)
      · have hd := (List.prefix_append_right_inj ack).mp hle
        rw [← List.append_nil ack] at hd
        exact hne (eq_ack hd hlen)
      · have hlen' := hle.length_le
        rw [List.length_append, hlen] at hlen'
        exact absurd hlen' (by decide)
  | failed hc =>
      rw [h.calm.2] at hc
      exact Bool.noConfusion hc

/--
**The two routines never fit together**, whatever the payload: the sending side never
returns, and the third ACK of the protocol is never sent.
-/
theorem internalRead_never_fits (payload : List Byte) :
    ¬ ∃ s, PairRun (.start payload) s ∧
      (s.Fits payload ∨ ack ++ ack ++ ack <+: s.computer.wire.out) := by
  rintro ⟨s, hrun, ⟨_, ⟨r, hres⟩, _⟩ | hacks⟩
  · rw [(pairInv_run hrun).tablet_waits] at hres
    exact absurd hres (by simp)
  · have hle := (hacks.trans (pairInv_run hrun).two_acks).length_le
    exact absurd hle (by decide)

/-- A tablet that sends `red` waits for its last ACK for ever. -/
theorem internalRead_red : ¬ ∀ payload : List Byte, payload.length < 2 ^ 31 →
    ∀ s, PairRun (.start payload) s → ∃ s', PairRun s s' ∧ s'.Fits payload := by
  intro hall
  obtain ⟨s, hrun, _, ⟨r, hres⟩, _⟩ := hall (bytes "red") (by decide) _ .init
  rw [(pairInv_run hrun).tablet_waits] at hres
  exact absurd hres (by simp)

end ScoutComputer
