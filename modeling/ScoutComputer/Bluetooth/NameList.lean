import ScoutComputer.Bluetooth.AccountProof
import ScoutComputer.Lib.Relocation

/-!
# The list of names

`getNameList` copies the scouting names of the tablets into a vector of its own, and the
list that is drawn holds pointers to them. Between two calls of it the tablets come and go
and `connectedTablets` moves, and the list is drawn all the same.
-/

namespace ScoutComputer

open Relocation

/-- `names`, of which the texts are kept, and what `nameList` is to draw. -/
structure NameList where
  names : Vec (List Byte)
  thingsToDraw : List Ptr

namespace NameList

def create : NameList := ⟨.empty, []⟩

/-- The loop of `getNameList`, from index `i` on. It fails where `at` throws. -/
def addNames {ρ : Type} (room : Nat → Nat) : List (BtTabObj ρ) → Nat → NameList → Option NameList
  | [], _, s => some s
  | t :: ts, i, s =>
      let names := s.names.emplaceBack room t.tabScoutingName
      (names.pointer i).bind fun p => addNames room ts (i + 1) ⟨names, s.thingsToDraw ++ [p]⟩

/-- `getNameList`, which makes room for all the names before it takes their addresses. -/
def getNameList {ρ : Type} (room : Nat → Nat) (connectedTablets : List (BtTabObj ρ))
    (s : NameList) : Option NameList :=
  addNames room connectedTablets 0 ⟨s.names.clear.reserve room connectedTablets.length, []⟩

/-- What `VerticalScrollable::draw` finds behind its pointers. -/
def drawn (s : NameList) : List (Option (List Byte)) := s.thingsToDraw.map s.names.deref

/-- Each pointer leads to its name. -/
def Good (s : NameList) : Prop := Lists s.names s.thingsToDraw

variable {ρ : Type} {room : Nat → Nat} {s s' : NameList}

/-- The names that are still to be added fit, so that the pointers taken stay good. -/
theorem addNames_spec {ts : List (BtTabObj ρ)} {i : Nat} (h : s.Good)
    (hi : s.names.items.length = i) (hroom : i + ts.length ≤ s.names.capacity) :
    ∃ s', addNames room ts i s = some s' ∧ s'.Good ∧
      s'.names.items = s.names.items ++ ts.map (·.tabScoutingName) := by
  induction ts generalizing s i with
  | nil => exact ⟨s, rfl, h, by simp⟩
  | cons t ts ih =>
      rw [List.length_cons] at hroom
      have hfits : s.names.items.length < s.names.capacity := by omega
      obtain ⟨hbuf, hcap⟩ := Vec.emplaceBack_stays room t.tabScoutingName hfits
      have hlen : (s.names.emplaceBack room t.tabScoutingName).items.length = i + 1 := by
        rw [Vec.emplaceBack_items, List.length_append, List.length_singleton, hi]
      have hroom' : i + 1 + ts.length ≤ (s.names.emplaceBack room t.tabScoutingName).capacity := by
        rw [hcap]
        omega
      have hgood := h.push room t.tabScoutingName hfits
      rw [hi] at hgood
      obtain ⟨s', hs', hgood', hitems⟩ := ih
        (s := ⟨s.names.emplaceBack room t.tabScoutingName, s.thingsToDraw ++ [(s.names.buf, i)]⟩)
        hgood hlen hroom'
      refine ⟨s', ?_, hgood', ?_⟩
      · rw [addNames, Vec.pointer_eq_some (by omega), hbuf]
        exact hs'
      · rw [hitems, Vec.emplaceBack_items, List.append_assoc]
        rfl

theorem getNameList_spec (room : Nat → Nat) (ts : List (BtTabObj ρ)) (s : NameList) :
    ∃ s', s.getNameList room ts = some s' ∧ s'.Good ∧
      s'.names.items = ts.map (·.tabScoutingName) := by
  have hgood : Good ⟨s.names.clear.reserve room ts.length, []⟩ :=
    lists_reserve s.names room ts.length
  have hroom : 0 + ts.length ≤ (s.names.clear.reserve room ts.length).capacity := by
    rw [Nat.zero_add]
    exact Vec.le_capacity_reserve
  obtain ⟨s', hs', hgood', hitems⟩ := addNames_spec hgood (by simp) hroom
  refine ⟨s', hs', hgood', ?_⟩
  rw [hitems]
  simp

theorem Good.drawn_eq (h : s.Good) : s.drawn = s.names.items.map some := h

end NameList

/-! ## The list beside the server -/

structure Board (ρ : Type) where
  server : Bluetooth ρ
  nameList : NameList

inductive BoardAct where
  | server (a : Bluetooth.Act)
  /-- The scene with the list is played, between two calls of `updateAllBt`. -/
  | getNameList (room : Nat → Nat)

namespace Board

variable {ρ : Type} (A : Addressing ρ) (parse : List Byte → Option Json)

def init : Board ρ := ⟨.init, .create⟩

def step (b : Board ρ) : BoardAct → Option (Board ρ)
  | .server a => (b.server.act A parse a).map fun server => { b with server }
  | .getNameList room =>
      if b.server.pc.atRest then
        (b.nameList.getNameList room b.server.connectedTablets).map fun nameList =>
          { b with nameList }
      else none

/-- The server does something meanwhile, whatever it is. -/
def Elsewhere (_ : Board ρ) : BoardAct → Prop
  | .server _ => True
  | .getNameList _ => False

/-- The server keeps to a condition. -/
def Meets (ok : Bluetooth ρ → Bluetooth.Act → Prop) (b : Board ρ) : BoardAct → Prop
  | .server a => ok b.server a
  | .getNameList _ => True

variable {A parse} {ok : Bluetooth ρ → Bluetooth.Act → Prop} {b b' : Board ρ}

theorem step_server {a : Bluetooth.Act} (h : b.step A parse (.server a) = some b') :
    b.server.act A parse a = some b'.server ∧ b'.nameList = b.nameList := by
  obtain ⟨server, hs, rfl⟩ := Option.map_eq_some_iff.mp h
  exact ⟨hs, rfl⟩

theorem step_getNameList {room : Nat → Nat} (h : b.step A parse (.getNameList room) = some b') :
    b'.server = b.server ∧
      b.nameList.getNameList room b.server.connectedTablets = some b'.nameList := by
  unfold step at h
  dsimp only at h
  split at h
  · obtain ⟨nameList, hn, rfl⟩ := Option.map_eq_some_iff.mp h
    exact ⟨rfl, hn⟩
  · exact absurd h (by simp)

/-- **Preserved by every step**: the server is in a run of its own, and the list is good. -/
theorem step_inv {a : BoardAct} (hrun : Bluetooth.Run A parse ok b.server)
    (hgood : b.nameList.Good) (ha : Meets ok b a) (hs : b.step A parse a = some b') :
    Bluetooth.Run A parse ok b'.server ∧ b'.nameList.Good := by
  cases a with
  | server a =>
      obtain ⟨hact, hsame⟩ := step_server hs
      exact ⟨hrun.step ha hact, hsame ▸ hgood⟩
  | getNameList room =>
      obtain ⟨hsame, hn⟩ := step_getNameList hs
      obtain ⟨s, hs, hgood', -⟩ :=
        NameList.getNameList_spec room b.server.connectedTablets b.nameList
      rw [hs] at hn
      cases hn
      exact ⟨hsame ▸ hrun, hgood'⟩

theorem run_inv (h : Steps.Run (Board.step A parse) (Meets ok) init b) :
    Bluetooth.Run A parse ok b.server ∧ b.nameList.Good :=
  h.invariant (J := fun b => Bluetooth.Run A parse ok b.server ∧ b.nameList.Good)
    ⟨.init, rfl⟩ fun _ _ _ hi ha hs => step_inv hi.1 hi.2 ha hs

/-- What the server does leaves the list alone. -/
theorem nameList_elsewhere (h : Steps.Run (Board.step A parse) Elsewhere b b') :
    b'.nameList = b.nameList := by
  refine h.invariant (J := fun s => s.nameList = b.nameList) rfl ?_
  intro s s' a hi ha hs
  cases a with
  | server a => exact (step_server hs).2.trans hi
  | getNameList room => exact absurd ha id

/--
**The list of names can always be drawn**: in every run in which slots keep their tablets no
pointer in it dangles. Made anew, it shows the names of the tablets in the table, in order,
each the last one the tablet was given or its address; and that is what it goes on to show
while tablets come and go, until it is made anew.
-/
theorem drawn_of_slotSafe (parse : List Byte → Option Json) (b : Board (Nat × Nat))
    (h : Steps.Run (Board.step slots parse) (Meets fun w a => Bluetooth.slotSafe w a = true)
      init b) :
    (∀ name ∈ b.nameList.drawn, name.isSome = true) ∧
    ∀ room, b.server.pc = .idle →
      ∃ b', b.step slots parse (.getNameList room) = some b' ∧
        b'.nameList.drawn = (b.server.connectedTablets.map fun t =>
          some ((Bluetooth.names (Bluetooth.mine t.serial b.server.log)).getLast?.getD t.macStr)) ∧
        ∀ b'', Steps.Run (Board.step slots parse) Elsewhere b' b'' →
          b''.nameList.drawn = b'.nameList.drawn := by
  obtain ⟨hrun, hgood⟩ := run_inv h
  refine ⟨?_, ?_⟩
  · intro name hname
    rw [hgood.drawn_eq] at hname
    obtain ⟨x, -, rfl⟩ := List.mem_map.mp hname
    rfl
  · intro room hidle
    obtain ⟨s, hs, hgood', hitems⟩ :=
      NameList.getNameList_spec room b.server.connectedTablets b.nameList
    refine ⟨⟨b.server, s⟩, ?_, ?_, ?_⟩
    · unfold step
      dsimp only
      rw [hidle, hs]
      rfl
    · rw [hgood'.drawn_eq, hitems, List.map_map]
      refine List.map_congr_left fun t ht => ?_
      obtain ⟨j, hj⟩ := List.mem_iff_getElem?.mp ht
      have haccount := Bluetooth.account_of_tablet hrun (by simp [hidle]) hj
      exact congrArg some haccount.name
    · intro b'' hb
      rw [nameList_elsewhere hb]

/-- Whether the server keeps its slots. -/
def keepsSlots (b : Board (Nat × Nat)) : BoardAct → Bool
  | .server a => b.server.slotSafe a
  | .getNameList _ => true

/-- A tablet is given its name, and a second one joins that goes by its address. -/
def namedAndNew : List Bluetooth.Act :=
  Bluetooth.namesItself ++ .updateAllBt (some (11, bytes "22:22:A4:00:01:02")) 0 ::
    Bluetooth.passedOver ++ Bluetooth.passedOver ++ [Bluetooth.onward, Bluetooth.onward]

theorem drawn_of_slotSafe_two : ∃ b b' : Board (Nat × Nat),
    b.step slots (fun _ => none) (.getNameList id) = some b' ∧
      b'.nameList.drawn = [some (bytes "red"), some (bytes "22:22:A4:00:01:02")] := by
  have h : ((Steps.replay (Board.step slots fun _ => none) keepsSlots
      (namedAndNew.map .server) init).map fun b => (b.server.pc.atRest,
        b.server.connectedTablets.map fun t => some
          ((Bluetooth.names (Bluetooth.mine t.serial b.server.log)).getLast?.getD t.macStr))) =
      some (true, [some (bytes "red"), some (bytes "22:22:A4:00:01:02")]) := by decide +kernel
  obtain ⟨b, hb, h⟩ := Option.map_eq_some_iff.mp h
  obtain ⟨hidle, hred⟩ := Prod.mk.inj h
  have hok : ∀ b a, keepsSlots b a = true →
      Meets (fun w a => Bluetooth.slotSafe w a = true) b a := by
    intro b a ha
    cases a with
    | server a => exact ha
    | getNameList room => exact trivial
  obtain ⟨-, hdraws⟩ := drawn_of_slotSafe (fun _ => none) b (Steps.run_of_replay hok .init hb)
  obtain ⟨b', hb', hdrawn, -⟩ := hdraws id (Pc.atRest_iff.mp hidle)
  exact ⟨b, b', hb', hdrawn.trans hred⟩

end Board

end ScoutComputer
