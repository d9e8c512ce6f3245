import ScoutComputer.Bluetooth.LineProof
import ScoutComputer.Bluetooth.PollProof
import ScoutComputer.Bluetooth.SlotProof

/-!
# Only codes are read as codes

A tablet that keeps to the conversation and the computer are never out of step as long as
no transfer fails. A transfer that fails is given up in the middle of its frame, and the
connection is kept, so what the tablet says next is read as a code.
-/

namespace ScoutComputer

open Interact Endian

/-! ## In step -/

variable {ρ : Type}

/-- The job of a tablet is at `o` in the transaction the tablet is in. -/
structure WorkingOn (t : Transaction) (o : Wire) (s : SharedState ρ) (l : Line) : Prop where
  transfer : Transfer t s.prog o
  clean : o.clean = true
  line : InTransfer t o.inp o.out l
  fresh : s.started = false → o = .init

/-- The tablet and its job are in one transaction. -/
def Working (data : Option (SharedState ρ)) (l : Line) : Prop :=
  ∃ s t o, data = some s ∧ WorkingOn t o s l

/-- How far the main thread has come with a tablet that is in no transaction. -/
inductive Asked (o : Poll) (l : Line) : Prop where
  /-- It is about to hang up. -/
  | failed : o.spoke = true → Asked o l
  | asking : o.inp = [] → AtRest l → Asked o l
  | code {t : Transaction} : o.inp = [t.code] → InTransfer t [] [] l → Asked o l

open Bluetooth

/-- **The tablet and the computer are in step.** -/
def Synced (v : View ρ) (l : Line) : Prop :=
  match v.attention, v.transactionState with
  | .away, false => AtRest l
  | .away, true => Working v.data l
  | .polling p, false => ∃ o, Spec poll p o (·.fine = true) PollEnd ∧ Asked o l
  | .polling p, true =>
      Spec poll p .init (· = .init) (fun _ r => r = none) ∧ Working v.data l
  | .started, _ => v.batmanTrans = true ∨ Working v.data l
  | .handling, _ => Working v.data l

theorem bounded_nil (t : Transaction) : Bounded t [] :=
  fun _ _ _ _ h => (List.append_eq_nil_iff.mp h.symm).2

theorem Working.tablet {data : Option (SharedState ρ)} {l l' : Line} (h : Working data l)
    (hs : Line.Tablet l l') : Working data l' := by
  obtain ⟨s, t, o, hdata, hw⟩ := h
  exact ⟨s, t, o, hdata, { hw with line := hw.line.tablet (hw.transfer.bounded hw.clean) hs }⟩

theorem Asked.tablet {o : Poll} {l l' : Line} (h : Asked o l) (hs : Line.Tablet l l') :
    Asked o l' := by
  cases h with
  | failed hspoke => exact .failed hspoke
  | asking hinp hrest => exact .asking hinp (hrest.tablet hs)
  | code hinp hline => exact .code hinp (hline.tablet (bounded_nil _) hs)

/-- A tablet that keeps to the conversation stays in step. -/
theorem Synced.tablet {v : View ρ} {l l' : Line} (h : Synced v l) (hs : Line.Tablet l l') :
    Synced v l' := by
  obtain ⟨transactionState, batmanTrans, data, attention⟩ := v
  cases attention with
  | away =>
      cases transactionState with
      | false => exact AtRest.tablet h hs
      | true => exact Working.tablet h hs
  | polling p =>
      cases transactionState with
      | false =>
          obtain ⟨o, hp, ho⟩ := h
          exact ⟨o, hp, ho.tablet hs⟩
      | true => exact ⟨h.1, h.2.tablet hs⟩
  | started => exact Or.imp_right (Working.tablet · hs) h
  | handling => exact Working.tablet h hs

/-- The job of the tablet makes a call, and all goes well. -/
theorem Working.moves {s : SharedState ρ} {prog : Job (Option (List Byte) × Bool)} {l l' : Line}
    {e : Event winsock} {bs : List (Byte × Bool)} (h : Working (some s) l)
    (hst : s.started = true) (hp : s.prog.feed e = some prog) (he : Permitted e.1 e.2)
    (hd : disturbs e.1 e.2 = false) (hm : Line.Moves e bs l l') :
    Working (some { s with prog }) l' := by
  obtain ⟨_, t, o, heq, hw⟩ := h
  cases heq
  have hnext := hw.transfer.feed hp he
  have hclean := next_clean hw.clean hd
  refine ⟨_, t, o.next e.1 e.2, rfl, hnext, hclean, ?_, fun hno => ?_⟩
  · exact hw.line.moves hm fun rest hle => hnext.within hclean hle
  · exact Bool.noConfusion (hst.symm.trans hno)

/-- A job that has returned, or that never began, leaves the tablet at rest. -/
theorem Working.ends {v : View ρ} {l : Line} (h : Working v.data l)
    (hrun : v.jobRunning = false) : AtRest l := by
  obtain ⟨s, t, o, hdata, hw⟩ := h
  unfold View.jobRunning at hrun
  rw [hdata] at hrun
  dsimp only at hrun
  have hline := hw.line
  rcases (Bool.and_eq_false_iff).mp hrun with hst | hres
  · rw [hw.fresh hst] at hline
    exact hline.never
  · cases hprog : s.prog.result? with
    | none =>
        rw [hprog] at hres
        exact Bool.noConfusion hres
    | some res =>
        have htransfer := hw.transfer
        rw [Prog.result?_eq_some.mp hprog] at htransfer
        exact hline.ends (htransfer.bounded hw.clean) fun hle => htransfer.done hw.clean hle

theorem given_of_poll {c : Call} {r : c.Res} (h : Poll.init.next c r = .init) :
    given c r = [] := by
  have hspoke : (!(given c r).isEmpty) = false := congrArg Poll.spoke h
  exact List.isEmpty_iff.mp (by rwa [Bool.not_eq_false'] at hspoke)

theorem given_of_taken {c : Call} {r : c.Res} (h : taken c r ≠ []) : given c r = [] := by
  cases c with
  | recv len => rfl
  | _ => exact absurd rfl h

/-- A call that moves no byte. -/
theorem Line.Moves.of_none {l l' : Line} {e : Event winsock} {bs : List (Byte × Bool)}
    (hm : Line.Moves e bs l l') (ht : taken e.1 e.2 = []) (hg : given e.1 e.2 = []) :
    bs = [] ∧ l' = l := by
  obtain ⟨talk, up, down⟩ := l
  obtain ⟨talk', up', down'⟩ := l'
  obtain ⟨htalk, hup, htaken, hdown⟩ := hm
  have hbs : bs = [] := List.map_eq_nil_iff.mp (htaken.trans ht)
  rw [hg, List.append_nil] at hdown
  dsimp only at htalk hup hdown
  rw [htalk, hdown, hup, hbs]
  exact ⟨rfl, rfl⟩

/-- The main thread makes a call for a tablet that is in no transaction. -/
theorem Asked.moves {o : Poll} {l l' : Line} {e : Event winsock} {bs : List (Byte × Bool)}
    (h : Asked o l) (hm : Line.Moves e bs l l') (hfine : (o.next e.1 e.2).fine = true) :
    Asked (o.next e.1 e.2) l' ∧ ∀ x ∈ bs, x.2 = true := by
  have hfine' := ((Bool.and_eq_true _ _).mp hfine).2
  rcases (Bool.or_eq_true _ _).mp hfine' with hnone | hone
  · -- nothing is taken: either nothing happens, or the computer says something
    have ht : taken e.1 e.2 = [] := List.isEmpty_iff.mp hnone
    have hbs : bs = [] := List.map_eq_nil_iff.mp (hm.took.trans ht)
    refine ⟨?_, fun x hx => absurd (hbs ▸ hx) List.not_mem_nil⟩
    by_cases hg : given e.1 e.2 = []
    · rw [(hm.of_none ht hg).2, poll_next_self o ht hg]
      exact h
    · refine .failed ?_
      show (o.spoke || !(given e.1 e.2).isEmpty) = true
      rw [List.isEmpty_eq_false_iff.mpr hg]
      exact Bool.or_true _
  · obtain ⟨hfirst, hlen⟩ := (Bool.and_eq_true _ _).mp hone
    obtain ⟨hspoke, hinp⟩ := (Bool.and_eq_true _ _).mp hfirst
    have hinp : o.inp = [] := List.isEmpty_iff.mp hinp
    have hlen : (taken e.1 e.2).length = 1 := beq_iff_eq.mp hlen
    cases h with
    | failed h =>
        rw [h] at hspoke
        exact Bool.noConfusion hspoke
    | code h _ =>
        rw [h] at hinp
        exact absurd hinp (by simp)
    | asking _ hrest =>
        -- the first byte that is taken
        have hne : taken e.1 e.2 ≠ [] := List.ne_nil_of_length_pos (by omega)
        obtain ⟨hcode, t, ht, hline⟩ := hrest.takes hm hlen (given_of_taken hne)
        refine ⟨.code (t := t) ?_ hline, fun x hx => ?_⟩
        · show o.inp ++ taken e.1 e.2 = [t.code]
          rw [hinp, ht]
          rfl
        · have hx' := List.mem_map_of_mem (f := Prod.snd) hx
          rw [hcode] at hx'
          exact List.mem_singleton.mp hx'

/-- What a step of the computer does to the line, when it makes the call `x`. -/
inductive Line.Served : Option (Event winsock) → List (Byte × Bool) → Line → Line → Prop where
  | nothing {l : Line} : Line.Served none [] l l
  | call {e : Event winsock} {bs : List (Byte × Bool)} {l l' : Line} : Line.Moves e bs l l' →
      Line.Served (some e) bs l l'

/-- The answer is one the surroundings may give. -/
def Possible (x : Option (Event winsock)) : Prop := ∀ e ∈ x, Permitted e.1 e.2

/-- No call of a transfer is disturbed, and the files are not too long for a size. -/
def Undisturbed (a : Act) (x : Option (Event winsock)) : Bool :=
  match a with
  | .job _ _ => x.all fun e => !disturbs e.1 e.2
  | .go _ readWholeFile => decide ((localDb readWholeFile).length < 2 ^ 31)
  | _ => true

/-- A code that was read is the code of the transaction, or the tablet is hung up on. -/
theorem Asked.serve {o : Poll} {l : Line} {c : TransactionType} {readWholeFile : Files}
    {batmanTrans : Bool} {data : Option (SharedState ρ)} (h : Asked o l)
    (hend : PollEnd o (some c)) (hbye : isGoodbye c = true → batmanTrans = true)
    (hjob : ∀ prog, jobOf readWholeFile c = some prog → ∃ s, data = some s ∧ s.prog = prog)
    (hfiles : (localDb readWholeFile).length < 2 ^ 31) :
    batmanTrans = true ∨ Working data l := by
  rcases hend with ⟨hno, _⟩ | ⟨c', heq, _, hgood | ⟨hspoke, b, hinp, hb⟩⟩
  · exact absurd hno (by simp)
  · cases heq
    exact Or.inl (hbye hgood)
  · cases heq
    right
    cases h with
    | failed h =>
        rw [h] at hspoke
        exact Bool.noConfusion hspoke
    | asking h _ =>
        rw [h] at hinp
        exact absurd hinp (by simp)
    | @code t h hline =>
        rw [h] at hinp
        obtain ⟨rfl, _⟩ := List.cons.inj hinp
        subst hb
        obtain ⟨prog, hprog, htransfer⟩ := transfer_of_jobOf (t := t) hfiles
        obtain ⟨s, hs, rfl⟩ := hjob prog hprog
        exact ⟨s, t, .init, hs, htransfer, rfl, hline, fun _ => rfl⟩

/-- A call for the tablet: a byte it takes is a code, and it is all the tablet has said. -/
theorem Synced.call {transactionState batmanTrans : Bool} {data : Option (SharedState ρ)}
    {p p' : Job (Option TransactionType)} {e : Event winsock} {l l' : Line}
    {bs : List (Byte × Bool)} (h : Synced ⟨transactionState, batmanTrans, data, .polling p⟩ l)
    (hp : p.feed e = some p') (he : Permitted e.1 e.2) (hm : Line.Moves e bs l l') :
    Synced ⟨transactionState, batmanTrans, data, .polling p'⟩ l' ∧ ∀ b ∈ bs, b.2 = true := by
  cases transactionState with
  | false =>
      obtain ⟨o, hspec, hasked⟩ := h
      have hspec' := hspec.feed hp he
      obtain ⟨hasked', hcodes⟩ := hasked.moves hm hspec'.inv_of
      exact ⟨⟨_, hspec', hasked'⟩, hcodes⟩
  | true =>
      -- a tablet that is busy is asked whether it has sent something, and not for it
      obtain ⟨hspec, hwork⟩ := h
      have hspec' := hspec.feed hp he
      have hkeep : poll.next .init e.1 e.2 = .init := hspec'.inv_of
      rw [hkeep] at hspec'
      obtain ⟨rfl, rfl⟩ := hm.of_none (congrArg Poll.inp hkeep) (given_of_poll hkeep)
      exact ⟨⟨hspec', hwork⟩, fun _ hb => absurd hb List.not_mem_nil⟩

/-- Nothing was asked, or nothing has come. -/
theorem Synced.pass {transactionState batmanTrans : Bool} {data : Option (SharedState ρ)}
    {l : Line} (h : Synced ⟨transactionState, batmanTrans, data, .polling (.ret none)⟩ l) :
    Synced ⟨transactionState, batmanTrans, data, .away⟩ l := by
  cases transactionState with
  | false =>
      obtain ⟨o, hspec, hasked⟩ := h
      rcases hspec.post_of with ⟨_, rfl⟩ | ⟨c, hno, _⟩
      · cases hasked with
        | failed h => exact Bool.noConfusion h
        | asking _ hrest => exact hrest
        | code h _ => exact absurd h (by simp [Poll.init])
      · exact absurd hno (by simp)
  | true => exact h.2

/-- A job makes calls only while the main thread leaves the socket alone. -/
theorem Synced.work {v : View ρ} {s : SharedState ρ} {prog : Job (Option (List Byte) × Bool)}
    {e : Event winsock} {bs : List (Byte × Bool)} {l l' : Line} (h : Synced v l)
    (hdata : v.data = some s) (hst : s.started = true) (hp : s.prog.feed e = some prog)
    (hact : v.transactionState = true ∨ v.attention = .started ∨ v.attention = .handling)
    (he : Permitted e.1 e.2) (hcalm : disturbs e.1 e.2 = false) (hm : Line.Moves e bs l l') :
    Synced { v with data := some { s with prog } } l' := by
  obtain ⟨transactionState, batmanTrans, data, attention⟩ := v
  obtain rfl : data = some s := hdata
  have hwork : ∀ {l : Line}, Working (some s) l → Line.Moves e bs l l' →
      Working (some { s with prog }) l' := fun hw hm => hw.moves hst hp he hcalm hm
  cases attention with
  | away =>
      cases transactionState with
      | false => exact absurd hact (by simp)
      | true => exact hwork h hm
  | polling p =>
      cases transactionState with
      | false => exact absurd hact (by simp)
      | true => exact ⟨h.1, hwork h.2 hm⟩
  | started => exact h.imp_right fun hw => hwork hw hm
  | handling => exact hwork h hm

/-- **Preserved by every step** of the computer that is not disturbed. -/
theorem Synced.step {v v' : View ρ} {a : Act} {x : Option (Event winsock)} {l l' : Line}
    {bs : List (Byte × Bool)} (h : Synced v l) (hv : ViewStep v a x v')
    (hl : Line.Served x bs l l') (hx : Possible x) (ha : Undisturbed a x = true) :
    Synced v' l' ∧ (takesCode a = true → ∀ b ∈ bs, b.2 = true) := by
  obtain ⟨transactionState, batmanTrans, data, attention⟩ := v
  have hquiet : ∀ {v : View ρ} {a : Act}, takesCode a = false →
      Synced v l' → Synced v l' ∧ (takesCode a = true → ∀ b ∈ bs, b.2 = true) := by
    intro v a hno hv
    exact ⟨hv, fun htake => Bool.noConfusion (hno.symm.trans htake)⟩
  cases hv with
  | same =>
      cases hl
      exact ⟨h, fun _ _ hb => absurd hb List.not_mem_nil⟩
  | ask hatt =>
      cases hl
      obtain rfl : attention = .away := hatt
      refine hquiet rfl ?_
      cases transactionState with
      | false => exact ⟨.init, serveTablet_poll, .asking rfl h⟩
      | true => exact ⟨serveTablet_poll_busy, h⟩
  | @call p p' e hatt hp =>
      cases hl with
      | call hm =>
      obtain rfl : attention = .polling p := hatt
      obtain ⟨h', hcodes⟩ := Synced.call h hp (hx e rfl) hm
      exact ⟨h', fun _ => hcodes⟩
  -- the calls are over
  | pass hatt =>
      cases hl
      obtain rfl : attention = .polling (.ret none) := hatt
      exact hquiet rfl (Synced.pass h)
  | @serve c _ readWholeFile batmanTrans' data' hatt hbye hjob =>
      cases hl
      obtain rfl : attention = .polling (.ret (some c)) := hatt
      refine hquiet rfl ?_
      cases transactionState with
      | false =>
          obtain ⟨o, hspec, hasked⟩ := h
          exact hasked.serve hspec.post_of hbye hjob (of_decide_eq_true ha)
      | true =>
          have hno : some c = none := h.1.post_of
          exact absurd hno (by simp)
  -- from here on the tablet and its job are in one transaction
  | queue hatt hbat =>
      cases hl
      obtain rfl : attention = .started := hatt
      exact hquiet rfl (h.resolve_left fun hb => Bool.noConfusion (hbat.symm.trans hb))
  | ready hatt hbat =>
      cases hl
      obtain rfl : attention = .started := hatt
      exact hquiet rfl (h.resolve_left fun hb => Bool.noConfusion (hbat.symm.trans hb))
  | due hatt hbusy =>
      cases hl
      obtain rfl : attention = .away := hatt
      obtain rfl : transactionState = true := hbusy
      exact hquiet rfl h
  | start hatt =>
      cases hl
      obtain rfl : attention = .handling := hatt
      obtain ⟨s, t, o, hdata, hw⟩ := h
      obtain rfl : data = some s := hdata
      refine hquiet rfl ⟨_, t, o, rfl, { hw with fresh := fun hno => Bool.noConfusion hno }⟩
  | settle hatt hrun =>
      cases hl
      obtain rfl : attention = .handling := hatt
      exact hquiet rfl (Working.ends h hrun)
  | work hdata hst hp hact =>
      cases hl with
      | call hm =>
      have hcalm := (Bool.not_eq_true' _).mp ha
      exact hquiet rfl (Synced.work h hdata hst hp hact (hx _ rfl) hcalm hm)

/-! ## Runs -/

def Link.line (l : Link ρ) : Line := ⟨l.talk, l.up, l.down⟩

section
variable {A : Addressing ρ} {parse : List Byte → Option Json} {n : Nat} {l l' : Link ρ}

theorem Link.step_server {a : Act} (h : l.step A parse n (.server a) = some l') :
    l.server.act A parse a = some l'.server ∧
      ∃ bs, Line.Served (l.server.onSocket A n a) bs l.line l'.line ∧
        l'.codes = l.codes ++ if takesCode a then bs.map Prod.snd else [] := by
  unfold Link.step at h
  dsimp only at h
  split at h
  · rename_i hx
    obtain ⟨w, hw, rfl⟩ := Option.map_eq_some_iff.mp h
    refine ⟨hw, [], ?_, ?_⟩
    · rw [hx]
      exact .nothing
    · rw [List.map_nil, ite_self, List.append_nil]
  · rename_i e hx
    split at h
    · rename_i htaken
      obtain ⟨w, hw, rfl⟩ := Option.map_eq_some_iff.mp h
      refine ⟨hw, l.up.take (taken e.1 e.2).length, ?_, ?_⟩
      · rw [hx]
        exact .call ⟨rfl, (List.take_append_drop _ _).symm, htaken, rfl⟩
      · show (if _ then _ else _) = _
        split
        · rfl
        · exact (List.append_nil _).symm
    · exact absurd h (by simp)

/-- The other steps are the tablet's. -/
theorem Link.step_tablet {a : LinkAct} (ha : ∀ b, a ≠ .server b)
    (h : l.step A parse n a = some l') :
    l'.server = l.server ∧ l'.codes = l.codes ∧ Line.Tablet l.line l'.line := by
  cases a with
  | server b => exact absurd rfl (ha b)
  | begins t =>
      unfold Link.step at h
      dsimp only at h
      split at h
      · rename_i hover
        cases h
        exact ⟨rfl, rfl, .begins t hover⟩
      · exact absurd h (by simp)
  | speaks bs =>
      unfold Link.step at h
      dsimp only at h
      split at h
      · exact absurd h (by simp)
      · rename_i k hk
        split at h
        · rename_i hbs
          cases h
          refine ⟨rfl, rfl, ?_⟩
          unfold Link.line
          rw [hk]
          exact .speaks hbs.1 hbs.2
        · exact absurd h (by simp)
  | hears size =>
      unfold Link.step at h
      dsimp only at h
      split at h
      · exact absurd h (by simp)
      · rename_i k hk
        split at h
        · rename_i hbs
          cases h
          refine ⟨rfl, rfl, ?_⟩
          unfold Link.line
          rw [hk]
          exact .hears hbs.1 hbs.2 (List.take_append_drop size l.down).symm
        · exact absurd h (by simp)

end

theorem Bluetooth.Shows.mem {w : Bluetooth ρ} {n : Nat} {v : View ρ} (h : Shows w n v) :
    n ∈ w.serials := by
  obtain ⟨i, t, ht, rfl, _⟩ := h
  exact List.mem_map_of_mem (List.mem_of_getElem? ht)

theorem Bluetooth.exists_shows {w : Bluetooth ρ} {n : Nat} (h : n ∈ w.serials) :
    ∃ v, Shows w n v := by
  obtain ⟨t, ht, rfl⟩ := List.mem_map.mp h
  obtain ⟨i, hi⟩ := List.mem_iff_getElem?.mp ht
  exact ⟨_, i, t, hi, rfl, rfl⟩

theorem Bluetooth.Shows.unique {w : Bluetooth ρ} (hn : w.serials.Nodup) {n : Nat} {v v' : View ρ}
    (h : Shows w n v) (h' : Shows w n v') : v = v' := by
  obtain ⟨i, t, ht, hs, rfl⟩ := h'
  exact h.get hn ht hs

/-- A call of the main thread comes back to where it was made. -/
theorem Bluetooth.callReturned_stays {w w' : Bluetooth ρ} {e : Event winsock}
    (h : w.callReturned e = some w') : w'.pc ≠ .crashed ∧ w'.serials = w.serials := by
  unfold Bluetooth.callReturned at h
  split at h
  · split at h
    · cases h
      split
      · exact ⟨by simp [goto, note], rfl⟩
      · exact ⟨by simp [goto], rfl⟩
    · exact absurd h (by simp)
  · exact absurd h (by simp)

/-- **The invariant of the link**, until the server crashes. -/
structure InStep (n : Nat) (l : Link (Nat × Nat)) : Prop where
  inv : Inv slots l.server
  table : TableInv slots l.server
  before : l.server.accepted ≤ n → AtRest l.line
  synced : ∀ v, Shows l.server n v → Synced v l.line

theorem inStep_init (n : Nat) : InStep n .init where
  inv := inv_init
  table := tableInv_init
  before _ := .silent
  synced _ h := absurd h.mem List.not_mem_nil

/-- What is asked of a step: pointers are kept, and no transfer of the tablet fails. -/
def Steady (n : Nat) (l : Link (Nat × Nat)) : LinkAct → Prop
  | .server a => slotSafe l.server a = true ∧ Undisturbed a (l.server.onSocket slots n a) = true
  | _ => True

/-- The surroundings answer as they can. -/
def Answered (n : Nat) (l : Link (Nat × Nat)) : LinkAct → Prop
  | .server a => Possible (l.server.onSocket slots n a)
  | _ => True

/-- **Preserved by every step** of the computer that meets the condition. -/
theorem InStep.server {parse : List Byte → Option Json} {n : Nat} {l l' : Link (Nat × Nat)}
    {a : Act} (h : InStep n l) (hx : Possible (l.server.onSocket slots n a))
    (hsafe : slotSafe l.server a = true)
    (hund : Undisturbed a (l.server.onSocket slots n a) = true)
    (hs : l.step slots parse n (.server a) = some l') :
    (l'.server.pc = .crashed ∨ InStep n l') ∧
      ((∀ b ∈ l.codes, b = true) → ∀ b ∈ l'.codes, b = true) := by
  obtain ⟨hact, bs, hserved, hcodes⟩ := Link.step_server hs
  have hcodes' : (takesCode a = true → ∀ b ∈ bs, b.2 = true) →
      (∀ b ∈ l.codes, b = true) → ∀ b ∈ l'.codes, b = true := by
    intro hbs hl b hb
    rw [hcodes] at hb
    rcases List.mem_append.mp hb with hb | hb
    · exact hl b hb
    · split at hb
      · rename_i htake
        obtain ⟨x, hx, rfl⟩ := List.mem_map.mp hb
        exact hbs htake x hx
      · exact absurd hb List.not_mem_nil
  have hstay : takesCode a = true → l'.server.pc ≠ .crashed ∧ l'.server.serials = l.server.serials := by
    intro htake
    cases a with
    | call e => exact callReturned_stays hact
    | _ => exact Bool.noConfusion htake
  have htable := h.table.step (h.table.tableStep hact)
  have hgrows : l.server.accepted ≤ l'.server.accepted :=
    (h.table.absent (h.table.tableStep hact) fun hm => Nat.lt_irrefl _ (h.table.fresh _ hm)).1
  rcases h.inv.act hact (stepKeeps_slots h.inv hsafe hact) with hinv | ⟨hcrash, _⟩
  swap
  · exact ⟨Or.inl hcrash, hcodes' fun htake => absurd hcrash (hstay htake).1⟩
  by_cases hn : n ∈ l.server.serials
  · -- the tablet is in the table
    have hold : ¬ l'.server.accepted ≤ n := by
      have := h.table.fresh n hn
      omega
    obtain ⟨v, hv⟩ := exists_shows hn
    rcases h.inv.seen hv hact with hcrash | hgone | ⟨v', hv', hstep⟩
    · exact ⟨Or.inl hcrash, hcodes' fun htake => absurd hcrash (hstay htake).1⟩
    · refine ⟨Or.inr ⟨hinv, htable, fun hle => absurd hle hold, fun v hv => absurd hv.mem hgone⟩,
        hcodes' fun htake => ?_⟩
      rw [(hstay htake).2] at hgone
      exact absurd hn hgone
    · obtain ⟨hsync, hbs⟩ := (h.synced v hv).step hstep hserved hx hund
      refine ⟨Or.inr ⟨hinv, htable, fun hle => absurd hle hold, fun v₁ hv₁ => ?_⟩, hcodes' hbs⟩
      rw [hv₁.unique hinv.serials hv']
      exact hsync
  · rw [onSocket_of_absent hn] at hserved
    obtain ⟨rfl, hline⟩ : bs = [] ∧ l'.line = l.line := by
      generalize l'.line = line' at hserved ⊢
      cases hserved
      exact ⟨rfl, rfl⟩
    refine ⟨Or.inr ⟨hinv, htable, fun hle => ?_, fun v hv => ?_⟩,
      hcodes' fun _ b hb => absurd hb List.not_mem_nil⟩
    · rw [hline]
      exact h.before (Nat.le_trans hgrows hle)
    · -- the tablet has joined just now
      rcases (h.table.absent (h.table.tableStep hact) hn).2 with ⟨hno, _⟩ | ⟨hnew, hnewcomer⟩
      · exact absurd hv.mem hno
      · rw [hv.unique hinv.serials hnewcomer, hline]
        exact h.before (Nat.le_of_eq hnew.symm)

/-- **Preserved by the tablet.** -/
theorem InStep.tablet {parse : List Byte → Option Json} {n : Nat} {l l' : Link (Nat × Nat)}
    {a : LinkAct} (h : InStep n l) (ha : ∀ b, a ≠ .server b)
    (hs : l.step slots parse n a = some l') : InStep n l' := by
  obtain ⟨hserver, _, hline⟩ := Link.step_tablet ha hs
  refine ⟨?_, ?_, ?_, ?_⟩
  · rw [hserver]
    exact h.inv
  · rw [hserver]
    exact h.table
  · rw [hserver]
    exact fun hle => (h.before hle).tablet hline
  · rw [hserver]
    exact fun v hv => (h.synced v hv).tablet hline

/-- Nothing moves after a crash. -/
theorem codes_of_crashed {parse : List Byte → Option Json} {n : Nat} {l l' : Link (Nat × Nat)}
    {a : LinkAct} (h : l.server.pc = .crashed) (hs : l.step slots parse n a = some l') :
    l'.server.pc = .crashed ∧ l'.codes = l.codes := by
  by_cases ha : ∃ b, a = .server b
  · obtain ⟨b, rfl⟩ := ha
    obtain ⟨hact, _⟩ := Link.step_server hs
    rw [act_of_crashed h] at hact
    exact absurd hact (by simp)
  · obtain ⟨hserver, hcodes, _⟩ := Link.step_tablet (fun b hb => ha ⟨b, hb⟩) hs
    exact ⟨hserver ▸ h, hcodes⟩

instance (x : Option (Event winsock)) : Decidable (Possible x) :=
  match x with
  | none => isTrue fun _ he => absurd he (by simp)
  | some e => decidable_of_iff (Permitted e.1 e.2) (by simp [Possible])

instance (n : Nat) (l : Link (Nat × Nat)) : (a : LinkAct) → Decidable (Answered n l a)
  | .server a => inferInstanceAs (Decidable (Possible (l.server.onSocket slots n a)))
  | .begins _ => inferInstanceAs (Decidable True)
  | .speaks _ => inferInstanceAs (Decidable True)
  | .hears _ => inferInstanceAs (Decidable True)

instance (n : Nat) (l : Link (Nat × Nat)) : (a : LinkAct) → Decidable (Steady n l a)
  | .server a => inferInstanceAs (Decidable (slotSafe l.server a = true ∧
      Undisturbed a (l.server.onSocket slots n a) = true))
  | .begins _ => inferInstanceAs (Decidable True)
  | .speaks _ => inferInstanceAs (Decidable True)
  | .hears _ => inferInstanceAs (Decidable True)

/--
**Only codes are read as codes**, in every run in which nothing disturbs a transfer of the
tablet and pointers are kept.
-/
theorem codes_of_steady (parse : List Byte → Option Json) (n : Nat) (l : Link (Nat × Nat))
    (h : Steps.Run (Link.step slots parse n) (fun l a => Answered n l a ∧ Steady n l a) .init l) :
    ∀ b ∈ l.codes, b = true := by
  refine (Steps.Run.invariant
    (J := fun l => (l.server.pc = .crashed ∨ InStep n l) ∧ ∀ b ∈ l.codes, b = true) h
    ⟨Or.inr (inStep_init n), fun b hb => absurd hb List.not_mem_nil⟩ ?_).2
  rintro l l' a ⟨hcrash | hin, hcodes⟩ ⟨hx, hsteady⟩ hs
  · obtain ⟨hcrash', heq⟩ := codes_of_crashed hcrash hs
    exact ⟨Or.inl hcrash', heq ▸ hcodes⟩
  · by_cases ha : ∃ b, a = .server b
    · obtain ⟨b, rfl⟩ := ha
      obtain ⟨hin', hcodes'⟩ := hin.server hx hsteady.1 hsteady.2 hs
      exact ⟨hin', hcodes' hcodes⟩
    · have ha' : ∀ b, a ≠ .server b := fun b hb => ha ⟨b, hb⟩
      exact ⟨Or.inr (hin.tablet ha' hs), (Link.step_tablet ha' hs).2.1 ▸ hcodes⟩

/-! ## Two conversations -/

/-- A tablet that sends `red`. -/
def sendsRed : Transaction := .read 1 (bytes "red") (by decide) (by decide)

/-- The code of `red` is read, and its transfer starts. -/
def redBegins : List LinkAct :=
  [.begins sendsRed, .speaks [1]] ++ (sendsCode 1 ++ [onward, onward] ++ firstCalls 0).map .server

/-- The job gets the bytes it asks for. -/
def arrives (bs : List Byte) : List LinkAct :=
  [⟨.setSuccess true, ()⟩, ⟨.getTime none, (0 : Rat)⟩, ⟨.malloc bs.length, true⟩,
    ⟨.recv bs.length, .ret bs⟩, ⟨.getTime none, (0 : Rat)⟩,
    ⟨.getTime (some 10), (0 : Rat)⟩].map fun e : Event winsock => .server (.job 0 e)

/-- A queue of one is seen to, and the next pass begins. -/
def nextPass : List LinkAct :=
  [onward, onward, onward, onward, .updateAllBt none 0].map .server

/-- The tablet sends `red` twice. -/
def redTwice : List LinkAct :=
  .server (joins 10) :: redBegins ++
  [.hears 3, .speaks (le32 3)] ++ arrives (le32 3) ++
  [.server (.job 0 ⟨.malloc 3, true⟩), .server (.job 0 ⟨.send ack, .ret 3⟩)] ++
  [.hears 3, .speaks (bytes "red")] ++ arrives (bytes "red") ++ nextPass ++ redBegins

theorem codes_of_steady_twice : ∃ l : Link (Nat × Nat), l.codes = [true, true] ∧
    ∀ b ∈ l.codes, b = true := by
  have h : ((Steps.replay (Link.step slots (fun _ => none) 0)
      (fun l a => decide (Answered 0 l a ∧ Steady 0 l a)) redTwice .init).map (·.codes)) =
      some [true, true] := by decide +kernel
  obtain ⟨l, hl, hcodes⟩ := Option.map_eq_some_iff.mp h
  exact ⟨l, hcodes, codes_of_steady (fun _ => none) 0 l
    (Steps.run_of_replay (fun _ _ hok => of_decide_eq_true hok) .init hl)⟩

/--
The size comes when the computer no longer waits for it: the transfer has been given up,
and the connection kept, so the first byte of the size is read as a code.
-/
def sizeLate : List LinkAct :=
  .server (joins 10) :: redBegins ++
  ([⟨.setSuccess true, ()⟩, ⟨.getTime none, (0 : Rat)⟩, ⟨.malloc 4, true⟩,
    ⟨.recv 4, .err wsaEWouldBlock⟩, ⟨.getTime (some 10), (11 : Rat)⟩, ⟨.setSuccess false, ()⟩,
    ⟨.malloc 3, true⟩, ⟨.send nack, .ret 3⟩,
    ⟨.setSuccess false, ()⟩].map fun e : Event winsock => .server (.job 0 e)) ++
  nextPass ++ [.hears 3, .speaks (le32 3)] ++ (sendsCode 3).map .server

theorem sizeLate_code : ¬ ∀ (parse : List Byte → Option Json) (n : Nat) (l : Link (Nat × Nat)),
    Steps.Run (Link.step slots parse n) (Answered n) .init l → ∀ b ∈ l.codes, b = true := by
  intro hall
  have h : ((Steps.replay (Link.step slots (fun _ => none) 0)
      (fun l a => decide (Answered 0 l a)) sizeLate .init).map (·.codes)) =
      some [true, false] := by decide +kernel
  obtain ⟨l, hl, hcodes⟩ := Option.map_eq_some_iff.mp h
  have hrun := Steps.run_of_replay (fun _ _ hok => of_decide_eq_true hok) .init hl
  have hbad := hall (fun _ => none) 0 l hrun false (by rw [hcodes]; decide)
  exact Bool.noConfusion hbad

end ScoutComputer
